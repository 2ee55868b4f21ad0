/-
HueCycle.Proofs.Json.Records — reading back the values that are written.

`Reads` says that a reader gives a value for a text wherever that text
stands before something that cannot be part of a number. The members of an
object lead from state to state, one member at a time (`Record.Gathers`), and
the object is read as what the last state becomes (`reads_object`); so a
record only has to say what each of its fields does with the value written
for it.
-/
import Mathlib
import HueCycle.LoopMode
import HueCycle.Proofs.Json.Numbers
import HueCycle.Proofs.Json.Strings

namespace HueCycle.Json

/-! ## §1 Values -/

/-- A reader gives a value for a text. -/
def Reads {α : Type} (reader : Reader α) (text : Bytes) (a : α) : Prop :=
  ∀ rest, Delimited rest → reader (text ++ rest) = .ok (a, rest)

section Values

variable {α β : Type} {reader : Reader α} {text : Bytes} {a : α}

theorem Reads.map (h : Reads reader text a) (g : α → β) :
    Reads (fun bytes => (reader bytes).map fun r => (g r.1, r.2)) text (g a) := by
  intro rest hrest
  dsimp only
  rw [h rest hrest]
  rfl

/-- A text that is read to its end is the text of the value. -/
theorem Reads.whole (h : Reads reader text a) : readWhole reader text = .ok a := by
  have hempty := h [] (by simp [Delimited])
  rw [List.append_nil] at hempty
  rw [readWhole, hempty]
  rfl

theorem reads_natural {width n : Nat} (hwidth : width ≤ 64) (hn : n < 2 ^ width) :
    Reads (natural width) (writeNatural n) n :=
  fun _ hrest => natural_writeNatural hwidth hn hrest

theorem reads_string {content : Bytes} (expected : String) (h : Utf8.isValid content = true) :
    Reads (string expected) (writeStr content) content :=
  fun rest _ => string_writeStr expected h rest

end Values

/-! ## §2 Objects -/

/-- What stands after a member: the comma before the next one, or the closing brace. -/
theorem delimited_comma (rest : Bytes) : Delimited (0x2C :: rest) := by
  intro b hb
  obtain rfl := Option.some.inj hb
  decide

theorem delimited_brace (rest : Bytes) : Delimited (0x7D :: rest) := by
  intro b hb
  obtain rfl := Option.some.inj hb
  decide

/-- The text of one member. -/
def memberText (m : String × Bytes) : Bytes := writeStr (Utf8.encode m.1) ++ 0x3A :: m.2

/-- The text of the members after the first. -/
def laterText (members : List (String × Bytes)) : Bytes :=
  members.flatMap fun m => 0x2C :: memberText m

theorem intercalate_eq (m : Bytes) (members : List Bytes) :
    List.intercalate [0x2C] (m :: members) = m ++ members.flatMap (0x2C :: ·) := by
  induction members generalizing m with
  | nil => simp [List.intercalate]
  | cons n members ih =>
    rw [List.intercalate_cons_cons, ih, List.flatMap_cons]
    simp

theorem writeObject_append (m : String × Bytes) (members : List (String × Bytes)) (rest : Bytes) :
    writeObject (m :: members) ++ rest =
      0x7B :: (memberText m ++ (laterText members ++ 0x7D :: rest)) := by
  have hmembers : (m :: members).map memberText = memberText m :: members.map memberText := rfl
  change (0x7B :: List.intercalate [0x2C] ((m :: members).map memberText) ++ [0x7D]) ++ rest = _
  rw [hmembers, intercalate_eq, List.flatMap_map, laterText]
  simp

/-- What follows a member cannot be part of a number. -/
theorem delimited_laterText (members : List (String × Bytes)) (rest : Bytes) :
    Delimited (laterText members ++ 0x7D :: rest) := by
  cases members with
  | nil => exact delimited_brace rest
  | cons m members => exact delimited_comma _

/-- Every member takes at least one octet. -/
theorem length_le_laterText (members : List (String × Bytes)) :
    members.length ≤ (laterText members).length := by
  induction members with
  | nil => exact Nat.le_refl 0
  | cons m members ih =>
    rw [laterText, List.flatMap_cons, List.length_append, ← laterText]
    simp only [List.length_cons]
    omega

theorem memberText_append (m : String × Bytes) (rest : Bytes) :
    memberText m ++ rest =
      quoteOctet :: ((Utf8.encode m.1).flatMap writeOctet ++ quoteOctet :: (0x3A :: m.2 ++ rest)) := by
  rw [memberText, List.append_assoc, writeStr_append]

namespace Record

variable {σ τ : Type} {r : Record σ τ}

/-- Reading the value of a field that is not set yet leads from one state to another. -/
def Field.Sets (f : Field σ) (value : Bytes) (s s' : σ) : Prop :=
  f.isSet s = false ∧ ∀ rest, Delimited rest → f.read s (value ++ rest) = .ok (s', rest)

/-- A field takes what its reader gives. -/
theorem Field.sets_of {α : Type} {name : String} {get : σ → Option α} {put : σ → α → σ}
    {reader : Reader α} {value : Bytes} {s : σ} {a : α} (hunset : get s = none)
    (h : Reads reader value a) : (Field.of name get put reader).Sets value s (put s a) := by
  refine ⟨by simp [Field.of, hunset], fun rest hrest => ?_⟩
  rw [Field.of]
  dsimp only
  rw [h rest hrest]
  rfl

/-- The members of an object, one after the other, lead from one state to another. -/
inductive Gathers (r : Record σ τ) : σ → List (String × Bytes) → σ → Prop
  | nil (s : σ) : Gathers r s [] s
  | cons {name : String} {value : Bytes} {members : List (String × Bytes)} {f : Field σ}
      {s s' s'' : σ} (hname : Utf8.isValid (Utf8.encode name) = true)
      (hfield : (r.fields.find? fun f => Utf8.encode f.name == Utf8.encode name) = some f)
      (hvalue : f.Sets value s s') (hlater : Gathers r s' members s'') :
      Gathers r s ((name, value) :: members) s''

/-- One member. -/
theorem readMember_of_sets {name : String} {value rest : Bytes} {f : Field σ} {s s' : σ}
    (hfield : (r.fields.find? fun f => Utf8.encode f.name == Utf8.encode name) = some f)
    (hvalue : f.Sets value s s') (hrest : Delimited rest) :
    r.readMember (Utf8.encode name) s (0x3A :: value ++ rest) = .ok (s', rest) := by
  have hread := hvalue.2 rest hrest
  rw [readMember, hfield]
  simp only [hvalue.1, Bool.false_eq_true, if_false]
  exact hread

/-- One member, after a comma or the opening brace. -/
theorem readMembers_step {name : String} {value rest bytes : Bytes} {f : Field σ} {s s' : σ}
    (hname : Utf8.isValid (Utf8.encode name) = true)
    (hfield : (r.fields.find? fun f => Utf8.encode f.name == Utf8.encode name) = some f)
    (hvalue : f.Sets value s s') (hrest : Delimited rest) {isFirst : Bool}
    (hkey : nextKey isFirst bytes = .ok (some ((Utf8.encode name).flatMap writeOctet ++
      quoteOctet :: (0x3A :: value ++ rest)))) (steps : Nat) :
    r.readMembers (steps + 1) isFirst s bytes = r.readMembers steps false s' rest := by
  rw [readMembers, hkey]
  show ((readStr _).bind fun k => (r.readMember k.1 s k.2).bind fun n =>
    r.readMembers steps false n.1 n.2) = _
  rw [readStr_content hname]
  show ((r.readMember (Utf8.encode name) s (0x3A :: value ++ rest)).bind fun n =>
    r.readMembers steps false n.1 n.2) = _
  rw [readMember_of_sets hfield hvalue hrest, Except.bind]

/-- **The members of an object are gathered** one after the other. -/
theorem readMembers_of_gathers {s s' : σ} {members : List (String × Bytes)}
    (h : r.Gathers s members s') {steps : Nat} (hsteps : members.length < steps) (rest : Bytes) :
    r.readMembers steps false s (laterText members ++ 0x7D :: rest) = .ok (s', 0x7D :: rest) := by
  induction h generalizing steps with
  | nil s =>
    obtain ⟨steps, rfl⟩ := Nat.exists_eq_succ_of_ne_zero (Nat.ne_of_gt hsteps)
    rfl
  | @cons name value members f s s' s'' hname hfield hvalue hlater ih =>
    obtain ⟨steps, rfl⟩ := Nat.exists_eq_succ_of_ne_zero (Nat.ne_of_gt (Nat.zero_lt_of_lt hsteps))
    rw [List.length_cons] at hsteps
    have hlaterText : laterText ((name, value) :: members) ++ 0x7D :: rest =
        0x2C :: (memberText (name, value) ++ (laterText members ++ 0x7D :: rest)) := by
      simp [laterText]
    rw [hlaterText, memberText_append,
      readMembers_step hname hfield hvalue (delimited_laterText members rest) rfl]
    exact ih (by omega)

/-- **An object that was written is read** as what its members lead to. -/
theorem reads_object {s : σ} {t : τ} {members : List (String × Bytes)} (hne : members ≠ [])
    (h : r.Gathers r.start members s) (hfinish : r.finish s = .ok t) :
    Reads r.read (writeObject members) t := by
  intro rest hrest
  cases h with
  | nil => exact absurd rfl hne
  | @cons name value members f _ s' _ hname hfield hvalue hlater =>
    have hsteps : members.length <
        (memberText (name, value) ++ (laterText members ++ 0x7D :: rest)).length := by
      have hlater := length_le_laterText members
      simp only [List.length_append, List.length_cons]
      omega
    have hmembers : r.readMembers
        ((memberText (name, value) ++ (laterText members ++ 0x7D :: rest)).length + 1) true r.start
        (memberText (name, value) ++ (laterText members ++ 0x7D :: rest)) =
          .ok (s, 0x7D :: rest) := by
      rw [memberText_append] at hsteps ⊢
      rw [readMembers_step hname hfield hvalue (delimited_laterText members rest) rfl]
      exact readMembers_of_gathers hlater hsteps rest
    rw [writeObject_append]
    show ((r.readMembers _ true r.start _).bind fun m => (r.finish m.1).bind fun value =>
      (objectEnd m.2).bind fun rest => .ok (value, rest)) = _
    rw [hmembers]
    show ((r.finish s).bind fun value => .ok (value, rest)) = _
    rw [hfinish, Except.bind]

end Record

/-! ## §3 Loop modes -/

theorem skipSpace_cons {b : UInt8} (h : isSpace b = false) (rest : Bytes) :
    skipSpace (b :: rest) = b :: rest := by
  rw [skipSpace, List.dropWhile_cons, h]
  rfl

/-- **Loop modes are read back.** -/
theorem reads_loopMode (mode : LoopMode) : Reads LoopMode.read mode.write mode := by
  intro rest hrest
  cases mode with
  | infinite =>
    rw [LoopMode.write, writeStr_append, LoopMode.read, skipSpace_cons (by decide)]
    dsimp only
    rw [if_neg (by decide), if_pos rfl, readStr_content (by decide)]
    rfl
  | finite times =>
    have hcontent := (reads_natural (by decide : 16 ≤ 64) times.toNat_lt).map
      (fun n => LoopMode.finite (UInt16.ofNat n)) (0x7D :: rest) (delimited_brace rest)
    rw [UInt16.ofNat_toNat] at hcontent
    have hname := string_writeStr "variant identifier"
      (by decide : Utf8.isValid (Utf8.encode "finite") = true)
      (0x3A :: writeNatural times.toNat ++ 0x7D :: rest)
    rw [LoopMode.write, writeObject_append, memberText, List.append_assoc, LoopMode.read,
      skipSpace_cons (by decide)]
    dsimp only
    rw [if_pos rfl, show laterText [] = [] from rfl, List.nil_append, hname]
    show ((LoopMode.readContent .finite (writeNatural times.toNat ++ 0x7D :: rest)).bind
      fun m => _) = _
    rw [LoopMode.readContent]
    dsimp only at hcontent
    rw [hcontent]
    rfl

end HueCycle.Json
