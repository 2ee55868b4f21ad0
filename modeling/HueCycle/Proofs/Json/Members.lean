/-
HueCycle.Proofs.Json.Members — records are read member by member.

A record whose fields have steady readers makes of a JSON object what its
members add one after the other, each read by itself
(`Record.toOption_read_object`), and of a JSON list what its items add field by
field (`Record.toOption_read_list`). Of any other value it makes nothing. In
each case it stops at the end of the value (`Record.exists_read_value`). Members
with unknown keys are refused, or skipped and add nothing, as the record says.

Faults are left out of these statements: which of them is reported does depend
on what follows.
-/
import Mathlib
import HueCycle.Proofs.Json.Skipping

namespace HueCycle.Json

/-! ## §1 Keys -/

theorem delimited_colon (rest : Bytes) : Delimited (0x3A :: rest) := by
  intro b hb
  obtain rfl := Option.some.inj hb
  decide

/-- A key spells a name: read as a string by itself, it is the name. -/
def Spells (key : Bytes) (name : String) : Prop :=
  readWhole (string "") key = .ok (Utf8.encode name)

/-! ## §2 Loop modes -/

section LoopModes

open LoopMode

theorem steady_readContent (name : Name) : Steady (readContent name) := by
  cases name with
  | infinite => exact steady_unit.map fun _ => LoopMode.infinite
  | finite => exact (steady_natural 16).map fun n => LoopMode.finite (UInt16.ofNat n)

theorem read_loopMode_of_head {b : UInt8} (hspace : isSpace b = false) (hbrace : b ≠ 0x7B)
    (hquote : b ≠ quoteOctet) (rest : Bytes) :
    LoopMode.read (b :: rest) = .error .expectedValue := by
  rw [LoopMode.read, skipSpace_cons hspace]
  simp only [if_neg hbrace, if_neg hquote]
  rfl

/-- The closing brace of a loop mode. -/
def closeMode (r : LoopMode × Bytes) : Except Fault (LoopMode × Bytes) :=
  match skipSpace r.2 with
  | [] => .error .endInObject
  | c :: rest => if c = 0x7D then .ok (r.1, rest) else .error .expectedValue

/-- A loop mode that is an object. -/
theorem read_loopMode_object (bytes : Bytes) :
    LoopMode.read (0x7B :: bytes) =
      (string "variant identifier" bytes).bind fun k => (nameOf k.1).bind fun name =>
        (colon k.2).bind fun c => (readContent name c).bind closeMode := by
  rw [LoopMode.read, skipSpace_cons (by decide)]
  dsimp only
  rw [if_pos rfl]
  rfl

/-- A loop mode that is a string. -/
theorem read_loopMode_string (bytes : Bytes) :
    LoopMode.read (quoteOctet :: bytes) =
      (readStr bytes).bind fun k => (nameOf k.1).bind fun
        | .infinite => .ok (LoopMode.infinite, k.2)
        | .finite => .error (.wrongType .unitVariant "newtype variant") := by
  rw [LoopMode.read, skipSpace_cons (by decide)]
  dsimp only
  rw [if_neg (by decide), if_pos rfl]
  refine congrArg (Except.bind _) (funext fun k => congrArg (Except.bind _) (funext fun name => ?_))
  cases name <;> rfl

/-- The loop mode that a name is by itself. -/
def bareMode? : Name → Option LoopMode
  | .infinite => some .infinite
  | .finite => none

theorem toOption_read_loopMode_string {inside : Bytes} {r : Except Fault Bytes}
    (h : ∀ rest, readStr (inside ++ quoteOctet :: rest) = r.map (·, rest)) (rest : Bytes) :
    (LoopMode.read (stringText inside ++ rest)).toOption =
      (r.toOption.bind fun content => (nameOf content).toOption.bind bareMode?).map (·, rest) := by
  rw [stringText, List.cons_append, List.append_assoc, List.singleton_append,
    read_loopMode_string, h rest]
  cases r with
  | error fault => rfl
  | ok content =>
    simp only [Except.map, Except.bind, Except.toOption, Option.bind]
    cases nameOf content with
    | error fault => rfl
    | ok name => cases name <;> rfl

/-- What follows the only member of a loop mode decides: the closing brace and nothing else. -/
theorem toOption_closeMode (mode : LoopMode) {gap : Bytes} (hgap : Blank gap) (items : List Bytes)
    (rest : Bytes) : (closeMode (mode, gap ++ (laterItems items ++ 0x7D :: rest))).toOption =
      if items = [] then some (mode, rest) else none := by
  cases items with
  | nil =>
    rw [closeMode, laterItems, List.flatMap_nil, List.nil_append,
      skipSpace_blank_cons hgap (by decide)]
    rfl
  | cons item items =>
    rw [closeMode, laterItems_cons_append, skipSpace_blank_cons hgap (by decide)]
    rfl

/-- The loop mode that the members of an object are, by themselves: there is one, and its key
tells what its value has to be. -/
def takeMode : List (Bytes × Bytes) → Option LoopMode
  | [] => none
  | m :: later =>
    (readWhole (string "variant identifier") m.1).toOption.bind fun octets =>
      (nameOf octets).toOption.bind fun name =>
        (readWhole (readContent name) m.2).toOption.bind fun mode =>
          if later = [] then some mode else none

theorem toOption_read_loopMode_object {gap : Bytes} {members : List (Bytes × Bytes)}
    (hgap : Blank gap) (hkeys : ∀ m ∈ members, IsKey m.1) (hvalues : ∀ m ∈ members, IsElement m.2)
    (rest : Bytes) :
    (LoopMode.read (objectText gap members ++ rest)).toOption = (takeMode members).map (·, rest) := by
  cases members with
  | nil =>
    have hempty : objectText gap [] ++ rest = 0x7B :: (gap ++ 0x7D :: rest) := by
      simp [objectText, List.intercalate]
    rw [hempty, read_loopMode_object, (steady_string _).skips hgap,
      string_of_head (by decide) (by decide)]
    rfl
  | cons m members =>
    obtain ⟨key, value⟩ := m
    have hkey : IsKey key := hkeys _ List.mem_cons_self
    have hvalue : IsElement value := hvalues _ List.mem_cons_self
    obtain ⟨trail, htrail, hkey⟩ := hkey.isElement.exists_trail
    obtain ⟨trail', htrail', hvalue⟩ := hvalue.exists_trail
    rw [objectText_append, pairText_append, read_loopMode_object, toOption_bind, takeMode,
      (steady_string _).skips hgap, hkey (steady_string _) _ (delimited_colon _)]
    cases (readWhole (string "variant identifier") key).toOption with
    | none => rfl
    | some octets =>
      rw [Option.map_some, Option.bind_some, Option.bind_some, toOption_bind]
      cases (nameOf octets).toOption with
      | none => rfl
      | some name =>
        have hrest := delimited_laterItems (members.map pairText) (delimited_brace rest)
        rw [Option.bind_some, Option.bind_some, toOption_bind, colon_blank_cons htrail,
          toOption_ok, Option.bind_some, toOption_bind, hvalue (steady_readContent name) _ hrest]
        cases (readWhole (readContent name) value).toOption with
        | none => rfl
        | some mode =>
          rw [Option.map_some, Option.bind_some, Option.bind_some,
            toOption_closeMode mode htrail']
          cases members <;> rfl

theorem steady_loopMode : Steady LoopMode.read where
  skips hlead bytes := by rw [LoopMode.read, LoopMode.read, skipSpace_blank_append hlead]
  stops hvalue := by
    cases hvalue with
    | string h =>
      obtain ⟨r, hr⟩ := exists_readStr h
      exact ⟨_, fun rest _ => toOption_read_loopMode_string hr rest⟩
    | positive h =>
      obtain ⟨b, more, rfl, hb⟩ := h.exists_head
      exact .of_error fun rest => ⟨_, read_loopMode_of_head (isSpace_of_isDigit hb)
        (ne_of_isDigit hb (by decide)) (ne_of_isDigit hb (by decide)) _⟩
    | object hgap hkeys hvalues =>
      exact ⟨_, fun rest _ => toOption_read_loopMode_object hgap hkeys hvalues rest⟩
    | _ => exact .of_error fun rest =>
        ⟨_, read_loopMode_of_head (by decide) (by decide) (by decide) _⟩

end LoopModes

/-! ## §3 Members -/

theorem IsKey.exists_body {key : Bytes} (h : IsKey key) :
    ∃ lead body, Blank lead ∧ key = lead ++ quoteOctet :: body := by
  obtain ⟨hlead, -, -⟩ := h
  rename_i lead inside trail
  exact ⟨lead, inside ++ [quoteOctet] ++ trail, hlead, rfl⟩

/-- The key that comes next is read as a string, be it the first one or behind a comma. -/
theorem IsKey.exists_nextKey {key : Bytes} (h : IsKey key) {gap : Bytes} (hgap : Blank gap)
    (rest : Bytes) : ∃ body,
      nextKey true (gap ++ (key ++ rest)) = .ok (some body) ∧
      nextKey false (gap ++ 0x2C :: (key ++ rest)) = .ok (some body) ∧
      readStr body = string "" (key ++ rest) := by
  obtain ⟨lead, body, hlead, rfl⟩ := h.exists_body
  have hskip : skipSpace (lead ++ quoteOctet :: body ++ rest) = quoteOctet :: (body ++ rest) := by
    rw [List.append_assoc]
    exact skipSpace_blank_cons hlead (by decide) _
  refine ⟨body ++ rest, ?_, ?_, ?_⟩
  · rw [nextKey, skipSpace_blank_append hgap, hskip]
    rfl
  · rw [nextKey, skipSpace_blank_cons hgap (by decide)]
    simp only [hskip]
    rfl
  · rw [string, hskip]
    rfl

namespace Record

variable {σ τ : Type} (r : Record σ τ)

theorem Field.steady_of {α : Type} {reader : Reader α} (h : Steady reader) (name : String)
    (get : σ → Option α) (put : σ → α → σ) (s : σ) :
    Steady ((Field.of name get put reader).read s) :=
  h.map (put s)

/-- A field takes of a whole text what its reader does. -/
theorem Field.toOption_readWhole_of {α : Type} (name : String) (get : σ → Option α)
    (put : σ → α → σ) (reader : Reader α) (s : σ) (text : Bytes) :
    (readWhole ((Field.of name get put reader).read s) text).toOption =
      (readWhole reader text).toOption.map (put s) :=
  toOption_readWhole_map reader (put s) text

/-- What a member adds, by itself: its value goes to the field of its key, unless that is set
already. A key that names no field is refused or adds nothing. -/
def takeMember (s : σ) (m : Bytes × Bytes) : Option σ :=
  (readWhole (string "") m.1).toOption.bind fun key =>
    match r.fields.find? fun f => Utf8.encode f.name == key with
    | some f => if f.isSet s then none else (readWhole (f.read s) m.2).toOption
    | none => if r.closed then none else some s

/-- What the items of a list add, by themselves: each goes to the next field. -/
def takeItems : List (Field σ) → σ → List Bytes → Option σ
  | [], s, [] => some s
  | _ :: _, s, [] => if r.mayStop then some s else none
  | [], _, _ :: _ => none
  | f :: fields, s, item :: items =>
    (readWhole (f.read s) item).toOption.bind fun s' => takeItems fields s' items

variable {r} (hsteady : ∀ f ∈ r.fields, ∀ s, Steady (f.read s))

include hsteady in
/-- One member is read as by itself. -/
theorem exists_readMember {m : Bytes × Bytes} (hkey : IsKey m.1) (hvalue : IsElement m.2) :
    ∃ trail, Blank trail ∧ ∀ s rest, Delimited rest →
      ((string "" (m.1 ++ 0x3A :: (m.2 ++ rest))).bind
        fun k => r.readMember k.1 s k.2).toOption = (r.takeMember s m).map (·, trail ++ rest) := by
  obtain ⟨gap, hgap, hkey⟩ := hkey.isElement.exists_trail
  have hread (rest : Bytes) := hkey (steady_string "") _ (delimited_colon rest)
  simp only [toOption_bind, hread, takeMember]
  cases (readWhole (string "") m.1).toOption with
  | none => exact ⟨[], blank_nil, fun s rest _ => rfl⟩
  | some key =>
    simp only [Option.map_some, Option.bind_some, readMember]
    cases hfield : r.fields.find? fun f => Utf8.encode f.name == key with
    | none =>
      obtain ⟨trail, htrail, hskip⟩ := hvalue.exists_skipValue
      refine ⟨trail, htrail, fun s rest hrest => ?_⟩
      cases r.closed with
      | true => rfl
      | false =>
        simp only [colon_blank_cons hgap, Bool.false_eq_true, if_false]
        show ((skipValue (m.2 ++ rest)).map (s, ·)).toOption = _
        rw [hskip rest hrest]
        rfl
    | some f =>
      have hf : f ∈ r.fields := List.mem_of_find?_eq_some hfield
      obtain ⟨trail, htrail, hvalue⟩ := hvalue.exists_trail
      refine ⟨trail, htrail, fun s rest hrest => ?_⟩
      dsimp only
      rw [colon_blank_cons hgap]
      by_cases hset : f.isSet s = true
      · rw [if_pos hset, if_pos hset]
        rfl
      · rw [if_neg hset, if_neg hset]
        exact hvalue (hsteady f hf s) rest hrest

include hsteady in
/-- Reading a member, wherever its key was found. -/
theorem exists_readMembers_step {m : Bytes × Bytes} (hkey : IsKey m.1) (hvalue : IsElement m.2) :
    ∃ trail, Blank trail ∧ ∀ {gap : Bytes}, Blank gap → ∀ steps s rest, Delimited rest →
      (r.readMembers (steps + 1) true s (gap ++ (pairText m ++ rest))).toOption =
        ((r.takeMember s m).bind fun s' =>
          (r.readMembers steps false s' (trail ++ rest)).toOption) ∧
      (r.readMembers (steps + 1) false s (gap ++ 0x2C :: (pairText m ++ rest))).toOption =
        ((r.takeMember s m).bind fun s' =>
          (r.readMembers steps false s' (trail ++ rest)).toOption) := by
  obtain ⟨trail, htrail, hmember⟩ := exists_readMember hsteady hkey hvalue
  refine ⟨trail, htrail, fun hgap steps s rest hrest => ?_⟩
  obtain ⟨body, hfirst, hlater, hbody⟩ := hkey.exists_nextKey hgap (0x3A :: (m.2 ++ rest))
  have hmember := hmember s rest hrest
  rw [← hbody] at hmember
  have hgoes (isFirst : Bool) {bytes : Bytes} (hnext : nextKey isFirst bytes = .ok (some body)) :
      (r.readMembers (steps + 1) isFirst s bytes).toOption =
        (r.takeMember s m).bind fun s' =>
          (r.readMembers steps false s' (trail ++ rest)).toOption := by
    have hstep : r.readMembers (steps + 1) isFirst s bytes =
        ((readStr body).bind fun k => r.readMember k.1 s k.2).bind fun n =>
          r.readMembers steps false n.1 n.2 := by
      rw [readMembers, hnext]
      show ((readStr body).bind fun k => (r.readMember k.1 s k.2).bind fun n =>
        r.readMembers steps false n.1 n.2) = _
      cases readStr body <;> rfl
    rw [hstep, toOption_bind, hmember]
    cases r.takeMember s m <;> rfl
  rw [pairText_append]
  exact ⟨hgoes true hfirst, hgoes false hlater⟩

/-! ## §4 Objects -/

/-- What the closing brace makes of the members. -/
def closeObject (r : Record σ τ) (members : σ × Bytes) : Except Fault (τ × Bytes) :=
  (r.finish members.1).bind fun value => (objectEnd members.2).map (value, ·)

theorem toOption_closeObject {gap : Bytes} (hgap : Blank gap) (s : σ) (rest : Bytes) :
    (closeObject r (s, gap ++ 0x7D :: rest)).toOption = (r.finish s).toOption.map (·, rest) := by
  have hend : objectEnd (gap ++ 0x7D :: rest) = .ok rest := by
    rw [objectEnd, skipSpace_blank_cons hgap (by decide)]
    rfl
  rw [closeObject, hend]
  cases r.finish s <;> rfl

/-- At the closing brace no member is read. -/
theorem readMembers_brace {gap : Bytes} (hgap : Blank gap) (steps : Nat) (isFirst : Bool) (s : σ)
    (rest : Bytes) : r.readMembers (steps + 1) isFirst s (gap ++ 0x7D :: rest) =
      .ok (s, gap ++ 0x7D :: rest) := by
  have hnone : nextKey isFirst (gap ++ 0x7D :: rest) = .ok none := by
    rw [nextKey, skipSpace_blank_cons hgap (by decide)]
    rfl
  rw [readMembers, hnone]
  rfl

include hsteady in
/-- The members behind the first one are taken one after the other. -/
theorem toOption_readMembers_later {members : List (Bytes × Bytes)}
    (hkeys : ∀ m ∈ members, IsKey m.1) (hvalues : ∀ m ∈ members, IsElement m.2) {gap : Bytes}
    (hgap : Blank gap) {steps : Nat} (hsteps : members.length < steps) (s : σ) (rest : Bytes) :
    (((r.readMembers steps false s
        (gap ++ (laterItems (members.map pairText) ++ 0x7D :: rest))).bind
          (closeObject r)).toOption) =
      ((members.foldlM r.takeMember s).bind fun s' => (r.finish s').toOption).map (·, rest) := by
  induction members generalizing gap steps s with
  | nil =>
    obtain ⟨steps, rfl⟩ := Nat.exists_eq_succ_of_ne_zero (Nat.ne_of_gt hsteps)
    rw [List.map_nil, laterItems, List.flatMap_nil, List.nil_append, readMembers_brace hgap]
    exact toOption_closeObject hgap s rest
  | cons m members ih =>
    obtain ⟨steps, rfl⟩ := Nat.exists_eq_succ_of_ne_zero (Nat.ne_of_gt (Nat.zero_lt_of_lt hsteps))
    rw [List.length_cons] at hsteps
    obtain ⟨trail, htrail, hstep⟩ := exists_readMembers_step hsteady
      (hkeys m List.mem_cons_self) (hvalues m List.mem_cons_self)
    have hrest := delimited_laterItems (members.map pairText) (delimited_brace rest)
    rw [List.map_cons, laterItems_cons_append, toOption_bind, (hstep hgap steps s _ hrest).2,
      List.foldlM_cons]
    cases r.takeMember s m with
    | none => rfl
    | some s' =>
      rw [Option.bind_some, ← toOption_bind]
      exact ih (fun m hm => hkeys m (List.mem_cons_of_mem _ hm))
        (fun m hm => hvalues m (List.mem_cons_of_mem _ hm)) htrail (by omega) s'

include hsteady in
/-- **An object is read as what its members add**, one after the other, whatever follows. -/
theorem toOption_read_object {gap : Bytes} {members : List (Bytes × Bytes)} (hgap : Blank gap)
    (hkeys : ∀ m ∈ members, IsKey m.1) (hvalues : ∀ m ∈ members, IsElement m.2) (rest : Bytes) :
    (r.read (objectText gap members ++ rest)).toOption =
      ((members.foldlM r.takeMember r.start).bind fun s => (r.finish s).toOption).map
        (·, rest) := by
  have hread (bytes : Bytes) : r.read (0x7B :: bytes) =
      (r.readMembers (bytes.length + 1) true r.start bytes).bind (closeObject r) := by
    rw [read, skipSpace_cons (by decide)]
    dsimp only
    rw [if_neg (by decide), if_pos rfl]
    refine congrArg (Except.bind _) (funext fun p => congrArg (Except.bind _) (funext fun v => ?_))
    cases objectEnd p.2 <;> rfl
  cases members with
  | nil =>
    have hempty : objectText gap [] ++ rest = 0x7B :: (gap ++ 0x7D :: rest) := by
      simp [objectText, List.intercalate]
    rw [hempty, hread, readMembers_brace hgap]
    exact toOption_closeObject hgap r.start rest
  | cons m members =>
    obtain ⟨trail, htrail, hstep⟩ := exists_readMembers_step hsteady
      (hkeys m List.mem_cons_self) (hvalues m List.mem_cons_self)
    have hrest := delimited_laterItems (members.map pairText) (delimited_brace rest)
    have hsteps : members.length <
        (gap ++ (pairText m ++ (laterItems (members.map pairText) ++ 0x7D :: rest))).length := by
      have hlater := length_le_laterItems (members.map pairText)
      rw [List.length_map] at hlater
      simp only [List.length_append, List.length_cons]
      omega
    rw [objectText_append, hread, toOption_bind, (hstep hgap _ r.start _ hrest).1,
      List.foldlM_cons]
    cases r.takeMember r.start m with
    | none => rfl
    | some s =>
      rw [Option.bind_some, ← toOption_bind]
      exact toOption_readMembers_later hsteady
        (fun m hm => hkeys m (List.mem_cons_of_mem _ hm))
        (fun m hm => hvalues m (List.mem_cons_of_mem _ hm)) htrail hsteps s rest

/-! ## §5 Lists -/

/-- What the closing bracket makes of the items. -/
def closeList (r : Record σ τ) (items : σ × Bytes) : Except Fault (τ × Bytes) :=
  (r.finish items.1).bind fun value => (listEnd items.2).map (value, ·)

/-- The closing bracket ends a list, and a comma does not. -/
theorem toOption_closeList {gap : Bytes} (hgap : Blank gap) (s : σ) (items : List Bytes)
    (rest : Bytes) : (closeList r (s, gap ++ (laterItems items ++ 0x5D :: rest))).toOption =
      if items = [] then (r.finish s).toOption.map (·, rest) else none := by
  cases items with
  | nil =>
    have hend : listEnd (gap ++ 0x5D :: rest) = .ok rest := by
      rw [listEnd, skipSpace_blank_cons hgap (by decide)]
      rfl
    rw [closeList, laterItems, List.flatMap_nil, List.nil_append, hend]
    cases r.finish s <;> rfl
  | cons item items =>
    have hend : ∃ fault, listEnd (gap ++ (laterItems (item :: items) ++ 0x5D :: rest)) =
        .error fault := by
      rw [laterItems_cons_append, listEnd, skipSpace_blank_cons hgap (by decide)]
      dsimp only
      rw [if_neg (by decide)]
      split
      · exact ⟨_, rfl⟩
      · exact ⟨_, rfl⟩
    obtain ⟨fault, hend⟩ := hend
    rw [closeList, hend]
    cases r.finish s <;> rfl

/-- Where an item begins no list ends. -/
theorem exists_listEnd_error {item : Bytes} (h : IsElement item) {gap : Bytes} (hgap : Blank gap)
    (rest : Bytes) : ∃ fault, listEnd (gap ++ (item ++ rest)) = .error fault := by
  obtain ⟨lead, b, more, hlead, hspace, hbracket, hitem⟩ := h.exists_head rest
  rw [listEnd, skipSpace_blank_append hgap, hitem, skipSpace_blank_cons hlead hspace]
  dsimp only
  rw [if_neg hbracket]
  split
  · exact ⟨_, rfl⟩
  · exact ⟨_, rfl⟩

/-- The item that comes next, be it the first one or behind a comma. -/
theorem exists_nextItem {item : Bytes} (h : IsElement item) {gap : Bytes} (hgap : Blank gap)
    (rest : Bytes) : ∃ lead body, Blank lead ∧ item ++ rest = lead ++ body ∧
      nextItem true (gap ++ (item ++ rest)) = .ok (some body) ∧
      nextItem false (gap ++ 0x2C :: (item ++ rest)) = .ok (some body) := by
  obtain ⟨lead, b, more, hlead, hspace, hbracket, hitem⟩ := h.exists_head rest
  have hskip : skipSpace (item ++ rest) = b :: more := by
    rw [hitem]
    exact skipSpace_blank_cons hlead hspace _
  refine ⟨lead, b :: more, hlead, hitem, ?_, ?_⟩
  · rw [nextItem, skipSpace_blank_append hgap, hskip]
    simp only [if_neg hbracket, if_true]
  · rw [nextItem, skipSpace_blank_cons hgap (by decide)]
    simp only [hskip, if_neg hbracket]
    rfl

include hsteady in
/-- Reading an item, be it the first one or behind a comma. -/
theorem exists_readItems_step {item : Bytes} (h : IsElement item) :
    ∃ trail, Blank trail ∧ ∀ {gap : Bytes}, Blank gap → ∀ f ∈ r.fields, ∀ fields index s rest,
      Delimited rest →
      (r.readItems (f :: fields) 0 s (gap ++ (item ++ rest))).toOption =
        ((readWhole (f.read s) item).toOption.bind fun s' =>
          (r.readItems fields 1 s' (trail ++ rest)).toOption) ∧
      (r.readItems (f :: fields) (index + 1) s (gap ++ 0x2C :: (item ++ rest))).toOption =
        ((readWhole (f.read s) item).toOption.bind fun s' =>
          (r.readItems fields (index + 2) s' (trail ++ rest)).toOption) := by
  obtain ⟨trail, htrail, hitem⟩ := h.exists_trail
  refine ⟨trail, htrail, fun hgap f hf fields index s rest hrest => ?_⟩
  obtain ⟨lead, body, hlead, hbody, hfirst, hlater⟩ := exists_nextItem h hgap rest
  have hread : (f.read s body).toOption =
      (readWhole (f.read s) item).toOption.map (·, trail ++ rest) := by
    rw [← hitem (hsteady f hf s) rest hrest, hbody, (hsteady f hf s).skips hlead]
  have hgoes (index : Nat) {bytes : Bytes} (hnext : nextItem (index == 0) bytes = .ok (some body)) :
      (r.readItems (f :: fields) index s bytes).toOption =
        (readWhole (f.read s) item).toOption.bind fun s' =>
          (r.readItems fields (index + 1) s' (trail ++ rest)).toOption := by
    have hstep : r.readItems (f :: fields) index s bytes =
        (f.read s body).bind fun n => r.readItems fields (index + 1) n.1 n.2 := by
      rw [readItems, hnext]
      rfl
    rw [hstep, toOption_bind, hread]
    cases (readWhole (f.read s) item).toOption <;> rfl
  exact ⟨hgoes 0 hfirst, hgoes (index + 1) hlater⟩

/-- At the closing bracket no item is read, and fields may be left or not, as the record says. -/
theorem toOption_readItems_bracket {gap : Bytes} (hgap : Blank gap) (fields : List (Field σ))
    (index : Nat) (s : σ) (rest : Bytes) :
    ((r.readItems fields index s (gap ++ 0x5D :: rest)).bind (closeList r)).toOption =
      ((r.takeItems fields s []).bind fun s' => (r.finish s').toOption).map (·, rest) := by
  have hclose (s : σ) : (closeList r (s, gap ++ 0x5D :: rest)).toOption =
      (r.finish s).toOption.map (·, rest) := toOption_closeList hgap s [] rest
  cases fields with
  | nil =>
    rw [readItems, takeItems]
    exact hclose s
  | cons f fields =>
    have hnone : nextItem (index == 0) (gap ++ 0x5D :: rest) = .ok none := by
      rw [nextItem, skipSpace_blank_cons hgap (by decide)]
      rfl
    rw [readItems, hnone, takeItems]
    show (Except.bind (if r.mayStop then _ else _) _).toOption = _
    split
    · exact hclose s
    · rfl

include hsteady in
/-- The items behind the first one go to the fields that are left. -/
theorem toOption_readItems_later {items : List Bytes} (hitems : ∀ item ∈ items, IsElement item)
    {fields : List (Field σ)} (hfields : ∀ f ∈ fields, f ∈ r.fields) {gap : Bytes}
    (hgap : Blank gap) (index : Nat) (s : σ) (rest : Bytes) :
    ((r.readItems fields (index + 1) s (gap ++ (laterItems items ++ 0x5D :: rest))).bind
        (closeList r)).toOption =
      ((r.takeItems fields s items).bind fun s' => (r.finish s').toOption).map (·, rest) := by
  induction items generalizing fields gap index s with
  | nil =>
    rw [laterItems, List.flatMap_nil, List.nil_append]
    exact toOption_readItems_bracket hgap fields (index + 1) s rest
  | cons item items ih =>
    cases fields with
    | nil =>
      have hclose := toOption_closeList (r := r) hgap s (item :: items) rest
      rw [readItems, takeItems]
      exact hclose
    | cons f fields =>
      obtain ⟨trail, htrail, hstep⟩ :=
        exists_readItems_step hsteady (hitems item List.mem_cons_self)
      have hrest := delimited_laterItems items (delimited_bracket rest)
      rw [laterItems_cons_append, toOption_bind,
        (hstep hgap f (hfields f List.mem_cons_self) fields index s _ hrest).2, takeItems]
      cases (readWhole (f.read s) item).toOption with
      | none => rfl
      | some s' =>
        rw [Option.bind_some, Option.bind_some, ← toOption_bind]
        exact ih (fun item hi => hitems item (List.mem_cons_of_mem _ hi))
          (fun f hf => hfields f (List.mem_cons_of_mem _ hf)) htrail (index + 1) s'

include hsteady in
/-- **A list is read as what its items add**, field by field, whatever follows. -/
theorem toOption_read_list {gap : Bytes} {items : List Bytes} (hgap : Blank gap)
    (hitems : ∀ item ∈ items, IsElement item) (rest : Bytes) :
    (r.read (listText gap items ++ rest)).toOption =
      ((r.takeItems r.fields r.start items).bind fun s => (r.finish s).toOption).map
        (·, rest) := by
  have hread (bytes : Bytes) : r.read (0x5B :: bytes) =
      (r.readItems r.fields 0 r.start bytes).bind (closeList r) := by
    rw [read, skipSpace_cons (by decide)]
    dsimp only
    rw [if_pos rfl]
    refine congrArg (Except.bind _) (funext fun p => congrArg (Except.bind _) (funext fun v => ?_))
    cases listEnd p.2 <;> rfl
  cases items with
  | nil =>
    have hempty : listText gap [] ++ rest = 0x5B :: (gap ++ 0x5D :: rest) := by
      simp [listText, List.intercalate]
    rw [hempty, hread]
    exact toOption_readItems_bracket hgap r.fields 0 r.start rest
  | cons item items =>
    rw [listText_append, hread]
    cases hfields : r.fields with
    | nil =>
      obtain ⟨fault, hend⟩ := exists_listEnd_error (hitems item List.mem_cons_self) hgap
        (laterItems items ++ 0x5D :: rest)
      show (closeList r (r.start, gap ++ (item ++ (laterItems items ++ 0x5D :: rest)))).toOption = _
      rw [closeList, hend, takeItems]
      cases r.finish r.start <;> rfl
    | cons f fields =>
      obtain ⟨trail, htrail, hstep⟩ :=
        exists_readItems_step hsteady (hitems item List.mem_cons_self)
      have hrest := delimited_laterItems items (delimited_bracket rest)
      have hmem : ∀ g ∈ f :: fields, g ∈ r.fields := fun g hg => hfields ▸ hg
      rw [toOption_bind, (hstep hgap f (hmem f List.mem_cons_self) fields 0 r.start _ hrest).1,
        takeItems]
      cases (readWhole (f.read r.start) item).toOption with
      | none => rfl
      | some s' =>
        rw [Option.bind_some, Option.bind_some, ← toOption_bind]
        exact toOption_readItems_later hsteady
          (fun item hi => hitems item (List.mem_cons_of_mem _ hi))
          (fun g hg => hmem g (List.mem_cons_of_mem _ hg)) htrail 0 s' rest

/-! ## §6 Records -/

theorem read_of_head {b : UInt8} (hspace : isSpace b = false) (hlist : b ≠ 0x5B)
    (hobject : b ≠ 0x7B) (rest : Bytes) :
    r.read (b :: rest) = .error (unwanted r.name (b :: rest)) := by
  rw [read, skipSpace_cons hspace]
  simp only [if_neg hlist, if_neg hobject]
  rfl

include hsteady in
/-- **A record takes a JSON value or refuses it**, and stops at its end, whatever follows. -/
theorem exists_read_value {value : Bytes} (h : IsValue value) :
    ∃ x : Option τ, ∀ rest, (r.read (value ++ rest)).toOption = x.map (·, rest) := by
  obtain ⟨gap, items, hgap, hitems, rfl⟩ | ⟨gap, members, hgap, hkeys, hvalues, rfl⟩ |
    ⟨b, more, rfl, hspace, hlist, hobject⟩ := h.bracket_or_head
  · exact ⟨_, toOption_read_list hsteady hgap hitems⟩
  · exact ⟨_, toOption_read_object hsteady hgap hkeys hvalues⟩
  · exact ⟨none, fun rest => congrArg Except.toOption (read_of_head hspace hlist hobject _)⟩

include hsteady in
/-- So records can be fields of records. -/
theorem steady_read : Steady r.read where
  skips hlead bytes := by rw [read, read, skipSpace_blank_append hlead]
  stops hvalue := by
    obtain ⟨x, hx⟩ := exists_read_value hsteady hvalue
    exact ⟨x, fun rest _ => hx rest⟩

/-- A whole text is a value between blanks. -/
theorem toOption_readWhole_value {value lead : Bytes} {x : Option τ} (hlead : Blank lead)
    (h : ∀ rest, (r.read (value ++ rest)).toOption = x.map (·, rest)) (rest : Bytes) :
    (readWhole r.read (lead ++ (value ++ rest))).toOption =
      if skipSpace rest = [] then x else none := by
  have hskip (bytes : Bytes) : r.read (lead ++ bytes) = r.read bytes := by
    rw [read, read, skipSpace_blank_append hlead]
  rw [toOption_readWhole, hskip, h]
  cases x with
  | none => simp
  | some t => rfl

end Record

end HueCycle.Json
