/-
HueCycle.Proofs.Json.Forms — the small values in JSON.

A value has many texts: blanks, the order of the keys, keys that do not belong
to it, a list in place of an object. `IsPair` and `IsMode` say which texts
denote which value, by the texts alone, and the readers accept exactly these.
Of the texts of one value the one that is written is the canonical one
(`Faithful`). Main statement: `small_values_are_faithful`.
-/
import Mathlib
import HueCycle.Json.Values
import HueCycle.Proofs.Json.Integers
import HueCycle.Proofs.Json.Members

namespace HueCycle.Json

/-! ## §1 Keys and their values -/

/-- The octets that a key spells. -/
def keyOf? (key : Bytes) : Option Bytes := (readWhole (string "") key).toOption

theorem keyOf?_eq_some_iff {key : Bytes} {name : String} :
    keyOf? key = some (Utf8.encode name) ↔ Spells key name :=
  toOption_eq_some_iff

/-- What is expected where the key stands does not matter. -/
theorem toOption_readWhole_string (expected : String) (key : Bytes) :
    (readWhole (string expected) key).toOption = keyOf? key := by
  have hstring : (string expected key).toOption = (string "" key).toOption := by
    rw [string, string]
    split
    · rfl
    · split
      · rfl
      · rfl
  rw [keyOf?, toOption_readWhole, toOption_readWhole, hstring]

/-- The values that the members of an object give to a name. -/
def valuesOf (name : String) (members : List (Bytes × Bytes)) : List Bytes :=
  (members.filter fun m => keyOf? m.1 == some (Utf8.encode name)).map Prod.snd

theorem mem_valuesOf {name : String} {members : List (Bytes × Bytes)} {m : Bytes × Bytes}
    (hm : m ∈ members) (h : Spells m.1 name) : m.2 ∈ valuesOf name members :=
  List.mem_map_of_mem (List.mem_filter.mpr ⟨hm, by simpa using keyOf?_eq_some_iff.mpr h⟩)

theorem valuesOf_cons (name : String) (m : Bytes × Bytes) (members : List (Bytes × Bytes)) :
    valuesOf name (m :: members) =
      if keyOf? m.1 = some (Utf8.encode name) then m.2 :: valuesOf name members
      else valuesOf name members := by
  rw [valuesOf, List.filter_cons]
  split <;> simp_all [valuesOf]

/-! ## §2 Pairs of whole numbers -/

section Pairs

variable {τ : Type} {name first second : String} {width : Nat} {make : Nat → Nat → τ}
  {lead gap trail : Bytes} {members : List (Bytes × Bytes)} {items : List Bytes}

theorem steady_pair : ∀ f ∈ (pair name first second width make).fields, ∀ s, Steady (f.read s) := by
  intro f hf s
  simp only [pair, List.mem_cons, List.not_mem_nil, or_false] at hf
  rcases hf with rfl | rfl
  · exact Record.Field.steady_of (steady_natural width) _ _ _ s
  · exact Record.Field.steady_of (steady_natural width) _ _ _ s

/-- A number that is not given yet is given by a text. -/
def fill (width : Nat) (x : Option Nat) (text : Bytes) : Option (Option Nat) :=
  if x = none then (readWhole (natural width) text).toOption.map some else none

/-- A number is given in the end exactly if there is one text, which states it. -/
theorem foldlM_fill_eq_some_some_iff (hwidth : width ≤ 64) {texts : List Bytes} {n : Nat} :
    texts.foldlM (fill width) none = some (some n) ↔
      ∃ text, texts = [text] ∧ IsNatural width n text := by
  simp only [← readWhole_natural_eq_ok_iff hwidth]
  cases texts with
  | nil => simp
  | cons text texts =>
    rw [List.foldlM_cons, fill, if_pos rfl]
    cases hread : readWhole (natural width) text with
    | error fault => simp [hread, toOption_error]
    | ok a => cases texts <;> simp [hread, toOption_ok, fill]

/-- A key leads to the first number, to the second one, or to none. -/
theorem find?_pair (key : Bytes) : ((pair name first second width make).fields.find? fun f =>
    Utf8.encode f.name == key) =
      if key = Utf8.encode first then
        some (.of first Prod.fst (fun s n => (some n, s.2)) (natural width))
      else if key = Utf8.encode second then
        some (.of second Prod.snd (fun s n => (s.1, some n)) (natural width))
      else none := by
  have hname (n : String) (get : Option Nat × Option Nat → Option Nat)
      (put : Option Nat × Option Nat → Nat → Option Nat × Option Nat) :
      (Utf8.encode (Record.Field.of n get put (natural width)).name == key) =
        decide (key = Utf8.encode n) := by
    rw [Record.Field.of, beq_eq_decide, decide_eq_decide]
    exact eq_comm
  rw [pair, List.find?_cons, List.find?_cons, hname, hname, List.find?_nil]
  by_cases hfirst : key = Utf8.encode first
  · simp only [hfirst, decide_true, if_true]
  · by_cases hsecond : key = Utf8.encode second
    · simp only [hfirst, if_false, decide_false]
      simp only [hsecond, decide_true, if_true]
    · simp only [hfirst, hsecond, decide_false, if_false]

/-- What a member adds to a pair. -/
theorem takeMember_pair (s : Option Nat × Option Nat) (m : Bytes × Bytes) :
    (pair name first second width make).takeMember s m = (keyOf? m.1).bind fun key =>
      if key = Utf8.encode first then (fill width s.1 m.2).map (·, s.2)
      else if key = Utf8.encode second then (fill width s.2 m.2).map (s.1, ·)
      else some s := by
  rw [Record.takeMember]
  refine congrArg (Option.bind _) (funext fun key => ?_)
  rw [find?_pair]
  by_cases hfirst : key = Utf8.encode first
  · simp only [if_pos hfirst, Record.Field.toOption_readWhole_of]
    obtain ⟨_ | a, y⟩ := s
    · rw [fill, if_pos rfl, Option.map_map]
      rfl
    · rfl
  · by_cases hsecond : key = Utf8.encode second
    · simp only [if_neg hfirst, if_pos hsecond, Record.Field.toOption_readWhole_of]
      obtain ⟨x, _ | b⟩ := s
      · rw [fill, if_pos rfl, Option.map_map]
        rfl
      · rfl
    · simp only [if_neg hfirst, if_neg hsecond]
      rfl

/-- **The members of a pair give its numbers independently**, wherever they stand. -/
theorem foldlM_takeMember_pair (hne : Utf8.encode first ≠ Utf8.encode second)
    (members : List (Bytes × Bytes)) (s s' : Option Nat × Option Nat) :
    members.foldlM (pair name first second width make).takeMember s = some s' ↔
      (∀ m ∈ members, (keyOf? m.1).isSome) ∧
        (valuesOf first members).foldlM (fill width) s.1 = some s'.1 ∧
        (valuesOf second members).foldlM (fill width) s.2 = some s'.2 := by
  induction members generalizing s with
  | nil => simp [valuesOf, Prod.ext_iff]
  | cons m members ih =>
    rw [List.foldlM_cons, takeMember_pair, valuesOf_cons, valuesOf_cons, List.forall_mem_cons]
    cases hkey : keyOf? m.1 with
    | none => simp
    | some key =>
      by_cases hfirst : key = Utf8.encode first
      · have hsecond : ¬ key = Utf8.encode second := fun h => hne (hfirst.symm.trans h)
        simp only [Option.bind_some, hfirst, hne, if_true, if_false, Option.some.injEq,
          List.foldlM_cons]
        cases fill width s.1 m.2 with
        | none => simp
        | some x => simpa using ih (x, s.2)
      · by_cases hsecond : key = Utf8.encode second
        · simp only [Option.bind_some, hsecond, hne.symm, if_true, if_false, Option.some.injEq,
            List.foldlM_cons]
          cases fill width s.2 m.2 with
          | none => simp
          | some y => simpa using ih (s.1, y)
        · simpa [hfirst, hsecond] using ih s

theorem start_pair : (pair name first second width make).start = (none, none) := rfl

/-- What the items of a list add to a pair: there are two. -/
theorem takeItems_pair (hwidth : width ≤ 64) (items : List Bytes)
    (s : Option Nat × Option Nat) :
    (pair name first second width make).takeItems (pair name first second width make).fields
        (none, none) items = some s ↔
      ∃ v w a b, items = [v, w] ∧ IsNatural width a v ∧ IsNatural width b w ∧
        s = (some a, some b) := by
  have hfields : (pair name first second width make).fields =
      [.of first Prod.fst (fun s n => (some n, s.2)) (natural width),
        .of second Prod.snd (fun s n => (s.1, some n)) (natural width)] := rfl
  have hstop : (pair name first second width make).mayStop = false := rfl
  rw [hfields]
  rcases items with _ | ⟨v, _ | ⟨w, _ | ⟨item, items⟩⟩⟩
  · simp [Record.takeItems, hstop]
  · simp [Record.takeItems, hstop]
  · simp only [Record.takeItems, Record.Field.toOption_readWhole_of, Option.bind_eq_some_iff,
      Option.map_eq_some_iff, toOption_eq_some_iff, readWhole_natural_eq_ok_iff hwidth]
    constructor
    · rintro ⟨_, ⟨a, ha, rfl⟩, _, ⟨b, hb, rfl⟩, hs⟩
      exact ⟨v, w, a, b, rfl, ha, hb, (Option.some.inj hs).symm⟩
    · rintro ⟨_, _, a, b, hsame, ha, hb, rfl⟩
      cases hsame
      exact ⟨_, ⟨a, ha, rfl⟩, _, ⟨b, hb, rfl⟩, rfl⟩
  · simp [Record.takeItems]

/-- Both numbers make the value. -/
theorem toOption_finish_pair (s : Option Nat × Option Nat) (t : τ) :
    ((pair name first second width make).finish s).toOption = some t ↔
      ∃ a b, s = (some a, some b) ∧ t = make a b := by
  obtain ⟨_ | a, _ | b⟩ := s
  case some.some =>
    refine ⟨fun h => ⟨a, b, rfl, (Option.some.inj h).symm⟩, ?_⟩
    rintro ⟨a', b', hsame, rfl⟩
    cases hsame
    rfl
  all_goals
    refine ⟨fun h => (nomatch h), ?_⟩
    rintro ⟨a', b', hsame, -⟩
    cases hsame

section Texts

variable (hwidth : width ≤ 64) (hlead : Blank lead) (hgap : Blank gap)

include hwidth hlead hgap in
/-- **Which objects are read as a pair**, -/
theorem readWhole_pair_object_iff (hne : Utf8.encode first ≠ Utf8.encode second)
    (hkeys : ∀ m ∈ members, IsKey m.1) (hvalues : ∀ m ∈ members, IsElement m.2) (t : τ) :
    readWhole (pair name first second width make).read (lead ++ (objectText gap members ++ trail)) =
        .ok t ↔
      Blank trail ∧ (∀ m ∈ members, (keyOf? m.1).isSome) ∧ ∃ a b v w, t = make a b ∧
        valuesOf first members = [v] ∧ IsNatural width a v ∧
        valuesOf second members = [w] ∧ IsNatural width b w := by
  rw [(Record.steady_read steady_pair).readWhole_eq_ok_iff hlead
    (Record.toOption_read_object steady_pair hgap hkeys hvalues trail)]
  refine and_congr_right fun _ => ?_
  simp only [Option.bind_eq_some_iff, toOption_finish_pair, foldlM_takeMember_pair hne, start_pair]
  constructor
  · rintro ⟨s, ⟨hreadable, hfirst, hsecond⟩, a, b, rfl, rfl⟩
    obtain ⟨v, hv, ha⟩ := (foldlM_fill_eq_some_some_iff hwidth).mp hfirst
    obtain ⟨w, hw, hb⟩ := (foldlM_fill_eq_some_some_iff hwidth).mp hsecond
    exact ⟨hreadable, a, b, v, w, rfl, hv, ha, hw, hb⟩
  · rintro ⟨hreadable, a, b, v, w, rfl, hv, ha, hw, hb⟩
    refine ⟨(some a, some b), ⟨hreadable, ?_, ?_⟩, a, b, rfl, rfl⟩
    · exact (foldlM_fill_eq_some_some_iff hwidth).mpr ⟨v, hv, ha⟩
    · exact (foldlM_fill_eq_some_some_iff hwidth).mpr ⟨w, hw, hb⟩

include hwidth hlead hgap in
/-- and which lists. -/
theorem readWhole_pair_list_iff (hitems : ∀ item ∈ items, IsElement item) (t : τ) :
    readWhole (pair name first second width make).read (lead ++ (listText gap items ++ trail)) =
        .ok t ↔
      Blank trail ∧ ∃ a b v w, t = make a b ∧ items = [v, w] ∧ IsNatural width a v ∧
        IsNatural width b w := by
  rw [(Record.steady_read steady_pair).readWhole_eq_ok_iff hlead
    (Record.toOption_read_list steady_pair hgap hitems trail)]
  refine and_congr_right fun _ => ?_
  simp only [Option.bind_eq_some_iff, toOption_finish_pair, start_pair, takeItems_pair hwidth]
  constructor
  · rintro ⟨s, ⟨v, w, a, b, rfl, ha, hb, rfl⟩, a', b', hsame, rfl⟩
    cases hsame
    exact ⟨a, b, v, w, rfl, rfl, ha, hb⟩
  · rintro ⟨a, b, v, w, rfl, rfl, ha, hb⟩
    exact ⟨(some a, some b), ⟨v, w, a, b, rfl, ha, hb, rfl⟩, a, b, rfl, rfl⟩

end Texts

/-- A text denotes a pair of numbers: an object that gives each of the two once, beside whatever
other keys, or a list of the two. -/
inductive IsPair (first second : String) (width a b : Nat) : Bytes → Prop
  | object {lead gap trail v w : Bytes} {members : List (Bytes × Bytes)} (hlead : Blank lead)
      (hgap : Blank gap) (htrail : Blank trail)
      (hkeys : ∀ m ∈ members, IsKey m.1 ∧ (keyOf? m.1).isSome)
      (hvalues : ∀ m ∈ members, IsElement m.2) (hfirst : valuesOf first members = [v])
      (ha : IsNatural width a v) (hsecond : valuesOf second members = [w])
      (hb : IsNatural width b w) :
      IsPair first second width a b (lead ++ (objectText gap members ++ trail))
  | list {lead gap trail v w : Bytes} (hlead : Blank lead) (hgap : Blank gap) (htrail : Blank trail)
      (ha : IsNatural width a v) (hb : IsNatural width b w) :
      IsPair first second width a b (lead ++ (listText gap [v, w] ++ trail))

theorem IsPair.fits {a b : Nat} {text : Bytes} (h : IsPair first second width a b text) :
    a < 2 ^ width ∧ b < 2 ^ width := by
  cases h with
  | object _ _ _ _ _ _ ha _ hb => exact ⟨ha.1, hb.1⟩
  | list _ _ _ ha hb => exact ⟨ha.1, hb.1⟩

/-- A text holds a number where a pair has one of its own: behind one of the keys, or in a list. -/
inductive PairHolds (first second : String) (number : Bytes) : Bytes → Prop
  | member {lead gap trail : Bytes} {members : List (Bytes × Bytes)} {m : Bytes × Bytes}
      (hlead : Blank lead) (hgap : Blank gap) (hkeys : ∀ m ∈ members, IsKey m.1)
      (hvalues : ∀ m ∈ members, IsElement m.2) (hm : m ∈ members)
      (hname : Spells m.1 first ∨ Spells m.1 second) (hnumber : Padded number m.2) :
      PairHolds first second number (lead ++ (objectText gap members ++ trail))
  | item {lead gap trail item : Bytes} {items : List Bytes} (hlead : Blank lead) (hgap : Blank gap)
      (hitems : ∀ item ∈ items, IsElement item) (hitem : item ∈ items)
      (hnumber : Padded number item) :
      PairHolds first second number (lead ++ (listText gap items ++ trail))

/-- **Which JSON texts are read as a pair.** -/
theorem readWhole_pair_eq_ok_iff (hwidth : width ≤ 64)
    (hne : Utf8.encode first ≠ Utf8.encode second) {text : Bytes} (h : IsElement text) (t : τ) :
    readWhole (pair name first second width make).read text = .ok t ↔
      ∃ a b, t = make a b ∧ IsPair first second width a b text := by
  constructor
  · intro hread
    obtain ⟨hlead, -, hvalue⟩ := h
    rename_i lead value trail
    obtain ⟨gap, items, hgap, hitems, rfl⟩ | ⟨gap, members, hgap, hkeys, hvalues, rfl⟩ |
      ⟨c, more, rfl, hspace, hlist, hobject⟩ := hvalue.bracket_or_head
    · obtain ⟨htrail, a, b, v, w, ht, rfl, ha, hb⟩ :=
        (readWhole_pair_list_iff hwidth hlead hgap hitems t).mp hread
      exact ⟨a, b, ht, .list hlead hgap htrail ha hb⟩
    · obtain ⟨htrail, hreadable, a, b, v, w, ht, hv, ha, hw, hb⟩ :=
        (readWhole_pair_object_iff hwidth hlead hgap hne hkeys hvalues t).mp hread
      exact ⟨a, b, ht, .object hlead hgap htrail (fun m hm => ⟨hkeys m hm, hreadable m hm⟩) hvalues
        hv ha hw hb⟩
    · have hnone := congrArg Except.toOption (Record.read_of_head
        (r := pair name first second width make) hspace hlist hobject (more ++ trail))
      exact nomatch (((Record.steady_read steady_pair).readWhole_eq_ok_iff (x := none) hlead hnone
        t).mp hread).2
  · rintro ⟨a, b, rfl, hpair⟩
    cases hpair with
    | object hlead hgap htrail hkeys hvalues hfirst ha hsecond hb =>
      exact (readWhole_pair_object_iff hwidth hlead hgap hne (fun m hm => (hkeys m hm).1) hvalues
        _).mpr ⟨htrail, fun m hm => (hkeys m hm).2, a, b, _, _, rfl, hfirst, ha, hsecond, hb⟩
    | @list lead gap trail v w hlead hgap htrail ha hb =>
      have hitems : ∀ item ∈ [v, w], IsElement item := by
        simpa using ⟨ha.isElement, hb.isElement⟩
      exact (readWhole_pair_list_iff hwidth hlead hgap hitems _).mpr
        ⟨htrail, a, b, v, w, rfl, rfl, ha, hb⟩

/-- A number that does not fit is refused where a pair has one of its own. -/
theorem exists_error_of_pairHolds (hwidth : width ≤ 64)
    (hne : Utf8.encode first ≠ Utf8.encode second) {number text : Bytes}
    (h : IsUnfit width number) (htext : PairHolds first second number text) :
    ∃ fault, readWhole (pair name first second width make).read text = .error fault := by
  cases hread : readWhole (pair name first second width make).read text with
  | error fault => exact ⟨fault, rfl⟩
  | ok t =>
    exfalso
    cases htext with
    | member hlead hgap hkeys hvalues hm hname hnumber =>
      obtain ⟨-, -, a, b, v, w, -, hv, ha, hw, hb⟩ :=
        (readWhole_pair_object_iff hwidth hlead hgap hne hkeys hvalues t).mp hread
      rcases hname with hname | hname
      · have hmem := mem_valuesOf hm hname
        rw [hv, List.mem_singleton] at hmem
        exact h.not_isNatural hnumber (hmem ▸ ha)
      · have hmem := mem_valuesOf hm hname
        rw [hw, List.mem_singleton] at hmem
        exact h.not_isNatural hnumber (hmem ▸ hb)
    | item hlead hgap hitems hitem hnumber =>
      obtain ⟨-, a, b, v, w, -, rfl, ha, hb⟩ :=
        (readWhole_pair_list_iff hwidth hlead hgap hitems t).mp hread
      rcases List.mem_pair.mp hitem with rfl | rfl
      · exact h.not_isNatural hnumber ha
      · exact h.not_isNatural hnumber hb

/-- **Pairs are read back.** -/
theorem reads_writePair (hwidth : width ≤ 64) (hfirst : Utf8.isValid (Utf8.encode first) = true)
    (hsecond : Utf8.isValid (Utf8.encode second) = true)
    (hne : Utf8.encode first ≠ Utf8.encode second) {a b : Nat} (ha : a < 2 ^ width)
    (hb : b < 2 ^ width) :
    Reads (pair name first second width make).read (writePair first second a b) (make a b) := by
  have hlater : (pair name first second width make).Gathers (some a, none)
      [(second, writeNatural b)] (some a, some b) :=
    .cons hsecond (by rw [find?_pair, if_neg hne.symm, if_pos rfl])
      (Record.Field.sets_of rfl (reads_natural hwidth hb)) (.nil _)
  have hall : (pair name first second width make).Gathers (none, none)
      [(first, writeNatural a), (second, writeNatural b)] (some a, some b) :=
    .cons hfirst (by rw [find?_pair, if_pos rfl])
      (Record.Field.sets_of rfl (reads_natural hwidth ha)) hlater
  exact Record.reads_object (by simp) hall rfl

end Pairs

/-! ## §3 Loop modes -/

section LoopModes

open LoopMode

variable {text lead gap trail : Bytes} {members : List (Bytes × Bytes)}

/-- A value that says how often an animation plays, behind the name that asks for it. -/
inductive IsContent : Name → LoopMode → Bytes → Prop
  | infinite {text : Bytes} (h : Padded (0x6E :: ull) text) : IsContent .infinite .infinite text
  | finite {text : Bytes} {times : UInt16} (h : IsNatural 16 times.toNat text) :
      IsContent .finite (.finite times) text

/-- How a name is written. -/
def spelling : Name → String
  | .infinite => "infinite"
  | .finite => "finite"

/-- A text denotes a loop mode: the name of the one without end, or an object with a name and its
value. -/
inductive IsMode : LoopMode → Bytes → Prop
  | name {text : Bytes} (hkey : IsKey text) (hname : Spells text (spelling .infinite)) :
      IsMode .infinite text
  | member {lead gap trail key value : Bytes} {name : Name} {mode : LoopMode} (hlead : Blank lead)
      (hgap : Blank gap) (htrail : Blank trail) (hkey : IsKey key)
      (hname : Spells key (spelling name)) (hvalue : IsContent name mode value) :
      IsMode mode (lead ++ (objectText gap [(key, value)] ++ trail))

/-- A text holds a number where a loop mode has the number of plays. -/
inductive ModeHolds (number : Bytes) : Bytes → Prop
  | member {lead gap trail : Bytes} {members : List (Bytes × Bytes)} {m : Bytes × Bytes}
      (hlead : Blank lead) (hgap : Blank gap) (hkeys : ∀ m ∈ members, IsKey m.1)
      (hvalues : ∀ m ∈ members, IsElement m.2) (hm : m ∈ members)
      (hname : Spells m.1 (spelling .finite)) (hnumber : Padded number m.2) :
      ModeHolds number (lead ++ (objectText gap members ++ trail))

theorem readIdent_eq_ok_iff {word bytes rest : Bytes} :
    readIdent word bytes = .ok rest ↔ bytes = word ++ rest := by
  induction word generalizing bytes with
  | nil =>
    rw [readIdent, List.nil_append]
    exact ⟨fun h => Except.ok.inj h, congrArg _⟩
  | cons w word ih =>
    cases bytes with
    | nil => simp [readIdent]
    | cons b bytes =>
      rw [readIdent, List.cons_append]
      by_cases hb : b = w
      · rw [if_pos hb, ih, hb, List.cons_inj_right]
      · rw [if_neg hb]
        exact ⟨fun h => (nomatch h), fun h => absurd (List.cons.inj h).1 hb⟩

/-- **Only the one name is read as `null`.** -/
theorem readWhole_unit_eq_ok_iff : readWhole unit text = .ok () ↔ Padded (0x6E :: ull) text := by
  rw [← toOption_eq_some_iff, toOption_readWhole, Option.bind_eq_some_iff]
  constructor
  · rintro ⟨⟨⟨⟩, rest⟩, hread, hend⟩
    have hblank : Blank rest := by
      by_contra hmore
      rw [if_neg (mt skipSpace_eq_nil_iff.mp hmore)] at hend
      cases hend
    obtain ⟨more, hskip, hmore⟩ : ∃ more, skipSpace text = 0x6E :: more ∧ more = ull ++ rest := by
      rw [toOption_eq_some_iff, unit] at hread
      split at hread
      · cases hread
      · rename_i b more hskip
        split at hread
        · rename_i hb
          refine ⟨more, hb ▸ hskip, readIdent_eq_ok_iff.mp ?_⟩
          cases hident : readIdent ull more with
          | error fault =>
            rw [hident] at hread
            cases hread
          | ok after =>
            rw [hident] at hread
            cases hread
            rfl
        · cases hread
    refine ⟨text.takeWhile isSpace, rest, fun b hb => List.mem_takeWhile_imp hb, hblank, ?_⟩
    rw [List.cons_append, ← hmore, ← hskip]
    exact List.takeWhile_append_dropWhile.symm
  · rintro ⟨lead, trail, hlead, htrail, rfl⟩
    refine ⟨((), trail), ?_, if_pos (skipSpace_eq_nil_iff.mpr htrail)⟩
    rw [steady_unit.skips hlead]
    rfl

theorem IsContent.isElement {name : Name} {mode : LoopMode} (h : IsContent name mode text) :
    IsElement text := by
  cases h with
  | infinite hnull =>
    obtain ⟨lead, trail, hlead, htrail, rfl⟩ := hnull
    exact .mk hlead htrail .null
  | finite htimes => exact htimes.isElement

theorem readWhole_readContent_eq_ok_iff (name : Name) (mode : LoopMode) :
    readWhole (readContent name) text = .ok mode ↔ IsContent name mode text := by
  rw [← toOption_eq_some_iff]
  cases name with
  | infinite =>
    have hread : (readWhole (readContent .infinite) text).toOption =
        (readWhole unit text).toOption.map fun _ => LoopMode.infinite :=
      toOption_readWhole_map unit (fun _ => LoopMode.infinite) text
    rw [hread, Option.map_eq_some_iff]
    constructor
    · rintro ⟨⟨⟩, hunit, rfl⟩
      exact .infinite (readWhole_unit_eq_ok_iff.mp (toOption_eq_some_iff.mp hunit))
    · rintro ⟨h⟩
      exact ⟨(), toOption_eq_some_iff.mpr (readWhole_unit_eq_ok_iff.mpr h), rfl⟩
  | finite =>
    have hread : (readWhole (readContent .finite) text).toOption =
        (readWhole (natural 16) text).toOption.map fun n => LoopMode.finite (UInt16.ofNat n) :=
      toOption_readWhole_map (natural 16) (fun n => LoopMode.finite (UInt16.ofNat n)) text
    rw [hread, Option.map_eq_some_iff]
    constructor
    · rintro ⟨n, hn, rfl⟩
      have hn := (readWhole_natural_eq_ok_iff (by decide)).mp (toOption_eq_some_iff.mp hn)
      refine .finite ?_
      rwa [UInt16.toNat_ofNat_of_lt' hn.1]
    · rintro (_ | ⟨h⟩)
      rename_i times
      refine ⟨times.toNat, toOption_eq_some_iff.mpr ((readWhole_natural_eq_ok_iff (by decide)).mpr h),
        ?_⟩
      rw [UInt16.ofNat_toNat]

theorem nameOf_eq_ok_iff (octets : Bytes) (name : Name) :
    nameOf octets = .ok name ↔ octets = Utf8.encode (spelling name) := by
  have hne : Utf8.encode "finite" ≠ Utf8.encode "infinite" := by decide
  rw [nameOf]
  by_cases hinfinite : octets = Utf8.encode "infinite"
  · rw [if_pos hinfinite, hinfinite]
    cases name with
    | infinite => simp [spelling]
    | finite => simp [spelling, hne.symm]
  · rw [if_neg hinfinite]
    by_cases hfinite : octets = Utf8.encode "finite"
    · rw [if_pos hfinite, hfinite]
      cases name with
      | infinite => simp [spelling, hne]
      | finite => simp [spelling]
    · rw [if_neg hfinite]
      cases name with
      | infinite => simp [spelling, hinfinite]
      | finite => simp [spelling, hfinite]

/-- **Which objects are a loop mode**: those with one member, a name and its value. -/
theorem takeMode_eq_some_iff (mode : LoopMode) :
    takeMode members = some mode ↔ ∃ key value name, members = [(key, value)] ∧
      Spells key (spelling name) ∧ IsContent name mode value := by
  cases members with
  | nil => simp [takeMode]
  | cons m later =>
    simp only [takeMode, Option.bind_eq_some_iff, toOption_readWhole_string, toOption_eq_some_iff,
      nameOf_eq_ok_iff, readWhole_readContent_eq_ok_iff]
    constructor
    · rintro ⟨octets, hkey, name, rfl, mode', hvalue, hlater⟩
      split at hlater
      · rename_i hnil
        cases hlater
        exact ⟨m.1, m.2, name, by rw [hnil], keyOf?_eq_some_iff.mp hkey, hvalue⟩
      · cases hlater
    · rintro ⟨key, value, name, hmembers, hkey, hvalue⟩
      cases hmembers
      exact ⟨_, keyOf?_eq_some_iff.mpr hkey, name, rfl, mode, hvalue, rfl⟩

theorem readWhole_loopMode_object_iff (hlead : Blank lead) (hgap : Blank gap)
    (hkeys : ∀ m ∈ members, IsKey m.1) (hvalues : ∀ m ∈ members, IsElement m.2) (mode : LoopMode) :
    readWhole LoopMode.read (lead ++ (objectText gap members ++ trail)) = .ok mode ↔
      Blank trail ∧ ∃ key value name, members = [(key, value)] ∧ Spells key (spelling name) ∧
        IsContent name mode value := by
  rw [steady_loopMode.readWhole_eq_ok_iff hlead
    (toOption_read_loopMode_object hgap hkeys hvalues trail), takeMode_eq_some_iff]

/-- A loop mode that is a string is the one without end. -/
theorem readWhole_loopMode_name_iff (hkey : IsKey text) (mode : LoopMode) :
    readWhole LoopMode.read text = .ok mode ↔
      Spells text (spelling .infinite) ∧ mode = .infinite := by
  obtain ⟨hlead, htrail, hinside⟩ := hkey
  rename_i lead inside trail
  obtain ⟨r, hr⟩ := exists_readStr hinside
  have hstring := congrArg Except.toOption (@string_stringText "" inside r hr trail)
  rw [toOption_map] at hstring
  rw [Spells, steady_loopMode.readWhole_eq_ok_iff hlead (toOption_read_loopMode_string hr trail),
    (steady_string "").readWhole_eq_ok_iff hlead hstring, and_assoc]
  refine and_congr_right fun _ => ?_
  simp only [Option.bind_eq_some_iff, toOption_eq_some_iff, nameOf_eq_ok_iff]
  constructor
  · rintro ⟨content, hcontent, name, rfl, hmode⟩
    cases name with
    | infinite => exact ⟨hcontent, (Option.some.inj hmode).symm⟩
    | finite => cases hmode
  · rintro ⟨hcontent, rfl⟩
    exact ⟨_, hcontent, .infinite, rfl, rfl⟩

/-- **Which JSON texts are read as a loop mode.** -/
theorem readWhole_loopMode_eq_ok_iff (h : IsElement text) (mode : LoopMode) :
    readWhole LoopMode.read text = .ok mode ↔ IsMode mode text := by
  constructor
  · intro hread
    obtain ⟨hlead, htrail, hvalue⟩ := h
    rename_i lead value trail
    have hrefused {b : UInt8} {more : Bytes} (hvalue : value = b :: more)
        (hspace : isSpace b = false) (hbrace : b ≠ 0x7B) (hquote : b ≠ quoteOctet) : False := by
      have hnone := congrArg Except.toOption
        (read_loopMode_of_head hspace hbrace hquote (more ++ trail))
      rw [← List.cons_append, ← hvalue] at hnone
      exact nomatch ((steady_loopMode.readWhole_eq_ok_iff (x := none) hlead hnone mode).mp hread).2
    cases hvalue with
    | string hinside =>
      have hkey := IsKey.mk hlead htrail hinside
      obtain ⟨hname, rfl⟩ := (readWhole_loopMode_name_iff hkey mode).mp hread
      exact .name hkey hname
    | object hgap hkeys hvalues =>
      obtain ⟨htrail, key, value, name, rfl, hname, hcontent⟩ :=
        (readWhole_loopMode_object_iff hlead hgap hkeys hvalues mode).mp hread
      exact .member hlead hgap htrail (hkeys _ List.mem_cons_self) hname hcontent
    | positive h =>
      obtain ⟨b, more, hvalue, hb⟩ := h.exists_head
      exact (hrefused hvalue (isSpace_of_isDigit hb) (ne_of_isDigit hb (by decide))
        (ne_of_isDigit hb (by decide))).elim
    | _ => exact (hrefused rfl (by decide) (by decide) (by decide)).elim
  · intro hmode
    cases hmode with
    | name hkey hname => exact (readWhole_loopMode_name_iff hkey _).mpr ⟨hname, rfl⟩
    | @member lead gap trail key value name _ hlead hgap htrail hkey hname hvalue =>
      refine (readWhole_loopMode_object_iff hlead hgap ?_ ?_ mode).mpr
        ⟨htrail, key, value, name, rfl, hname, hvalue⟩
      · simpa using hkey
      · simpa using hvalue.isElement

/-- A number that does not fit is refused where a loop mode has the number of plays. -/
theorem exists_error_of_modeHolds {number : Bytes} (h : IsUnfit 16 number)
    (htext : ModeHolds number text) : ∃ fault, readWhole LoopMode.read text = .error fault := by
  cases hread : readWhole LoopMode.read text with
  | error fault => exact ⟨fault, rfl⟩
  | ok mode =>
    exfalso
    obtain ⟨hlead, hgap, hkeys, hvalues, hm, hfinite, hnumber⟩ := htext
    obtain ⟨-, key, value, name, rfl, hname, hcontent⟩ :=
      (readWhole_loopMode_object_iff hlead hgap hkeys hvalues mode).mp hread
    obtain rfl := List.mem_singleton.mp hm
    have hsame : Utf8.encode (spelling .finite) = Utf8.encode (spelling name) :=
      Except.ok.inj (hfinite.symm.trans hname)
    cases hcontent with
    | infinite => exact absurd hsame (by decide)
    | finite htimes => exact h.not_isNatural hnumber htimes

end LoopModes

/-! ## §4 Canonical texts -/

section Canonical

variable (α : Type) [Form α]

/-- The text that is written for the value of a text. -/
def reprint (text : Bytes) : Except Fault Bytes := (parse text : Except Fault α).map print

/-- Values and their texts belong together: a value is read back, and of the texts of a value one is
canonical. Which texts denote a value is told apart from the reader, and a text that holds a number
of the wrong size, sign or kind denotes none. -/
structure Faithful (width : Nat) (Denotes : α → Bytes → Prop) (Holds : Bytes → Bytes → Prop) :
    Prop where
  reads_back : ∀ a : α, parse (print a) = .ok a
  canonical : ∀ text c, reprint α text = .ok c →
    (parse c : Except Fault α) = parse text ∧ reprint α c = .ok c
  unique : ∀ text text' c c', reprint α text = .ok c → reprint α text' = .ok c' →
    (c = c' ↔ (parse text : Except Fault α) = parse text')
  accepts : ∀ text, IsElement text → ∀ a : α, parse text = .ok a ↔ Denotes a text
  refuses : ∀ number text, IsUnfit width number → Holds number text →
    ∃ fault, (parse text : Except Fault α) = .error fault

variable {α} {width : Nat} {Denotes : α → Bytes → Prop} {Holds : Bytes → Bytes → Prop}

theorem reprint_eq_ok_iff {text c : Bytes} :
    reprint α text = .ok c ↔ ∃ a : α, parse text = .ok a ∧ print a = c := by
  rw [reprint]
  cases (parse text : Except Fault α) with
  | error fault => simp [Except.map]
  | ok a => simp [Except.map]

/-- **Where values are read back, what is written is canonical.** -/
theorem Faithful.of_reads_back (h : ∀ a : α, parse (print a) = .ok a)
    (haccepts : ∀ text, IsElement text → ∀ a : α, parse text = .ok a ↔ Denotes a text)
    (hrefuses : ∀ number text, IsUnfit width number → Holds number text →
      ∃ fault, (parse text : Except Fault α) = .error fault) :
    Faithful α width Denotes Holds where
  reads_back := h
  canonical text c hc := by
    obtain ⟨a, ha, rfl⟩ := reprint_eq_ok_iff.mp hc
    exact ⟨(h a).trans ha.symm, reprint_eq_ok_iff.mpr ⟨a, h a, rfl⟩⟩
  unique text text' c c' hc hc' := by
    obtain ⟨a, ha, rfl⟩ := reprint_eq_ok_iff.mp hc
    obtain ⟨a', ha', rfl⟩ := reprint_eq_ok_iff.mp hc'
    constructor
    · intro hsame
      rw [ha, ha', ← h a, hsame, h a']
    · intro hsame
      rw [ha, ha'] at hsame
      rw [Except.ok.inj hsame]
  accepts := haccepts
  refuses := hrefuses

/-- A value is two words of a width, and is made of them again. -/
structure IsWords (width : Nat) (low high : α → Nat) (make : Nat → Nat → α) : Prop where
  fits : ∀ a, low a < 2 ^ width ∧ high a < 2 ^ width
  make_eq : ∀ a, make (low a) (high a) = a
  words_make : ∀ m n, m < 2 ^ width → n < 2 ^ width → low (make m n) = m ∧ high (make m n) = n

/-- **Values of two words** under different keys. -/
theorem IsWords.faithful {low high : α → Nat} {make : Nat → Nat → α} {name first second : String}
    (h : IsWords width low high make) (hwidth : width ≤ 64)
    (hread : (Form.read : Reader α) = (pair name first second width make).read)
    (hwrite : ∀ a : α, Form.write a = writePair first second (low a) (high a))
    (hfirst : Utf8.isValid (Utf8.encode first) = true)
    (hsecond : Utf8.isValid (Utf8.encode second) = true)
    (hne : Utf8.encode first ≠ Utf8.encode second) :
    Faithful α width (fun a => IsPair first second width (low a) (high a))
      (PairHolds first second) := by
  have hparse (text : Bytes) :
      parse text = readWhole (pair name first second width make).read text := by
    rw [parse, hread]
  refine .of_reads_back (fun a => ?_) (fun text htext a => ?_) fun number text hnumber htext => ?_
  · obtain ⟨hlow, hhigh⟩ := h.fits a
    have hback : readWhole (pair name first second width make).read
        (writePair first second (low a) (high a)) = .ok (make (low a) (high a)) :=
      (reads_writePair hwidth hfirst hsecond hne hlow hhigh).whole
    rw [h.make_eq] at hback
    rwa [hparse, print, hwrite]
  · rw [hparse, readWhole_pair_eq_ok_iff hwidth hne htext]
    constructor
    · rintro ⟨m, n, rfl, hpair⟩
      obtain ⟨hlow, hhigh⟩ := h.words_make m n hpair.fits.1 hpair.fits.2
      rwa [hlow, hhigh]
    · intro hpair
      exact ⟨low a, high a, (h.make_eq a).symm, hpair⟩
  · rw [hparse]
    exact exists_error_of_pairHolds hwidth hne hnumber htext

theorem faithful_frameIndex :
    Faithful FrameIndex 64 (fun i => IsNatural 64 i.toNat) Padded := by
  have hparse (text : Bytes) : (parse text : Except Fault FrameIndex).toOption =
      (readWhole (natural 64) text).toOption.map UInt64.ofNat :=
    toOption_readWhole_map (natural 64) UInt64.ofNat text
  have haccepts (text : Bytes) (i : FrameIndex) :
      parse text = .ok i ↔ IsNatural 64 i.toNat text := by
    rw [← toOption_eq_some_iff, hparse, Option.map_eq_some_iff]
    constructor
    · rintro ⟨n, hn, rfl⟩
      have hn := (readWhole_natural_eq_ok_iff (by decide)).mp (toOption_eq_some_iff.mp hn)
      rwa [UInt64.toNat_ofNat_of_lt' hn.1]
    · intro h
      refine ⟨i.toNat, toOption_eq_some_iff.mpr ((readWhole_natural_eq_ok_iff (by decide)).mpr h), ?_⟩
      exact UInt64.ofNat_toNat
  refine .of_reads_back (fun i => (haccepts _ i).mpr ⟨i.toNat_lt, [], [], blank_nil, blank_nil, ?_⟩)
    (fun text _ i => haccepts text i) fun number text hnumber htext => ?_
  · rw [List.nil_append, List.append_nil]
    rfl
  · cases hread : (parse text : Except Fault FrameIndex) with
    | error fault => exact ⟨fault, rfl⟩
    | ok i => exact absurd ((haccepts text i).mp hread) (hnumber.not_isNatural htext)

/-- **Every small value is read back from its text, and of its texts one is canonical.** Which texts
denote a value is said by the texts alone: keys may come in any order, with blanks and beside other
keys, and a list may stand for an object. A number that does not fit its word, is negative or has a
fraction or an exponent is refused wherever a value has a number of its own. -/
theorem small_values_are_faithful :
    Faithful FrameIndex 64 (fun i => IsNatural 64 i.toNat) Padded ∧
    Faithful FrameRange 64 (fun r => IsPair "start" "end" 64 r.start.toNat r.stop.toNat)
      (PairHolds "start" "end") ∧
    Faithful FrameRate 32 (fun r => IsPair "num" "den" 32 r.num.toNat r.den.toNat)
      (PairHolds "num" "den") ∧
    Faithful FrameDelay 16 (fun d => IsPair "num" "den" 16 d.num.toNat d.den.toNat)
      (PairHolds "num" "den") ∧
    Faithful Canvas 32 (fun c => IsPair "width" "height" 32 c.width.toNat c.height.toNat)
      (PairHolds "width" "height") ∧
    Faithful LoopMode 16 IsMode ModeHolds := by
  have hrange : IsWords 64 (fun r : FrameRange => r.start.toNat) (fun r => r.stop.toNat)
      fun a b => ⟨UInt64.ofNat a, UInt64.ofNat b⟩ :=
    ⟨fun r => ⟨r.start.toNat_lt, r.stop.toNat_lt⟩, fun r => by simp, fun m n hm hn =>
      ⟨UInt64.toNat_ofNat_of_lt' hm, UInt64.toNat_ofNat_of_lt' hn⟩⟩
  have hrate : IsWords 32 (fun r : FrameRate => r.num.toNat) (fun r => r.den.toNat)
      fun a b => ⟨UInt32.ofNat a, UInt32.ofNat b⟩ :=
    ⟨fun r => ⟨r.num.toNat_lt, r.den.toNat_lt⟩, fun r => by simp, fun m n hm hn =>
      ⟨UInt32.toNat_ofNat_of_lt' hm, UInt32.toNat_ofNat_of_lt' hn⟩⟩
  have hdelay : IsWords 16 (fun d : FrameDelay => d.num.toNat) (fun d => d.den.toNat)
      fun a b => ⟨UInt16.ofNat a, UInt16.ofNat b⟩ :=
    ⟨fun d => ⟨d.num.toNat_lt, d.den.toNat_lt⟩, fun d => by simp, fun m n hm hn =>
      ⟨UInt16.toNat_ofNat_of_lt' hm, UInt16.toNat_ofNat_of_lt' hn⟩⟩
  have hcanvas : IsWords 32 (fun c : Canvas => c.width.toNat) (fun c => c.height.toNat)
      fun a b => ⟨UInt32.ofNat a, UInt32.ofNat b⟩ :=
    ⟨fun c => ⟨c.width.toNat_lt, c.height.toNat_lt⟩, fun c => by simp, fun m n hm hn =>
      ⟨UInt32.toNat_ofNat_of_lt' hm, UInt32.toNat_ofNat_of_lt' hn⟩⟩
  refine ⟨faithful_frameIndex, ?range, ?rate, ?delay, ?canvas, ?loopMode⟩
  case range =>
    exact hrange.faithful (by decide) rfl (fun _ => rfl) (by decide) (by decide) (by decide)
  case rate =>
    exact hrate.faithful (by decide) rfl (fun _ => rfl) (by decide) (by decide) (by decide)
  case delay =>
    exact hdelay.faithful (by decide) rfl (fun _ => rfl) (by decide) (by decide) (by decide)
  case canvas =>
    exact hcanvas.faithful (by decide) rfl (fun _ => rfl) (by decide) (by decide) (by decide)
  case loopMode =>
    exact .of_reads_back (fun mode => (reads_loopMode mode).whole)
      (fun text htext mode => readWhole_loopMode_eq_ok_iff htext mode)
      fun number text hnumber htext => exists_error_of_modeHolds hnumber htext

/-- Keys that do not matter, another order, blanks, and a list: one canonical text. -/
example :
    reprint FrameRange (Utf8.encode " \x7b\"x\":[1.5,null], \"end\" :7,\"start\":3\x7d") =
        .ok (Utf8.encode "\x7b\"start\":3,\"end\":7\x7d") ∧
      reprint FrameRange (Utf8.encode "[3, 7]") =
        .ok (Utf8.encode "\x7b\"start\":3,\"end\":7\x7d") :=
  ⟨rfl, rfl⟩

end Canonical

end HueCycle.Json
