/-
HueCycle.Proofs.Json.Grammar — which octets are a JSON value.

The grammar is stated without the readers. Blanks stand around the values of
a list and around the keys and values of an object (`IsElement`, `IsKey`); a
value itself begins and ends with an octet of its own (`IsValue`). Strings may
hold any octets that need no escape, be they UTF-8 or not, so a reader that
asks for more refuses some values.
-/
import Mathlib
import HueCycle.Proofs.Json.Records

namespace HueCycle.Json

/-! ## §1 Blanks -/

/-- Nothing but blanks. -/
def Blank (bytes : Bytes) : Prop := ∀ b ∈ bytes, isSpace b = true

instance (bytes : Bytes) : Decidable (Blank bytes) :=
  inferInstanceAs (Decidable (∀ b ∈ bytes, isSpace b = true))

theorem blank_nil : Blank [] := by simp [Blank]

theorem skipSpace_blank_append {lead : Bytes} (h : Blank lead) (bytes : Bytes) :
    skipSpace (lead ++ bytes) = skipSpace bytes :=
  List.dropWhile_append_of_pos h

/-- Exactly blanks are skipped to the end. -/
theorem skipSpace_eq_nil_iff {bytes : Bytes} : skipSpace bytes = [] ↔ Blank bytes :=
  List.dropWhile_eq_nil_iff

/-- A token is what blanks in front of it lead to. -/
theorem skipSpace_blank_cons {lead : Bytes} (h : Blank lead) {b : UInt8} (hb : isSpace b = false)
    (bytes : Bytes) : skipSpace (lead ++ b :: bytes) = b :: bytes := by
  rw [skipSpace_blank_append h, skipSpace_cons hb]

theorem colon_blank_cons {trail : Bytes} (h : Blank trail) (rest : Bytes) :
    colon (trail ++ 0x3A :: rest) = .ok rest := by
  rw [colon, skipSpace_blank_cons h (by decide)]
  rfl

/-- A blank is no part of a number. -/
theorem delimited_of_isSpace {b : UInt8} (h : isSpace b = true) (bytes : Bytes) :
    Delimited (b :: bytes) := by
  intro c hc
  obtain rfl := Option.some.inj hc
  simp only [isSpace, Bool.or_eq_true, decide_eq_true_eq] at h
  rcases h with ((rfl | rfl) | rfl) | rfl <;> decide

theorem Blank.delimited_append {trail rest : Bytes} (h : Blank trail) (hrest : Delimited rest) :
    Delimited (trail ++ rest) := by
  cases trail with
  | nil => exact hrest
  | cons b trail => exact delimited_of_isSpace (h b List.mem_cons_self) _

theorem delimited_nil : Delimited [] := by simp [Delimited]

theorem delimited_bracket (rest : Bytes) : Delimited (0x5D :: rest) := by
  intro b hb
  obtain rfl := Option.some.inj hb
  decide

/-! ## §2 Numbers and strings -/

/-- One digit or more. -/
def Digits (bytes : Bytes) : Prop := bytes ≠ [] ∧ ∀ b ∈ bytes, isDigit b = true

/-- The integer part of a number: no zero in front of other digits. -/
def IsWhole (bytes : Bytes) : Prop := Digits bytes ∧ (bytes.head? = some 0x30 → bytes = [0x30])

inductive IsFraction : Bytes → Prop
  | absent : IsFraction []
  | present {digits : Bytes} (h : Digits digits) : IsFraction (0x2E :: digits)

inductive IsExponent : Bytes → Prop
  | absent : IsExponent []
  | present {e : UInt8} {sign digits : Bytes} (he : e = 0x65 ∨ e = 0x45)
      (hsign : sign = [] ∨ sign = [0x2B] ∨ sign = [0x2D]) (h : Digits digits) :
      IsExponent (e :: (sign ++ digits))

/-- A number without its sign. -/
inductive IsMagnitude : Bytes → Prop
  | mk {whole fraction exponent : Bytes} (hwhole : IsWhole whole) (hfraction : IsFraction fraction)
      (hexponent : IsExponent exponent) : IsMagnitude (whole ++ (fraction ++ exponent))

/-- What may stand between the quotes of a string. -/
inductive IsInside : Bytes → Prop
  | nil : IsInside []
  | plain {b : UInt8} {rest : Bytes} (hquote : b ≠ quoteOctet) (hbackslash : b ≠ backslash)
      (hcontrol : ¬ b < 0x20) (h : IsInside rest) : IsInside (b :: rest)
  | letter {c : UInt8} {rest : Bytes} (hc : (letterEscape? c).isSome) (h : IsInside rest) :
      IsInside (backslash :: c :: rest)
  | hex {a b c d : UInt8} {rest : Bytes} (ha : (hexValue? a).isSome) (hb : (hexValue? b).isSome)
      (hc : (hexValue? c).isSome) (hd : (hexValue? d).isSome) (h : IsInside rest) :
      IsInside (backslash :: 0x75 :: a :: b :: c :: d :: rest)

instance (bytes : Bytes) : Decidable (Digits bytes) :=
  inferInstanceAs (Decidable (bytes ≠ [] ∧ ∀ b ∈ bytes, isDigit b = true))

instance (bytes : Bytes) : Decidable (IsWhole bytes) :=
  inferInstanceAs (Decidable (Digits bytes ∧ (bytes.head? = some 0x30 → bytes = [0x30])))

/-- A whole number is a number. -/
theorem IsWhole.isMagnitude {bytes : Bytes} (h : IsWhole bytes) : IsMagnitude bytes := by
  have hmagnitude := IsMagnitude.mk h .absent .absent
  rwa [List.append_nil, List.append_nil] at hmagnitude

/-- Characters that need no escape. -/
theorem isInside_of_plain {inside : Bytes}
    (h : ∀ b ∈ inside, b ≠ quoteOctet ∧ b ≠ backslash ∧ ¬ b < 0x20) : IsInside inside := by
  induction inside with
  | nil => exact .nil
  | cons b inside ih =>
    obtain ⟨hquote, hbackslash, hcontrol⟩ := h b List.mem_cons_self
    exact .plain hquote hbackslash hcontrol (ih fun c hc => h c (List.mem_cons_of_mem _ hc))

/-! ## §3 Values -/

/-- A string with its quotes. -/
def stringText (inside : Bytes) : Bytes := quoteOctet :: (inside ++ [quoteOctet])

/-- A list of texts. -/
def listText (gap : Bytes) (items : List Bytes) : Bytes :=
  0x5B :: (gap ++ List.intercalate [0x2C] items ++ [0x5D])

/-- A key and its value. -/
def pairText (m : Bytes × Bytes) : Bytes := m.1 ++ 0x3A :: m.2

/-- An object of keys and values. -/
def objectText (gap : Bytes) (members : List (Bytes × Bytes)) : Bytes :=
  0x7B :: (gap ++ List.intercalate [0x2C] (members.map pairText) ++ [0x7D])

/-- A key with the blanks around it. -/
inductive IsKey : Bytes → Prop
  | mk {lead inside trail : Bytes} (hlead : Blank lead) (htrail : Blank trail)
      (h : IsInside inside) : IsKey (lead ++ (stringText inside ++ trail))

mutual

/-- A JSON value. -/
inductive IsValue : Bytes → Prop
  | null : IsValue (0x6E :: ull)
  | yes : IsValue (0x74 :: rue)
  | no : IsValue (0x66 :: alse)
  | positive {text : Bytes} (h : IsMagnitude text) : IsValue text
  | negative {text : Bytes} (h : IsMagnitude text) : IsValue (0x2D :: text)
  | string {inside : Bytes} (h : IsInside inside) : IsValue (stringText inside)
  | list {gap : Bytes} {items : List Bytes} (hgap : Blank gap)
      (hitems : ∀ item ∈ items, IsElement item) : IsValue (listText gap items)
  | object {gap : Bytes} {members : List (Bytes × Bytes)} (hgap : Blank gap)
      (hkeys : ∀ m ∈ members, IsKey m.1) (hvalues : ∀ m ∈ members, IsElement m.2) :
      IsValue (objectText gap members)

/-- A JSON value with the blanks around it. -/
inductive IsElement : Bytes → Prop
  | mk {lead value trail : Bytes} (hlead : Blank lead) (htrail : Blank trail)
      (h : IsValue value) : IsElement (lead ++ (value ++ trail))

end

/-- A key is a string, and so a value. -/
theorem IsKey.isElement {key : Bytes} (h : IsKey key) : IsElement key := by
  obtain ⟨hlead, htrail, hinside⟩ := h
  exact .mk hlead htrail (.string hinside)

/-! ## §4 First octets -/

theorem IsMagnitude.exists_head {text : Bytes} (h : IsMagnitude text) :
    ∃ b rest, text = b :: rest ∧ isDigit b = true := by
  obtain ⟨⟨⟨hne, hdigits⟩, -⟩, -, -⟩ := h
  rename_i whole fraction exponent
  obtain ⟨b, rest, rfl⟩ := List.exists_cons_of_ne_nil hne
  exact ⟨b, rest ++ (fraction ++ exponent), rfl, hdigits b List.mem_cons_self⟩

/-- A digit is not a blank. -/
theorem isSpace_of_isDigit {b : UInt8} (h : isDigit b = true) : isSpace b = false := by
  rw [← Bool.not_eq_true]
  intro hspace
  rw [((delimited_of_isSpace hspace []) b rfl).1] at h
  cases h

theorem ne_of_isDigit {b c : UInt8} (hb : isDigit b = true) (hc : isDigit c = false) : b ≠ c := by
  rintro rfl
  exact absurd hb (by simp [hc])

/-- A value does not begin with a blank. -/
theorem IsValue.exists_head {value : Bytes} (h : IsValue value) :
    ∃ b rest, value = b :: rest ∧ isSpace b = false ∧ b ≠ 0x5D := by
  cases h with
  | positive h =>
    obtain ⟨b, rest, rfl, hb⟩ := h.exists_head
    exact ⟨b, rest, rfl, isSpace_of_isDigit hb, ne_of_isDigit hb (by decide)⟩
  | _ => exact ⟨_, _, rfl, by decide, by decide⟩

/-- The first octet of a value that is neither a list nor an object tells it from both. -/
theorem IsValue.bracket_or_head {value : Bytes} (h : IsValue value) :
    (∃ gap items, Blank gap ∧ (∀ item ∈ items, IsElement item) ∧ value = listText gap items) ∨
      (∃ gap members, Blank gap ∧ (∀ m ∈ members, IsKey m.1) ∧ (∀ m ∈ members, IsElement m.2) ∧
        value = objectText gap members) ∨
      ∃ b more, value = b :: more ∧ isSpace b = false ∧ b ≠ 0x5B ∧ b ≠ 0x7B := by
  cases h with
  | list hgap hitems => exact .inl ⟨_, _, hgap, hitems, rfl⟩
  | object hgap hkeys hvalues => exact .inr (.inl ⟨_, _, hgap, hkeys, hvalues, rfl⟩)
  | positive h =>
    obtain ⟨b, more, rfl, hb⟩ := h.exists_head
    exact .inr (.inr ⟨b, more, rfl, isSpace_of_isDigit hb, ne_of_isDigit hb (by decide),
      ne_of_isDigit hb (by decide)⟩)
  | _ => exact .inr (.inr ⟨_, _, rfl, by decide, by decide, by decide⟩)

/-- Behind its blanks an item does not begin as the end of a list does. -/
theorem IsElement.exists_head {item : Bytes} (h : IsElement item) (rest : Bytes) :
    ∃ lead b more, Blank lead ∧ isSpace b = false ∧ b ≠ 0x5D ∧
      item ++ rest = lead ++ b :: more := by
  obtain ⟨hlead, -, hvalue⟩ := h
  rename_i lead value trail
  obtain ⟨b, more, rfl, hspace, hbracket⟩ := hvalue.exists_head
  exact ⟨lead, b, more ++ trail ++ rest, hlead, hspace, hbracket, by simp⟩

/-! ## §5 Items -/

/-- What stands behind the first item. -/
def laterItems (items : List Bytes) : Bytes := items.flatMap (0x2C :: ·)

theorem pairText_append (m : Bytes × Bytes) (rest : Bytes) :
    pairText m ++ rest = m.1 ++ 0x3A :: (m.2 ++ rest) := by
  simp [pairText]

theorem listText_append (gap item : Bytes) (items : List Bytes) (rest : Bytes) :
    listText gap (item :: items) ++ rest =
      0x5B :: (gap ++ (item ++ (laterItems items ++ 0x5D :: rest))) := by
  rw [listText, intercalate_eq, laterItems]
  simp

theorem objectText_append (gap : Bytes) (m : Bytes × Bytes) (members : List (Bytes × Bytes))
    (rest : Bytes) : objectText gap (m :: members) ++ rest =
      0x7B :: (gap ++ (pairText m ++ (laterItems (members.map pairText) ++ 0x7D :: rest))) := by
  rw [objectText, List.map_cons, intercalate_eq, laterItems]
  simp

theorem laterItems_cons_append (item : Bytes) (items : List Bytes) (rest : Bytes) :
    laterItems (item :: items) ++ rest = 0x2C :: (item ++ (laterItems items ++ rest)) := by
  simp [laterItems]

/-- What stands behind an item is no part of a number. -/
theorem delimited_laterItems (items : List Bytes) {rest : Bytes} (h : Delimited rest) :
    Delimited (laterItems items ++ rest) := by
  cases items with
  | nil => exact h
  | cons item items => exact delimited_comma _

/-- Every item takes at least one octet. -/
theorem length_le_laterItems (items : List Bytes) : items.length ≤ (laterItems items).length := by
  induction items with
  | nil => exact Nat.le_refl 0
  | cons item items ih =>
    rw [laterItems, List.flatMap_cons, List.length_append, ← laterItems]
    simp only [List.length_cons]
    omega

end HueCycle.Json
