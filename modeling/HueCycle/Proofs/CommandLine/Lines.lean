/-
HueCycle.Proofs.CommandLine.Lines — what an accepted command line holds, and
how to write one.

Reading goes over the arguments and adds one option at a time, so whatever is
accepted has options of its subcommand only, each once and with a value that
was read for it (`Fits`). Conversely an option whose value stands behind an
equals sign is added whatever it is (`readOptions_spelled`). So the options
that all subcommands have can be taken from one line to another.
-/
import Mathlib
import HueCycle.Proofs.CommandLine.EffectiveSettings
import HueCycle.Proofs.Json.Numbers

namespace HueCycle.CommandLine

/-! ## §1 What an accepted line holds -/

/-- A value that an option can have. -/
def Takes (key : Key) (value : Value) : Prop :=
  (key.kind = .flag ∧ value = .present) ∨ ∃ octets, readValue? key.kind octets = some value

/-- Options of a subcommand, each once and with a value for it. -/
structure Fits (s : Subcommand) (given : List (Key × Value)) : Prop where
  keys : ∀ g ∈ given, g.1 ∈ s.keys
  takes : ∀ g ∈ given, Takes g.1 g.2
  nodup : (given.map Prod.fst).Nodup

variable {s : Subcommand} {given : List (Key × Value)} {key : Key} {value : Value}

theorem Fits.nil (s : Subcommand) : Fits s [] := ⟨nofun, nofun, List.nodup_nil⟩

/-- Options with other keys are new. -/
theorem nodup_keys_append {given' : List (Key × Value)} (h : (given.map Prod.fst).Nodup)
    (h' : (given'.map Prod.fst).Nodup)
    (hnew : ∀ key ∈ given'.map Prod.fst, key ∉ given.map Prod.fst) :
    ((given ++ given').map Prod.fst).Nodup := by
  rw [List.map_append, List.nodup_append]
  exact ⟨h, h', fun a ha b hb hab => hnew b hb (hab ▸ ha)⟩

theorem any_eq_false_iff : given.any (fun g => g.1 == key) = false ↔ key ∉ given.map Prod.fst := by
  rw [List.any_eq_false]
  simp only [List.mem_map, not_exists, not_and, beq_iff_eq]

theorem Fits.append (h : Fits s given) (hkey : key ∈ s.keys) (htakes : Takes key value)
    (hnew : given.any (fun g => g.1 == key) = false) : Fits s (given ++ [(key, value)]) where
  keys g hg := by
    rcases List.mem_append.mp hg with hg | hg
    · exact h.keys g hg
    · rwa [List.mem_singleton.mp hg]
  takes g hg := by
    rcases List.mem_append.mp hg with hg | hg
    · exact h.takes g hg
    · rwa [List.mem_singleton.mp hg]
  nodup := by
    refine nodup_keys_append h.nodup (List.nodup_singleton key) fun k hk => ?_
    rw [List.mem_singleton.mp hk]
    exact any_eq_false_iff.mp hnew

theorem complete_eq_perform {s' : Subcommand} {given' : List (Key × Value)}
    (h : complete s given = .perform s' given') :
    s' = s ∧ given' = given ∧ ∀ key ∈ s.required, key ∈ given.map Prod.fst := by
  unfold complete at h
  split at h
  · rename_i hrequired
    obtain ⟨rfl, rfl⟩ := Request.perform.inj h
    refine ⟨rfl, rfl, fun key hkey => ?_⟩
    by_contra hmissing
    have := List.all_eq_true.mp hrequired key hkey
    rw [any_eq_false_iff.mpr hmissing] at this
    cases this
  · cases h

/-- **Reading adds options that fit.** -/
theorem fits_of_readOptions {arguments : List Bytes} {pending : Option Key} {s' : Subcommand}
    {given' : List (Key × Value)} (hfits : Fits s given)
    (hpending : ∀ key ∈ pending, key ∈ s.keys)
    (h : readOptions s pending given arguments = .perform s' given') :
    s' = s ∧ Fits s given' ∧ ∀ key ∈ s.required, key ∈ given'.map Prod.fst := by
  have hcomplete {given : List (Key × Value)} (hfits : Fits s given)
      (h : complete s given = .perform s' given') :
      s' = s ∧ Fits s given' ∧ ∀ key ∈ s.required, key ∈ given'.map Prod.fst := by
    obtain ⟨rfl, rfl, hrequired⟩ := complete_eq_perform h
    exact ⟨rfl, hfits, hrequired⟩
  have hnone : ∀ key ∈ (none : Option Key), key ∈ s.keys := nofun
  induction arguments generalizing pending given with
  | nil =>
    cases pending with
    | none => exact hcomplete hfits h
    | some key => cases h
  | cons argument rest ih =>
    cases pending with
    | some key =>
      unfold readOptions at h
      dsimp only at h
      split_ifs at h with hvalue
      rw [Bool.and_eq_true, Bool.not_eq_true'] at hvalue
      split at h
      · rename_i value hread
        exact ih (hfits.append (hpending key rfl) (.inr ⟨argument, hread⟩) hvalue.2) hnone h
      · cases h
    | none =>
      unfold readOptions at h
      split at h
      · split at h
        · exact hcomplete hfits h
        · cases h
      · cases h
      · split at h
        · exact ih hfits hnone h
        · cases h
        · cases h
      · split at h
        · exact ih hfits hnone h
        · split at h
          · cases h
          · split at h
            · cases h
            · rename_i key hfind
              have hkey := List.mem_of_find?_eq_some hfind
              split at h
              · rename_i hflag
                split at h
                · cases h
                · rename_i hnew
                  rw [not_or, Bool.not_eq_true, Bool.not_eq_true] at hnew
                  exact ih (hfits.append hkey (.inl ⟨hflag, rfl⟩) hnew.2) hnone h
              · split at h
                · refine ih hfits ?_ h
                  intro k hk
                  rwa [← Option.some.inj hk]
                · split at h
                  · cases h
                  · rename_i value hread
                    split at h
                    · cases h
                    · rename_i hnew
                      rw [Bool.not_eq_true] at hnew
                      exact ih (hfits.append hkey (.inr ⟨_, hread⟩) hnew) hnone h

/-- **An accepted line has options of its subcommand**, each once and with a value for it, and
those that it needs. -/
theorem fits_of_read {arguments : List Bytes} (h : read arguments = .perform s given) :
    Fits s given ∧ ∀ key ∈ s.required, key ∈ given.map Prod.fst := by
  induction arguments with
  | nil => cases h
  | cons argument rest ih =>
    unfold read at h
    split at h
    · rename_i s' _
      have hnone : ∀ key ∈ (none : Option Key), key ∈ s'.keys := nofun
      obtain ⟨rfl, hfits⟩ := fits_of_readOptions (.nil _) hnone h
      exact hfits
    · split at h
      · unfold readHelp at h
        split at h
        · cases h
        · split at h <;> cases h
        · cases h
      · split at h
        · split at h
          · exact ih h
          · cases h
          · cases h
          · cases h
        · split at h
          · exact ih h
          · split at h
            · cases h
            · split at h
              · cases h
              · cases h
        · cases h

/-! ## §2 Writing options -/

/-- An option with its value in one argument. -/
def spelled (option : Key × Bytes) : Bytes :=
  minus :: minus :: (Utf8.encode option.1.name ++ equals :: option.2)

/-- The name of an option is not empty and has no equals sign. -/
theorem plain_name (key : Key) :
    Utf8.encode key.name ≠ [] ∧ ∀ b ∈ Utf8.encode key.name, (b != equals) = true := by
  cases key <;> decide +kernel

/-- An option is found by its name. -/
theorem find?_name (s : Subcommand) : ∀ key ∈ s.keys,
    (s.keys.find? fun k => Utf8.encode k.name == Utf8.encode key.name) = some key := by
  cases s <;> decide

theorem shapeOf_spelled (option : Key × Bytes) :
    shapeOf (spelled option) = .long (Utf8.encode option.1.name) (some option.2) := by
  obtain ⟨key, octets⟩ := option
  obtain ⟨hne, hplain⟩ := plain_name key
  have hdrop : (Utf8.encode key.name ++ equals :: octets).dropWhile (· != equals) =
      equals :: octets := by
    rw [List.dropWhile_append_of_pos hplain]
    rfl
  have htake : (Utf8.encode key.name ++ equals :: octets).takeWhile (· != equals) =
      Utf8.encode key.name := by
    rw [List.takeWhile_append_of_pos hplain]
    simp
  rw [spelled, shapeOf, if_pos ⟨rfl, rfl⟩, if_neg (by simp [hne]), hdrop, htake]

/-- **A spelled option is added.** -/
theorem readOptions_spelled {octets : Bytes} (hkey : key ∈ s.keys) (hkind : key.kind ≠ .flag)
    (hvalue : readValue? key.kind octets = some value) (hnew : key ∉ given.map Prod.fst)
    (rest : List Bytes) :
    readOptions s none given (spelled (key, octets) :: rest) =
      readOptions s none (given ++ [(key, value)]) rest := by
  rw [readOptions, shapeOf_spelled]
  simp only [Option.isNone_some, Bool.false_eq_true, and_false, if_false, find?_name s key hkey,
    if_neg hkind, hvalue, any_eq_false_iff.mpr hnew]

/-- An option as it is written and as it is read. -/
def Reads (option : Key × Bytes) (g : Key × Value) : Prop :=
  g.1 = option.1 ∧ option.1.kind ≠ .flag ∧ readValue? option.1.kind option.2 = some g.2

/-- Options that are written one after the other are read so. -/
theorem readOptions_spelled_all (given : List (Key × Value)) {options : List (Key × Bytes)}
    {more : List (Key × Value)} (hreads : List.Forall₂ Reads options more) (hkeys : ∀ g ∈ more, g.1 ∈ s.keys)
    (hnodup : ((given ++ more).map Prod.fst).Nodup) :
    readOptions s none given (options.map spelled) = complete s (given ++ more) := by
  induction hreads generalizing given with
  | nil =>
    rw [List.map_nil, readOptions, List.append_nil]
  | @cons option g options more hread _ ih =>
    obtain ⟨_, octets⟩ := option
    obtain ⟨key, value⟩ := g
    obtain ⟨rfl, hkind, hvalue⟩ := hread
    have hsplit : given ++ (key, value) :: more = (given ++ [(key, value)]) ++ more := by simp
    have hnew : key ∉ given.map Prod.fst := by
      rw [List.map_append, List.nodup_append] at hnodup
      exact fun hmem => hnodup.2.2 key hmem key (by simp) rfl
    rw [List.map_cons, readOptions_spelled (hkeys _ List.mem_cons_self) hkind hvalue hnew, hsplit]
    exact ih _ (fun g hg => hkeys g (List.mem_cons_of_mem _ hg)) (hsplit ▸ hnodup)

/-- The line that asks a subcommand for options. -/
def lineOf (s : Subcommand) (options : List (Key × Bytes)) : List Bytes :=
  Utf8.encode s.name :: options.map spelled

/-- **A written line is accepted** with the values that its options are read as. -/
theorem read_lineOf {options : List (Key × Bytes)} {given : List (Key × Value)}
    (hreads : List.Forall₂ Reads options given) (hkeys : ∀ key ∈ given.map Prod.fst, key ∈ s.keys)
    (hnodup : (given.map Prod.fst).Nodup)
    (hrequired : ∀ key ∈ s.required, key ∈ given.map Prod.fst) :
    read (lineOf s options) = .perform s given := by
  have hname : (Subcommand.all.find? fun s' => Utf8.encode s'.name == Utf8.encode s.name) =
      some s := by
    cases s <;> decide
  have hcomplete : complete s given = .perform s given := by
    refine if_pos (List.all_eq_true.mpr fun key hkey => ?_)
    by_contra hany
    exact any_eq_false_iff.mp (Bool.not_eq_true _ ▸ hany) (hrequired key hkey)
  rw [lineOf, read, hname]
  exact (readOptions_spelled_all [] hreads (List.forall_mem_map.mp hkeys) hnodup).trans hcomplete

/-! ## §3 Values -/

theorem mem_of_valueOf (h : valueOf given key = some value) : (key, value) ∈ given := by
  unfold valueOf at h
  induction given with
  | nil => cases h
  | cons g given ih =>
    obtain ⟨key', value'⟩ := g
    rw [List.lookup_cons] at h
    by_cases hkey : key = key'
    · subst hkey
      rw [beq_self_eq_true] at h
      rw [Option.some.inj h]
      exact List.mem_cons_self
    · rw [beq_eq_false_iff_ne.mpr hkey] at h
      exact List.mem_cons_of_mem _ (ih h)

theorem valueOf_eq_none_iff : valueOf given key = none ↔ key ∉ given.map Prod.fst := by
  rw [valueOf, List.lookup_eq_none_iff]
  simp only [List.mem_map, not_exists, not_and, bne_iff_ne, ne_comm]

theorem exists_valueOf (h : key ∈ given.map Prod.fst) : ∃ value, valueOf given key = some value :=
  Option.ne_none_iff_exists'.mp fun hnone => valueOf_eq_none_iff.mp hnone h

theorem valueOf_append (given given' : List (Key × Value)) (key : Key) :
    valueOf (given ++ given') key = (valueOf given key).or (valueOf given' key) :=
  List.lookup_append

/-- An option that is needed and is no flag has a value that was read for it. -/
theorem exists_readValue {arguments : List Bytes} (h : read arguments = .perform s given)
    (hrequired : key ∈ s.required) (hkind : key.kind ≠ .flag) :
    ∃ octets value, valueOf given key = some value ∧ readValue? key.kind octets = some value := by
  obtain ⟨hfits, hall⟩ := fits_of_read h
  obtain ⟨value, hvalue⟩ := exists_valueOf (hall key hrequired)
  obtain ⟨hflag, -⟩ | ⟨octets, hread⟩ := hfits.takes _ (mem_of_valueOf hvalue)
  · exact absurd hflag hkind
  · exact ⟨octets, value, hvalue, hread⟩

/-- A frame that is asked for has a position and a file to go to. -/
theorem exists_frame_of_read {arguments : List Bytes} (h : read arguments = .perform .frame given) :
    ∃ i out, i < 2 ^ 64 ∧ out ≠ [] ∧ valueOf given .frame = some (.whole i) ∧
      valueOf given .out = some (.path ⟨out⟩) := by
  have hneeded : Key.frame ∈ Subcommand.frame.required ∧ Key.out ∈ Subcommand.frame.required := by
    decide
  obtain ⟨octets, index, hindex, hread⟩ := exists_readValue h hneeded.1 (by decide)
  obtain ⟨out, target, htarget, hread'⟩ := exists_readValue h hneeded.2 (by decide)
  obtain ⟨i, hi, rfl⟩ : ∃ i < 2 ^ 64, Value.whole i = index := by
    dsimp only [Key.kind, readValue?] at hread
    split at hread
    · rename_i i _
      split at hread
      · rename_i hi
        exact ⟨i, hi, Option.some.inj hread⟩
      · cases hread
    · cases hread
  obtain ⟨hout, rfl⟩ : out ≠ [] ∧ Value.path ⟨out⟩ = target := by
    dsimp only [Key.kind, readValue?] at hread'
    split at hread'
    · cases hread'
    · rename_i hout
      exact ⟨hout, Option.some.inj hread'⟩
  exact ⟨i, out, hi, hout, hindex, htarget⟩

/-! ### Texts of positions -/

/-- Digits are characters of one octet. -/
theorem decodeFrom_octets {cs : List Char} (h : Json.AllDigits cs) :
    Utf8.decodeFrom none (Json.octets cs) = cs.map some := by
  induction cs with
  | nil => rfl
  | cons c cs ih =>
    have hc := h c List.mem_cons_self
    obtain ⟨b, hcons, hb, hvalue, -⟩ := Json.octets_cons_of_isDigit hc cs []
    simp only [List.append_nil] at hcons
    simp only [Json.isDigit, Bool.and_eq_true, decide_eq_true_eq, UInt8.le_iff_toNat_le] at hb
    simp only [Char.isDigit, Bool.and_eq_true, decide_eq_true_eq, ge_iff_le] at hc
    have hlow : 48 ≤ c.toNat := UInt32.le_iff_toNat_le.mp hc.1
    have hb' : 48 ≤ b.toNat ∧ b.toNat ≤ 57 := hb
    have hsame : b.toNat = c.toNat := by omega
    have hlead : Utf8.lead b = .done (some c) := by
      have hsmall : b < 0x80 := UInt8.lt_iff_toNat_lt.mpr (hb'.2.trans_lt (by decide))
      rw [Utf8.lead, if_pos hsmall, hsame, Char.ofNat_toNat]
    rw [hcons, Utf8.decodeFrom, hlead, List.map_cons,
      ← ih fun d hd => h d (List.mem_cons_of_mem _ hd)]

theorem textOf?_octets {cs : List Char} (h : Json.AllDigits cs) :
    textOf? (Json.octets cs) = some cs := by
  have hdecode : Utf8.decode (Json.octets cs) = cs.map some := decodeFrom_octets h
  rw [textOf?, Utf8.isValid, hdecode, if_pos (by simp), List.filterMap_map]
  simp

theorem foldlM_digitValue? {cs : List Char} (h : Json.AllDigits cs) (n : Nat) :
    cs.foldlM (fun n c => (Decimal.digitValue? c).map (n * 10 + ·)) n =
      some (Nat.ofDigitChars 10 cs n) := by
  induction cs generalizing n with
  | nil => rfl
  | cons c cs ih =>
    have hc := h c List.mem_cons_self
    simp only [Char.isDigit, Bool.and_eq_true, decide_eq_true_eq, ge_iff_le] at hc
    have hdigit : Decimal.digitValue? c = some (c.toNat - '0'.toNat) := if_pos hc
    rw [List.foldlM_cons, hdigit, Nat.ofDigitChars_cons, Nat.mul_comm 10 n]
    exact ih (fun d hd => h d (List.mem_cons_of_mem _ hd)) _

/-- The text of a position is read as that position, if it is one. -/
theorem readValue?_digits (i : Nat) :
    readValue? (.natural 64) (Json.octets (Decimal.digits i)) =
      if i < 2 ^ 64 then some (.whole i) else none := by
  have hdigits := Json.allDigits_digits i
  have hread : Decimal.readNatural? (Decimal.digits i) = some i := by
    have hwhole : Decimal.readDigits? (Decimal.digits i) = some i := by
      rw [Decimal.readDigits?, if_neg (by simp [Json.digits_ne_nil]), foldlM_digitValue? hdigits]
      exact congrArg some (Json.digitsValue_digits i)
    unfold Decimal.readNatural?
    split
    · rename_i cs hplus
      exact absurd (hdigits '+' (hplus ▸ List.mem_cons_self)) (by decide)
    · exact hwhole
  simp only [readValue?, textOf?_octets hdigits, Option.bind_some, hread]
  rfl

/-! ## §4 The same options for another subcommand -/

theorem exists_options (h : ∀ g ∈ given, g.1.kind ≠ .flag ∧ Takes g.1 g.2) :
    ∃ options, List.Forall₂ Reads options given := by
  induction given with
  | nil => exact ⟨[], .nil⟩
  | cons g given ih =>
    obtain ⟨options, hoptions⟩ := ih fun g hg => h g (List.mem_cons_of_mem _ hg)
    obtain ⟨hkind, ⟨hflag, -⟩ | ⟨octets, hread⟩⟩ := h g List.mem_cons_self
    · exact absurd hflag hkind
    · exact ⟨(g.1, octets) :: options, .cons ⟨rfl, hkind, hread⟩ hoptions⟩

/-- The options that every subcommand has. -/
def common (given : List (Key × Value)) : List (Key × Value) :=
  given.filter fun g => Subcommand.commonKeys.contains g.1

theorem mem_common {g : Key × Value} :
    g ∈ common given ↔ g ∈ given ∧ g.1 ∈ Subcommand.commonKeys := by
  rw [common, List.mem_filter, List.contains_iff_mem]

theorem valueOf_common (given : List (Key × Value)) (hkey : key ∈ Subcommand.commonKeys) :
    valueOf (common given) key = valueOf given key := by
  unfold valueOf common
  induction given with
  | nil => rfl
  | cons g given ih =>
    obtain ⟨key', value⟩ := g
    by_cases hmem : key' ∈ Subcommand.commonKeys
    · rw [List.filter_cons_of_pos (by simpa using hmem), List.lookup_cons, List.lookup_cons, ih]
    · have hne : key ≠ key' := fun heq => hmem (heq ▸ hkey)
      rw [List.filter_cons_of_neg (by simpa using hmem), List.lookup_cons,
        beq_eq_false_iff_ne.mpr hne, ih]

/-- **The options that every subcommand has can be written for another one**, with any that it
has for itself. -/
theorem exists_line (h : Fits s given) (s' : Subcommand) {own : List (Key × Bytes)}
    {given' : List (Key × Value)} (hown : List.Forall₂ Reads own given')
    (hkeys : ∀ g ∈ given', g.1 ∈ s'.keys ∧ g.1 ∉ Subcommand.commonKeys)
    (hnodup : (given'.map Prod.fst).Nodup)
    (hrequired : ∀ key ∈ s'.required, key ∈ given'.map Prod.fst) :
    ∃ arguments, read arguments = .perform s' (common given ++ given') := by
  have hkinds : ∀ key ∈ Subcommand.commonKeys, key.kind ≠ .flag := by decide
  obtain ⟨options, hoptions⟩ : ∃ options, List.Forall₂ Reads options (common given) :=
    exists_options fun g hg => ⟨hkinds _ (mem_common.mp hg).2, h.takes g (mem_common.mp hg).1⟩
  refine ⟨lineOf s' (options ++ own), read_lineOf (List.rel_append hoptions hown) ?_ ?_ ?_⟩
  · refine List.forall_mem_map.mpr fun g hg => ?_
    rcases List.mem_append.mp hg with hg | hg
    · have hall : ∀ key ∈ Subcommand.commonKeys, key ∈ s'.keys := by cases s' <;> decide
      exact hall _ (mem_common.mp hg).2
    · exact (hkeys g hg).1
  · refine nodup_keys_append (h.nodup.sublist (List.filter_sublist.map _)) hnodup
      (List.forall_mem_map.mpr fun g' hg' hmem => ?_)
    obtain ⟨g, hg, heq⟩ := List.mem_map.mp hmem
    exact (hkeys g' hg').2 (heq ▸ (mem_common.mp hg).2)
  · intro key hkey
    rw [List.map_append]
    exact List.mem_append_right _ (hrequired key hkey)

theorem sameCommon_common_append {given' : List (Key × Value)}
    (hkeys : ∀ g ∈ given', g.1 ∉ Subcommand.commonKeys) :
    SameCommon given (common given ++ given') := by
  intro key hkey
  have hnone : valueOf given' key = none := valueOf_eq_none_iff.mpr fun hmem => by
    obtain ⟨g, hg, rfl⟩ := List.mem_map.mp hmem
    exact hkeys g hg hkey
  rw [← valueOf_common given hkey, valueOf_append, hnone, Option.or_none]

/-- There is a line for the table with the same options, -/
theorem exists_schedule_line {arguments : List Bytes} (h : read arguments = .perform s given) :
    ∃ arguments' given', read arguments' = .perform .schedule given' ∧ SameCommon given given' := by
  obtain ⟨arguments', hread⟩ := exists_line (fits_of_read h).1 .schedule .nil nofun
    List.nodup_nil nofun
  exact ⟨arguments', _, hread, sameCommon_common_append nofun⟩

/-- and one for each frame and each file that it can go to. -/
theorem exists_frame_line {arguments : List Bytes} (h : read arguments = .perform s given)
    {i : Nat} (hi : i < 2 ^ 64) {out : Bytes} (hout : out ≠ []) :
    ∃ arguments' given', read arguments' = .perform .frame given' ∧ SameCommon given given' ∧
      valueOf given' .frame = some (.whole i) ∧ valueOf given' .out = some (.path ⟨out⟩) := by
  have hown : List.Forall₂ Reads [(.frame, Json.octets (Decimal.digits i)), (.out, out)]
      [(.frame, .whole i), (.out, .path ⟨out⟩)] := by
    refine .cons ⟨rfl, nofun, ?_⟩ (.cons ⟨rfl, nofun, ?_⟩ .nil)
    · exact (readValue?_digits i).trans (if_pos hi)
    · exact if_neg hout
  have hkeys : ∀ g ∈ [(Key.frame, Value.whole i), (.out, .path ⟨out⟩)],
      g.1 ∈ Subcommand.frame.keys ∧ g.1 ∉ Subcommand.commonKeys := by
    intro g hg
    rcases List.mem_pair.mp hg with rfl | rfl
    · show Key.frame ∈ Subcommand.frame.keys ∧ Key.frame ∉ Subcommand.commonKeys
      decide
    · show Key.out ∈ Subcommand.frame.keys ∧ Key.out ∉ Subcommand.commonKeys
      decide
  obtain ⟨arguments', hread⟩ := exists_line (fits_of_read h).1 .frame hown hkeys
    (show [Key.frame, Key.out].Nodup by decide)
    (show ∀ key ∈ Subcommand.frame.required, key ∈ [Key.frame, Key.out] by decide)
  have hother (key : Key) (hkey : key ∉ Subcommand.commonKeys) :
      valueOf (common given) key = none := valueOf_eq_none_iff.mpr fun hmem => by
    obtain ⟨g, hg, rfl⟩ := List.mem_map.mp hmem
    exact hkey (mem_common.mp hg).2
  refine ⟨arguments', _, hread, sameCommon_common_append fun g hg => (hkeys g hg).2, ?_, ?_⟩
  · rw [valueOf_append, hother .frame (by decide)]
    rfl
  · rw [valueOf_append, hother .out (by decide)]
    rfl

end HueCycle.CommandLine
