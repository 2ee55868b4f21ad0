/-
HueCycle.Proofs.SettingsObjects — the settings that a JSON object or list
gives.

Each member of an object stands for an entry, a field with a value. The fields
that are set already are known from the state in which the members are
gathered, so the object gives settings exactly if its members stand for entries
of different fields (`parse_object_eq_ok_iff`): the default settings with these
fields replaced. From this follows both what is accepted and what is refused.
Main statement: `parse_gives_listed_fields`.
-/
import Mathlib
import HueCycle.Settings
import HueCycle.Proofs.Json.Members

namespace HueCycle.Settings

open Json

/-! ## §1 Entries -/

/-- A field with a value. -/
inductive Entry where
  | input (path : Path)
  | output (path : Path)
  | frameRate (rate : UInt32)
  | duration (seconds : Float)
  | shifts (turns : Float)
  | blinks (cycles : Float)
  | loopMode (mode : LoopMode)

/-- The names of the fields in the order of declaration. -/
def names : List String := fields.map Record.Field.name

namespace Entry

def name : Entry → String
  | .input _ => "input_path"
  | .output _ => "output_path"
  | .frameRate _ => "frame_rate"
  | .duration _ => "duration"
  | .shifts _ => "shifts"
  | .blinks _ => "blinks"
  | .loopMode _ => "loop_mode"

theorem name_mem_names (e : Entry) : e.name ∈ names := by
  cases e <;> simp [name, names, fields, Record.Field.of]

/-- A text that is read as the value when it stands alone. -/
def Reads : Entry → Bytes → Prop
  | .input path, text => readWhole readPath text = .ok path
  | .output path, text => readWhole readPath text = .ok path
  | .frameRate rate, text => readWhole readRate text = .ok rate
  | .duration x, text => readWhole Json.float text = .ok x
  | .shifts x, text => readWhole Json.float text = .ok x
  | .blinks x, text => readWhole Json.float text = .ok x
  | .loopMode mode, text => readWhole LoopMode.read text = .ok mode

/-- A JSON value for the field. -/
def IsText (e : Entry) (text : Bytes) : Prop := IsElement text ∧ e.Reads text

/-- A key that spells the name of the field, with a JSON value for it. -/
def IsMember (e : Entry) (m : Bytes × Bytes) : Prop :=
  IsKey m.1 ∧ Spells m.1 e.name ∧ e.IsText m.2

end Entry

/-- Settings with one field replaced. -/
def put (s : Settings) : Entry → Settings
  | .input path => { s with input := path }
  | .output path => { s with output := path }
  | .frameRate rate => { s with frameRate := rate }
  | .duration x => { s with duration := x }
  | .shifts x => { s with shifts := x }
  | .blinks x => { s with blinks := x }
  | .loopMode mode => { s with loopMode := mode }

/-- Different fields are replaced independently. -/
theorem put_comm (s : Settings) {e e' : Entry} (h : e.name ≠ e'.name) :
    (s.put e).put e' = (s.put e').put e := by
  cases e <;> cases e' <;> first | rfl | exact absurd rfl h

/-- **The order of the entries does not matter** where no field comes twice. -/
theorem foldl_put_of_perm {entries entries' : List Entry} (h : entries.Perm entries')
    (hnodup : (entries.map Entry.name).Nodup) (s : Settings) :
    entries.foldl put s = entries'.foldl put s := by
  refine h.foldl_eq' (fun e he e' he' s => ?_) s
  by_cases hsame : e.name = e'.name
  · rw [List.inj_on_of_nodup_map hnodup he he' hsame]
  · exact put_comm s hsame

namespace Given

/-- One more field. -/
def put (g : Given) : Entry → Given
  | .input path => { g with input := some path }
  | .output path => { g with output := some path }
  | .frameRate rate => { g with frameRate := some rate }
  | .duration x => { g with duration := some x }
  | .shifts x => { g with shifts := some x }
  | .blinks x => { g with blinks := some x }
  | .loopMode mode => { g with loopMode := some mode }

/-- The field of an entry is not set yet. -/
def Lacks (g : Given) : Entry → Prop
  | .input _ => g.input = none
  | .output _ => g.output = none
  | .frameRate _ => g.frameRate = none
  | .duration _ => g.duration = none
  | .shifts _ => g.shifts = none
  | .blinks _ => g.blinks = none
  | .loopMode _ => g.loopMode = none

theorem lacks_nothing (e : Entry) : nothing.Lacks e := by
  cases e <;> rfl

theorem complete_put (g : Given) (e : Entry) : (g.put e).complete = g.complete.put e := by
  cases e <;> rfl

theorem complete_foldl_put (entries : List Entry) (g : Given) :
    (entries.foldl put g).complete = entries.foldl Settings.put g.complete := by
  induction entries generalizing g with
  | nil => rfl
  | cons e entries ih => rw [List.foldl_cons, List.foldl_cons, ih, complete_put]

/-- A field is set by its own entries only. -/
theorem lacks_put_iff (g : Given) (e e' : Entry) :
    (g.put e).Lacks e' ↔ e'.name ≠ e.name ∧ g.Lacks e' := by
  cases e <;> cases e' <;> simp [put, Lacks, Entry.name]

end Given

/-! ## §2 Fields -/

/-- A field takes the texts of its entries and keeps their values. -/
structure Keeps (f : Record.Field Given) : Prop where
  unset : ∀ {e : Entry}, e.name = f.name → ∀ g, f.isSet g = false ↔ g.Lacks e
  reads : ∀ g text g', (readWhole (f.read g) text).toOption = some g' ↔
    ∃ e : Entry, e.name = f.name ∧ e.Reads text ∧ g' = g.put e
  steady : ∀ g, Steady (f.read g)

theorem keeps_of {α : Type} {name : String} {get : Given → Option α} {set : Given → α → Given}
    {reader : Reader α} (entry : α → Entry) (hsteady : Steady reader)
    (hname : ∀ e : Entry, e.name = name ↔ ∃ a, e = entry a)
    (hlacks : ∀ g a, g.Lacks (entry a) ↔ get g = none)
    (hput : ∀ g a, g.put (entry a) = set g a)
    (hreads : ∀ a text, (entry a).Reads text ↔ readWhole reader text = .ok a) :
    Keeps (Record.Field.of name get set reader) where
  unset he g := by
    obtain ⟨a, rfl⟩ := (hname _).mp he
    rw [hlacks, Record.Field.of]
    simp
  reads g text g' := by
    rw [Record.Field.toOption_readWhole_of, Option.map_eq_some_iff]
    constructor
    · rintro ⟨a, ha, rfl⟩
      exact ⟨entry a, (hname _).mpr ⟨a, rfl⟩, (hreads _ _).mpr (toOption_eq_some_iff.mp ha),
        (hput g a).symm⟩
    · rintro ⟨e, he, hread, rfl⟩
      obtain ⟨a, rfl⟩ := (hname _).mp he
      exact ⟨a, toOption_eq_some_iff.mpr ((hreads _ _).mp hread), (hput g a).symm⟩
  steady := Record.Field.steady_of hsteady name get set

theorem steady_readPath : Steady readPath := (steady_string "path string").map Path.mk

theorem steady_readRate : Steady readRate := (steady_natural 32).map UInt32.ofNat

theorem keeps_fields : ∀ f ∈ fields, Keeps f := by
  intro f hf
  simp only [fields, List.mem_cons, List.not_mem_nil, or_false] at hf
  rcases hf with rfl | rfl | rfl | rfl | rfl | rfl | rfl
  · exact keeps_of .input steady_readPath (by rintro (_ | _) <;> simp [Entry.name])
      (fun _ _ => Iff.rfl) (fun _ _ => rfl) (fun _ _ => Iff.rfl)
  · exact keeps_of .output steady_readPath (by rintro (_ | _) <;> simp [Entry.name])
      (fun _ _ => Iff.rfl) (fun _ _ => rfl) (fun _ _ => Iff.rfl)
  · exact keeps_of .frameRate steady_readRate (by rintro (_ | _) <;> simp [Entry.name])
      (fun _ _ => Iff.rfl) (fun _ _ => rfl) (fun _ _ => Iff.rfl)
  · exact keeps_of .duration steady_float (by rintro (_ | _) <;> simp [Entry.name])
      (fun _ _ => Iff.rfl) (fun _ _ => rfl) (fun _ _ => Iff.rfl)
  · exact keeps_of .shifts steady_float (by rintro (_ | _) <;> simp [Entry.name])
      (fun _ _ => Iff.rfl) (fun _ _ => rfl) (fun _ _ => Iff.rfl)
  · exact keeps_of .blinks steady_float (by rintro (_ | _) <;> simp [Entry.name])
      (fun _ _ => Iff.rfl) (fun _ _ => rfl) (fun _ _ => Iff.rfl)
  · exact keeps_of .loopMode steady_loopMode (by rintro (_ | _) <;> simp [Entry.name])
      (fun _ _ => Iff.rfl) (fun _ _ => rfl) (fun _ _ => Iff.rfl)

theorem steady_fields : ∀ f ∈ record.fields, ∀ g, Steady (f.read g) :=
  fun f hf => (keeps_fields f hf).steady

theorem nodup_names : names.Nodup := by
  decide

/-- A field is found by its name. -/
theorem exists_find {name : String} (h : name ∈ names) : ∃ f,
    (fields.find? fun f => Utf8.encode f.name == Utf8.encode name) = some f ∧ f.name = name := by
  simp only [names, fields, Record.Field.of, List.map_cons, List.map_nil, List.mem_cons,
    List.not_mem_nil, or_false] at h
  rcases h with rfl | rfl | rfl | rfl | rfl | rfl | rfl <;> exact ⟨_, rfl, rfl⟩

/-- The octets of a name tell which it is. -/
theorem eq_of_encode_eq {name name' : String} (h : name ∈ names) (h' : name' ∈ names)
    (hsame : Utf8.encode name = Utf8.encode name') : name = name' := by
  obtain ⟨f, hfind, rfl⟩ := exists_find h
  obtain ⟨f', hfind', rfl⟩ := exists_find h'
  rw [hsame, hfind'] at hfind
  rw [Option.some.inj hfind]

/-- A key spells one name at most. -/
theorem eq_of_spells {key : Bytes} {name name' : String} (h : name ∈ names) (h' : name' ∈ names)
    (hspells : Spells key name) (hspells' : Spells key name') : name = name' :=
  eq_of_encode_eq h h' (Except.ok.inj (hspells.symm.trans hspells'))

/-! ## §3 Members -/

/-- **A member adds an entry** of its key whose field is not set yet, or it is refused. -/
theorem takeMember_eq_some_iff (g g' : Given) (m : Bytes × Bytes) :
    record.takeMember g m = some g' ↔
      ∃ e : Entry, (Spells m.1 e.name ∧ e.Reads m.2) ∧ g.Lacks e ∧ g' = g.put e := by
  rw [Record.takeMember, Option.bind_eq_some_iff]
  constructor
  · rintro ⟨key, hkey, htaken⟩
    split at htaken
    case h_2 => cases htaken
    rename_i f hfind
    have hkeeps := keeps_fields f (List.mem_of_find?_eq_some hfind)
    have hname : Utf8.encode f.name = key := by simpa using List.find?_some hfind
    split at htaken
    · cases htaken
    · rename_i hunset
      obtain ⟨e, he, hreads, rfl⟩ := (hkeeps.reads g m.2 g').mp htaken
      refine ⟨e, ⟨?_, hreads⟩, (hkeeps.unset he g).mp (by simpa using hunset), rfl⟩
      rw [Spells, he, hname]
      exact toOption_eq_some_iff.mp hkey
  · rintro ⟨e, ⟨hspells, hreads⟩, hlacks, rfl⟩
    obtain ⟨f, hfind, hname⟩ := exists_find e.name_mem_names
    have hkeeps := keeps_fields f (List.mem_of_find?_eq_some hfind)
    refine ⟨Utf8.encode e.name, toOption_eq_some_iff.mpr hspells, ?_⟩
    have hfield : (record.fields.find? fun f => Utf8.encode f.name == Utf8.encode e.name) =
      some f := hfind
    rw [hfield]
    dsimp only
    rw [(hkeeps.unset hname.symm g).mpr hlacks]
    exact (hkeeps.reads g m.2 _).mpr ⟨e, hname.symm, hreads, rfl⟩

/-- Members add entries of different fields, one each. -/
theorem foldlM_takeMember_eq_some_iff (members : List (Bytes × Bytes)) (g g' : Given) :
    members.foldlM record.takeMember g = some g' ↔
      ∃ entries : List Entry,
        List.Forall₂ (fun e m => Spells m.1 e.name ∧ e.Reads m.2) entries members ∧
        (entries.map Entry.name).Nodup ∧ (∀ e ∈ entries, g.Lacks e) ∧
        g' = entries.foldl Given.put g := by
  induction members generalizing g with
  | nil =>
    constructor
    · intro h
      exact ⟨[], .nil, List.nodup_nil, by simp, (Option.some.inj h).symm⟩
    · rintro ⟨entries, hall, -, -, rfl⟩
      cases hall
      rfl
  | cons m members ih =>
    rw [List.foldlM_cons]
    constructor
    · intro h
      obtain ⟨g₁, hfirst, hlater⟩ := Option.bind_eq_some_iff.mp h
      obtain ⟨e, he, hlacks, rfl⟩ := (takeMember_eq_some_iff g g₁ m).mp hfirst
      obtain ⟨entries, hall, hnodup, hunset, rfl⟩ := (ih _).mp hlater
      refine ⟨e :: entries, .cons he hall, ?_, ?_, rfl⟩
      · refine List.nodup_cons.mpr ⟨fun hmem => ?_, hnodup⟩
        obtain ⟨e', he', hsame⟩ := List.mem_map.mp hmem
        exact ((g.lacks_put_iff e e').mp (hunset e' he')).1 hsame
      · rintro e' (_ | ⟨_, he'⟩)
        · exact hlacks
        · exact ((g.lacks_put_iff e e').mp (hunset e' he')).2
    · rintro ⟨entries, hall, hnodup, hunset, rfl⟩
      obtain _ | ⟨he, hall⟩ := hall
      rename_i e entries
      refine Option.bind_eq_some_iff.mpr ⟨g.put e, (takeMember_eq_some_iff _ _ _).mpr
        ⟨e, he, hunset e List.mem_cons_self, rfl⟩, (ih _).mpr ⟨entries, hall, ?_, ?_, rfl⟩⟩
      · exact (List.nodup_cons.mp hnodup).2
      · intro e' he'
        refine (g.lacks_put_iff e e').mpr ⟨fun hsame => ?_, hunset e' (List.mem_cons_of_mem _ he')⟩
        exact (List.nodup_cons.mp hnodup).1 (List.mem_map.mpr ⟨e', he', hsame⟩)

/-- Items add the entries of the first fields. -/
theorem takeItems_eq_some {entries : List Entry} {items : List Bytes}
    (hall : List.Forall₂ Entry.Reads entries items) {left : List (Record.Field Given)}
    (hleft : ∀ f ∈ left, f ∈ fields)
    (hnames : entries.map Entry.name <+: left.map Record.Field.name) (g : Given) :
    record.takeItems left g items = some (entries.foldl Given.put g) := by
  induction hall generalizing left g with
  | nil =>
    rw [List.foldl_nil]
    cases left <;> rfl
  | @cons e item entries items he hall ih =>
    cases left with
    | nil => simp at hnames
    | cons f left =>
      rw [List.map_cons, List.map_cons, List.cons_prefix_cons] at hnames
      obtain ⟨hname, hnames⟩ := hnames
      have hread := ((keeps_fields f (hleft f List.mem_cons_self)).reads g item _).mpr
        ⟨e, hname, he, rfl⟩
      rw [Record.takeItems, hread, Option.bind_some, List.foldl_cons]
      exact ih (fun f hf => hleft f (List.mem_cons_of_mem _ hf)) hnames _

/-! ## §4 Texts -/

theorem parse_eq_ok_iff {text : Bytes} {s : Settings} :
    parse text = .ok s ↔ (readWhole record.read text).toOption = some s := by
  rw [toOption_eq_some_iff, parse]
  cases readWhole record.read text <;> simp

/-- A text that gives no settings is refused as a fault of the text. -/
theorem exists_parse_error {text : Bytes} (h : ∀ s, parse text ≠ .ok s) :
    ∃ fault, parse text = .error (.config (.badJson fault)) := by
  cases hread : readWhole record.read text with
  | error fault => exact ⟨fault, by rw [parse, hread]⟩
  | ok s => exact absurd (by rw [parse, hread]) (h s)

section Texts

variable {lead gap trail : Bytes} (hlead : Blank lead) (hgap : Blank gap)

include hlead hgap in
/-- **What a JSON object gives**: entries of different fields, one for each member. -/
theorem parse_object_eq_ok_iff {members : List (Bytes × Bytes)} (hkeys : ∀ m ∈ members, IsKey m.1)
    (hvalues : ∀ m ∈ members, IsElement m.2) (rest : Bytes) (s : Settings) :
    parse (lead ++ (objectText gap members ++ rest)) = .ok s ↔ Blank rest ∧
      ∃ entries : List Entry,
        List.Forall₂ (fun e m => Spells m.1 e.name ∧ e.Reads m.2) entries members ∧
        (entries.map Entry.name).Nodup ∧ s = entries.foldl put default := by
  rw [parse_eq_ok_iff, Record.toOption_readWhole_value hlead
    (Record.toOption_read_object steady_fields hgap hkeys hvalues), ← skipSpace_eq_nil_iff]
  have hgathered (s : Settings) :
      ((members.foldlM record.takeMember record.start).bind fun g =>
        (record.finish g).toOption) = some s ↔ ∃ entries : List Entry,
          List.Forall₂ (fun e m => Spells m.1 e.name ∧ e.Reads m.2) entries members ∧
          (entries.map Entry.name).Nodup ∧ s = entries.foldl put default := by
    rw [Option.bind_eq_some_iff]
    constructor
    · rintro ⟨g, hg, hs⟩
      obtain ⟨entries, hall, hnodup, -, rfl⟩ := (foldlM_takeMember_eq_some_iff _ _ _).mp hg
      refine ⟨entries, hall, hnodup, ?_⟩
      rw [← Option.some.inj hs]
      exact Given.complete_foldl_put entries Given.nothing
    · rintro ⟨entries, hall, hnodup, rfl⟩
      refine ⟨entries.foldl Given.put Given.nothing, (foldlM_takeMember_eq_some_iff _ _ _).mpr
        ⟨entries, hall, hnodup, fun e _ => Given.lacks_nothing e, rfl⟩, ?_⟩
      exact congrArg some (Given.complete_foldl_put entries Given.nothing)
  split
  · rename_i hblank
    rw [hgathered, and_iff_right hblank]
  · rename_i hblank
    exact ⟨fun h => (nomatch h), fun h => absurd h.1 hblank⟩

/-- The members of an object that gives settings are those of its entries. -/
theorem isElement_of_forall₂ {entries : List Entry} {members : List (Bytes × Bytes)}
    (h : List.Forall₂ Entry.IsMember entries members) :
    (∀ m ∈ members, IsKey m.1) ∧ (∀ m ∈ members, IsElement m.2) ∧
      List.Forall₂ (fun e m => Spells m.1 e.name ∧ e.Reads m.2) entries members := by
  induction h with
  | nil => exact ⟨by simp, by simp, .nil⟩
  | cons h _ ih =>
    obtain ⟨hkey, hspells, helement, hreads⟩ := h
    exact ⟨List.forall_mem_cons.mpr ⟨hkey, ih.1⟩, List.forall_mem_cons.mpr ⟨helement, ih.2.1⟩,
      .cons ⟨hspells, hreads⟩ ih.2.2⟩

include hlead hgap in
/-- An object of entries gives them. -/
theorem parse_object {trail : Bytes} (htrail : Blank trail) {entries : List Entry}
    {members : List (Bytes × Bytes)} (hnodup : (entries.map Entry.name).Nodup)
    (hall : List.Forall₂ Entry.IsMember entries members) :
    parse (lead ++ (objectText gap members ++ trail)) = .ok (entries.foldl put default) := by
  obtain ⟨hkeys, hvalues, hall⟩ := isElement_of_forall₂ hall
  exact (parse_object_eq_ok_iff hlead hgap hkeys hvalues trail _).mpr
    ⟨htrail, entries, hall, hnodup, rfl⟩

include hlead hgap in
/-- A list of entries gives them. -/
theorem parse_list {trail : Bytes} (htrail : Blank trail) {entries : List Entry}
    {items : List Bytes} (hnames : entries.map Entry.name <+: names)
    (hall : List.Forall₂ Entry.IsText entries items) :
    parse (lead ++ (listText gap items ++ trail)) = .ok (entries.foldl put default) := by
  have hitems : ∀ item ∈ items, IsElement item := by
    intro item hitem
    obtain ⟨i, hi, rfl⟩ := List.getElem_of_mem hitem
    exact ((List.forall₂_iff_get.mp hall).2 i (hall.length_eq ▸ hi) hi).1
  have htaken : record.takeItems record.fields record.start items =
      some (entries.foldl Given.put Given.nothing) :=
    takeItems_eq_some (hall.imp fun _ _ h => h.2) (fun f hf => hf) hnames Given.nothing
  rw [parse_eq_ok_iff, Record.toOption_readWhole_value hlead
    (Record.toOption_read_list steady_fields hgap hitems),
    if_pos (skipSpace_eq_nil_iff.mpr htrail), htaken]
  exact congrArg some (Given.complete_foldl_put entries Given.nothing)

include hlead hgap in
/-- **An object with a key that names no field is refused**, wherever the key stands. -/
theorem exists_parse_error_of_other {members : List (Bytes × Bytes)}
    (hkeys : ∀ m ∈ members, IsKey m.1) (hvalues : ∀ m ∈ members, IsElement m.2)
    {m : Bytes × Bytes} (hm : m ∈ members) (hother : ∀ name ∈ names, ¬ Spells m.1 name)
    (rest : Bytes) :
    ∃ fault, parse (lead ++ (objectText gap members ++ rest)) =
      .error (.config (.badJson fault)) := by
  refine exists_parse_error fun s hs => ?_
  obtain ⟨-, entries, hall, -, -⟩ :=
    (parse_object_eq_ok_iff hlead hgap hkeys hvalues rest s).mp hs
  obtain ⟨i, hi, rfl⟩ := List.getElem_of_mem hm
  have hspells := ((List.forall₂_iff_get.mp hall).2 i (hall.length_eq ▸ hi) hi).1
  exact hother _ (Entry.name_mem_names _) hspells

include hlead hgap in
/-- **An object that repeats a key is refused**, wherever the two stand. -/
theorem exists_parse_error_of_repeated {members : List (Bytes × Bytes)}
    (hkeys : ∀ m ∈ members, IsKey m.1) (hvalues : ∀ m ∈ members, IsElement m.2) {i j : Nat}
    (hij : i < j) (hj : j < members.length) {name : String} (hname : name ∈ names)
    (hi : Spells members[i].1 name) (hj' : Spells members[j].1 name) (rest : Bytes) :
    ∃ fault, parse (lead ++ (objectText gap members ++ rest)) =
      .error (.config (.badJson fault)) := by
  refine exists_parse_error fun s hs => ?_
  obtain ⟨-, entries, hall, hnodup, -⟩ :=
    (parse_object_eq_ok_iff hlead hgap hkeys hvalues rest s).mp hs
  obtain ⟨hlength, hspells⟩ := List.forall₂_iff_get.mp hall
  have hfirst : entries[i].name = name := eq_of_spells (Entry.name_mem_names _) hname
    (hspells i (by omega) (by omega)).1 hi
  have hsecond : entries[j].name = name := eq_of_spells (Entry.name_mem_names _) hname
    (hspells j (by omega) (by omega)).1 hj'
  have hdistinct := List.pairwise_iff_getElem.mp (List.pairwise_map.mp hnodup)
  exact hdistinct i j (by omega) (by omega) hij (hfirst.trans hsecond.symm)

include hlead in
/-- **A text that goes on behind its value is refused.** -/
theorem exists_parse_error_of_more {value rest : Bytes} (hvalue : IsValue value)
    (hrest : ¬ Blank rest) :
    ∃ fault, parse (lead ++ (value ++ rest)) = .error (.config (.badJson fault)) := by
  obtain ⟨x, hx⟩ := Record.exists_read_value steady_fields hvalue
  refine exists_parse_error fun s hs => ?_
  rw [parse_eq_ok_iff, Record.toOption_readWhole_value hlead hx,
    if_neg (mt skipSpace_eq_nil_iff.mp hrest)] at hs
  cases hs

include hlead hgap in
/-- **What a JSON text gives.** An object gives the default settings with the fields of its members
replaced, whatever subset of the fields these are, in whatever order they come and whatever blanks
stand between the tokens. A list gives the settings of the object with the first fields, as many as
it has items. An object with a key that names no field or comes twice is refused, whatever its
other members are, and so is a text that goes on behind its value. -/
theorem parse_gives_listed_fields {trail : Bytes} (htrail : Blank trail) :
    (∀ (entries : List Entry) (members : List (Bytes × Bytes)),
      (entries.map Entry.name).Nodup → List.Forall₂ Entry.IsMember entries members →
      parse (lead ++ (objectText gap members ++ trail)) = .ok (entries.foldl put default) ∧
      ∀ entries', entries.Perm entries' →
        entries.foldl put default = entries'.foldl put default) ∧
    (∀ (entries : List Entry) (items : List Bytes),
      entries.map Entry.name <+: names → List.Forall₂ Entry.IsText entries items →
      parse (lead ++ (listText gap items ++ trail)) = .ok (entries.foldl put default) ∧
      ∀ members, List.Forall₂ Entry.IsMember entries members →
        parse (lead ++ (listText gap items ++ trail)) =
          parse (lead ++ (objectText gap members ++ trail))) ∧
    (∀ (members : List (Bytes × Bytes)) (rest : Bytes),
      (∀ m ∈ members, IsKey m.1 ∧ IsElement m.2) →
      ((∃ m ∈ members, ∀ name ∈ names, ¬ Spells m.1 name) ∨
        ∃ name ∈ names, ∃ (i j : Nat) (m m' : Bytes × Bytes), i < j ∧ members[i]? = some m ∧
          members[j]? = some m' ∧ Spells m.1 name ∧ Spells m'.1 name) →
      ∃ fault, parse (lead ++ (objectText gap members ++ rest)) =
        .error (.config (.badJson fault))) ∧
    ∀ value rest, IsValue value → ¬ Blank rest →
      ∃ fault, parse (lead ++ (value ++ rest)) = .error (.config (.badJson fault)) := by
  refine ⟨fun entries members hnodup hall => ⟨parse_object hlead hgap htrail hnodup hall,
    fun entries' hperm => foldl_put_of_perm hperm hnodup default⟩,
    fun entries items hnames hall => ?_, fun members rest hmembers hbad => ?_,
    fun value rest hvalue hrest => exists_parse_error_of_more hlead hvalue hrest⟩
  · have hlist := parse_list hlead hgap htrail hnames hall
    refine ⟨hlist, fun members hobject => ?_⟩
    have hnodup : (entries.map Entry.name).Nodup := hnames.sublist.nodup nodup_names
    rw [hlist, parse_object hlead hgap htrail hnodup hobject]
  · have hkeys : ∀ m ∈ members, IsKey m.1 := fun m hm => (hmembers m hm).1
    have hvalues : ∀ m ∈ members, IsElement m.2 := fun m hm => (hmembers m hm).2
    rcases hbad with ⟨m, hm, hother⟩ | ⟨name, hname, i, j, m, m', hij, hi, hj, hspells, hspells'⟩
    · exact exists_parse_error_of_other hlead hgap hkeys hvalues hm hother rest
    · obtain ⟨hilt, rfl⟩ := List.getElem?_eq_some_iff.mp hi
      obtain ⟨hjlt, rfl⟩ := List.getElem?_eq_some_iff.mp hj
      exact exists_parse_error_of_repeated hlead hgap hkeys hvalues hij hjlt hname hspells hspells'
        rest

end Texts

/-- Two fields against the order of declaration, a list of one item, and three texts that are
refused. -/
theorem parse_gives_listed_fields_rate_and_loop :
    parse (Utf8.encode " \x7b\"loop_mode\": \x7b\"finite\":2\x7d,\"frame_rate\":30\x7d\n") =
      .ok { default with loopMode := .finite 2, frameRate := 30 } ∧
    parse (Utf8.encode " [\"a.png\"]\n") = .ok { default with input := Path.ofString "a.png" } ∧
    (∃ fault, parse (Utf8.encode " \x7b\"frame_rate\":30,\"frame_rate\":30\x7d\n") =
      .error (.config (.badJson fault))) ∧
    (∃ fault, parse (Utf8.encode " \x7b\"fps\":30\x7d\n") = .error (.config (.badJson fault))) ∧
    ∃ fault, parse (Utf8.encode " \x7b\x7d 30") = .error (.config (.badJson fault)) := by
  have hspace : Blank [0x20] := by decide +kernel
  have hline : Blank [0x0A] := by decide +kernel
  obtain ⟨hobjects, hlists, hrefused, hmore⟩ := parse_gives_listed_fields hspace blank_nil hline
  have hkey (name : String) (h : ∀ b ∈ Utf8.encode name,
      b ≠ quoteOctet ∧ b ≠ backslash ∧ ¬ b < 0x20) :
      IsKey ([] ++ (stringText (Utf8.encode name) ++ [])) :=
    .mk blank_nil blank_nil (isInside_of_plain h)
  have hnumber (digits : Bytes) (h : IsWhole digits) : IsElement ([] ++ (digits ++ [])) :=
    .mk blank_nil blank_nil (.positive h.isMagnitude)
  have htimes : IsElement ([0x20] ++ (objectText []
      [([] ++ (stringText (Utf8.encode "finite") ++ []), [] ++ ([0x32] ++ []))] ++ [])) := by
    refine .mk hspace blank_nil (.object blank_nil ?_ ?_)
    · exact List.forall_mem_singleton.mpr (hkey "finite" (by decide +kernel))
    · exact List.forall_mem_singleton.mpr (hnumber [0x32] (by decide +kernel))
  have hloop : (Entry.loopMode (.finite 2)).IsMember
      ([] ++ (stringText (Utf8.encode "loop_mode") ++ []),
        [0x20] ++ (objectText [] [([] ++ (stringText (Utf8.encode "finite") ++ []),
          [] ++ ([0x32] ++ []))] ++ [])) :=
    ⟨hkey "loop_mode" (by decide +kernel), rfl, htimes, rfl⟩
  have hrate : (Entry.frameRate 30).IsMember
      ([] ++ (stringText (Utf8.encode "frame_rate") ++ []), [] ++ ([0x33, 0x30] ++ [])) :=
    ⟨hkey "frame_rate" (by decide +kernel), rfl, hnumber [0x33, 0x30] (by decide +kernel), rfl⟩
  have hinput : (Entry.input (Path.ofString "a.png")).IsText
      ([] ++ (stringText (Utf8.encode "a.png") ++ [])) :=
    ⟨(hkey "a.png" (by decide +kernel)).isElement, rfl⟩
  have hother : ∀ name ∈ names,
      ¬ Spells ([] ++ (stringText (Utf8.encode "fps") ++ [])) name := by
    intro name hname hspells
    have hdiffers : ∀ name ∈ names, Utf8.encode "fps" ≠ Utf8.encode name := by decide +kernel
    exact hdiffers name hname (Except.ok.inj hspells)
  refine ⟨?_, ?_, ?_, ?_, ?_⟩
  · exact Eq.trans (congrArg parse (by decide +kernel)) (hobjects
      [.loopMode (.finite 2), .frameRate 30] _ (by decide) (.cons hloop (.cons hrate .nil))).1
  · exact Eq.trans (congrArg parse (by decide +kernel))
      (hlists [.input (Path.ofString "a.png")] _ (by decide) (.cons hinput .nil)).1
  · obtain ⟨fault, hfault⟩ := hrefused [_, _] [0x0A]
      (by simpa using ⟨hrate.1, hrate.2.2.1⟩)
      (.inr ⟨"frame_rate", by decide, 0, 1, _, _, by decide, rfl, rfl, hrate.2.1, hrate.2.1⟩)
    exact ⟨fault, Eq.trans (congrArg parse (by decide +kernel)) hfault⟩
  · obtain ⟨fault, hfault⟩ := hrefused
      [([] ++ (stringText (Utf8.encode "fps") ++ []), [] ++ ([0x33, 0x30] ++ []))] [0x0A]
      (List.forall_mem_singleton.mpr ⟨hkey "fps" (by decide +kernel), hrate.2.2.1⟩)
      (.inl ⟨_, List.mem_singleton_self _, hother⟩)
    exact ⟨fault, Eq.trans (congrArg parse (by decide +kernel)) hfault⟩
  · obtain ⟨fault, hfault⟩ := hmore (objectText [] []) [0x20, 0x33, 0x30]
      (.object blank_nil (by simp) (by simp)) (by decide +kernel)
    exact ⟨fault, Eq.trans (congrArg parse (by decide +kernel)) hfault⟩

end HueCycle.Settings
