/-
HueCycle.Proofs.Files.Places — which place a path spells, and what becomes of
following it when files and directories change.

Following a path looks at every directory on the way and fails where one is
missing. The place that the path spells is the same walk without looking.
Wherever following succeeds it leads to that place, so statements about a
path can be made about one place, in every state of the file system.
-/
import Mathlib
import HueCycle.Files.Script

namespace HueCycle.Files.FileSystem

/-! ## §1 Storing and erasing -/

theorem lookup_filter_ne {p d : Place} (h : p ≠ d) (entries : List (Place × Entry)) :
    (entries.filter fun e => e.1 != d).lookup p = entries.lookup p := by
  induction entries with
  | nil => rfl
  | cons e rest ih =>
    obtain ⟨q, entry⟩ := e
    by_cases hq : q = d
    · subst hq
      have hp : (p == q) = false := beq_eq_false_iff_ne.mpr h
      rw [List.filter_cons_of_neg (by simp), ih, List.lookup_cons, hp]
    · rw [List.filter_cons_of_pos (by simpa using hq), List.lookup_cons, List.lookup_cons, ih]

theorem lookup_filter_self (d : Place) (entries : List (Place × Entry)) :
    (entries.filter fun e => e.1 != d).lookup d = none := by
  rw [List.lookup_eq_none_iff]
  intro e he
  have hne := (List.mem_filter.mp he).2
  simp only [bne_iff_ne, ne_eq] at hne
  simpa using fun h => hne h.symm

@[simp] theorem cwd_put (fs : FileSystem) (d : Place) (e : Entry) : (fs.put d e).cwd = fs.cwd := rfl

theorem entry?_of_ne_nil (fs : FileSystem) {p : Place} (hp : p ≠ []) :
    fs.entry? p = fs.entries.lookup p := if_neg hp

/-- What is stored at a place is found there. -/
theorem entry?_put_self (fs : FileSystem) {d : Place} (hd : d ≠ []) (e : Entry) :
    FileSystem.entry? (fs.put d e) d = some e := by
  rw [entry?_of_ne_nil _ hd]
  simp [put]

/-- Storing changes no other place. -/
theorem entry?_put_of_ne (fs : FileSystem) {d p : Place} (h : p ≠ d) (e : Entry) :
    FileSystem.entry? (fs.put d e) p = fs.entry? p := by
  have hbeq : (p == d) = false := beq_eq_false_iff_ne.mpr h
  by_cases hp : p = []
  · rw [hp]
    rfl
  · rw [entry?_of_ne_nil _ hp, entry?_of_ne_nil _ hp]
    simp only [put, List.lookup_cons, hbeq, lookup_filter_ne h]

theorem entry?_erase_self (fs : FileSystem) {d : Place} (hd : d ≠ []) :
    FileSystem.entry? (fs.erase d) d = none := by
  rw [entry?_of_ne_nil _ hd]
  exact lookup_filter_self d fs.entries

/-- Erasing changes no other place. -/
theorem entry?_erase_of_ne (fs : FileSystem) {d p : Place} (h : p ≠ d) :
    FileSystem.entry? (fs.erase d) p = fs.entry? p := by
  by_cases hp : p = []
  · rw [hp]
    rfl
  · rw [entry?_of_ne_nil _ hp, entry?_of_ne_nil _ hp]
    exact lookup_filter_ne h fs.entries

/-! ## §2 The place that a path spells -/

/-- The names and dots between the slashes of a path. -/
def segments (path : Path) : List Bytes := (Path.cut path.bytes).filter (· ≠ [])

/-- The place that a step leads to. -/
def Last.place (directory : Place) : Last → Place
  | .root => []
  | .here => directory
  | .up => directory.dropLast
  | .name octets => directory ++ [octets]

/-- One step of a walk that looks at nothing. -/
def step (place : Place) (segment : Bytes) : Place := (Last.of segment).place place

/-- Where relative and absolute paths start. -/
def start (fs : FileSystem) (path : Path) : Place := if path.isAbsolute then [] else fs.cwd

/-- The place that a path spells, whether or not something is there. -/
def placeOf (fs : FileSystem) (path : Path) : Place := (segments path).foldl step (fs.start path)

theorem placeOf_congr {fs fs' : FileSystem} (h : fs'.cwd = fs.cwd) (path : Path) :
    fs'.placeOf path = fs.placeOf path := by
  rw [placeOf, placeOf, start, start, h]

/-- Going through directories leads where the walk leads. -/
theorem eq_foldl_of_descend {fs : FileSystem} {place d : Place} {segs : List Bytes}
    (h : fs.descend place segs = .ok d) : d = segs.foldl step place := by
  induction segs generalizing place with
  | nil =>
    rw [descend, Except.ok.injEq] at h
    exact h.symm
  | cons segment rest ih =>
    rw [List.foldl_cons, step]
    unfold descend at h
    split at h
    · rename_i hup
      rw [hup]
      exact ih h
    · rename_i name hname
      rw [hname]
      split at h
      · cases h
      · split at h
        · cases h
        · cases h
        · exact ih h
    · rename_i hup hname
      have hstay : (Last.of segment).place place = place := by
        unfold Last.of at *
        split_ifs at *
        · rfl
        · exact absurd rfl hup
        · exact absurd rfl (hname _)
      rw [hstay]
      exact ih h

/-- A path without a name or a dot starts at the root, unless it is empty. -/
theorem isAbsolute_of_segments_eq_nil {path : Path} (h : segments path = [])
    (hne : path.bytes ≠ []) : path.isAbsolute = true := by
  obtain ⟨b, rest, hbytes⟩ := List.exists_cons_of_ne_nil hne
  by_cases hb : b = Path.slash
  · rw [Path.isAbsolute, hbytes, hb]
    rfl
  · exfalso
    obtain ⟨first, others, hcut⟩ := List.exists_cons_of_ne_nil (Path.cut_ne_nil rest)
    rw [segments, hbytes, Path.cut, if_neg hb, hcut] at h
    simp at h

/-- What following a path up to its last step finds out. -/
theorem locate_eq_ok {fs : FileSystem} {path : Path} {l : Located} (h : fs.locate path = .ok l) :
    (segments path = [] ∧ path.isAbsolute = true ∧ l = ⟨[], .root, false⟩) ∨
      ∃ init last, segments path = init ++ [last] ∧
        fs.descend (fs.start path) init = .ok l.directory ∧ l.last = Last.of last ∧
        l.slash = decide (path.bytes.getLast? = some Path.slash) := by
  unfold locate at h
  split at h
  · cases h
  · rename_i hne
    split at h
    · cases h
    · have hsegments : (Path.cut path.bytes).filter (· ≠ []) = segments path := rfl
      simp only [hsegments] at h
      split at h
      · rename_i hlast
        rw [List.getLast?_eq_none_iff] at hlast
        rw [Except.ok.injEq] at h
        exact .inl ⟨hlast, isAbsolute_of_segments_eq_nil hlast hne, h.symm⟩
      · rename_i last hlast
        have hsplit := List.dropLast_append_getLast? last hlast
        split at h
        · cases h
        · rename_i directory hdescend
          rw [Except.ok.injEq] at h
          subst h
          exact .inr ⟨_, last, hsplit.symm, hdescend, rfl, rfl⟩

/-- Followed up to its last step, a path has come to the place it spells. -/
theorem placeOf_of_locate {fs : FileSystem} {path : Path} {l : Located}
    (h : fs.locate path = .ok l) : fs.placeOf path = l.last.place l.directory := by
  rcases locate_eq_ok h with ⟨hnil, habs, rfl⟩ | ⟨init, last, hsegments, hdescend, hlast, -⟩
  · rw [placeOf, hnil, start, if_pos habs]
    rfl
  · rw [placeOf, hsegments, List.foldl_append, ← eq_foldl_of_descend hdescend, hlast]
    rfl

/-- **Wherever a path can be followed, it leads to the place it spells.** -/
theorem eq_placeOf_of_resolve {fs : FileSystem} {path : Path} {place : Place}
    (h : fs.resolve path = .ok place) : place = fs.placeOf path := by
  unfold resolve at h
  split at h
  · cases h
  · rename_i l hl
    rw [placeOf_of_locate hl]
    split at h
    · rename_i hlast
      rw [hlast, ← Except.ok.inj h]
      rfl
    · rename_i hlast
      rw [hlast, ← Except.ok.inj h]
      rfl
    · rename_i hlast
      rw [hlast, ← Except.ok.inj h]
      rfl
    · rename_i name hlast
      rw [hlast]
      split at h
      · cases h
      · split at h
        · cases h
        · split at h
          · cases h
          · rw [← Except.ok.inj h]
            rfl
        · rw [← Except.ok.inj h]
          rfl

/-! ## §3 Following a path in a changed file system -/

/-- All directories of one state are directories of another. -/
def KeepsDirectories (fs fs' : FileSystem) : Prop :=
  ∀ p, fs.entry? p = some .directory → fs'.entry? p = some .directory

theorem descend_mono {fs fs' : FileSystem} (hdir : KeepsDirectories fs fs') {place d : Place}
    {segs : List Bytes} (h : fs.descend place segs = .ok d) :
    fs'.descend place segs = .ok d := by
  induction segs generalizing place with
  | nil => exact h
  | cons segment rest ih =>
    unfold descend at h ⊢
    split at h
    · exact ih h
    · split at h
      · cases h
      · rename_i hlength
        rw [if_neg hlength]
        split at h
        · cases h
        · cases h
        · rename_i hentry
          rw [hdir _ hentry]
          exact ih h
    · exact ih h

/-- A path that can be followed up to its last step still can while no directory
goes away. -/
theorem locate_mono {fs fs' : FileSystem} (hcwd : fs'.cwd = fs.cwd)
    (hdir : KeepsDirectories fs fs') {path : Path} {l : Located} (h : fs.locate path = .ok l) :
    fs'.locate path = .ok l := by
  unfold locate at h ⊢
  rw [hcwd]
  split at h
  · cases h
  · rename_i hne
    rw [if_neg hne]
    split at h
    · cases h
    · rename_i hlength
      rw [if_neg hlength]
      dsimp only at h ⊢
      split at h
      · exact h
      · split at h
        · cases h
        · rename_i directory hdescend
          simp only [descend_mono hdir hdescend]
          exact h

/-- A path that leads to something still leads there while no directory goes
away and a file at its end stays one. -/
theorem resolve_mono {fs fs' : FileSystem} (hcwd : fs'.cwd = fs.cwd)
    (hdir : KeepsDirectories fs fs') {path : Path} {place : Place}
    (hfile : ∀ c, fs.entry? place = some (.file c) → ∃ c', fs'.entry? place = some (.file c'))
    (h : fs.resolve path = .ok place) : fs'.resolve path = .ok place := by
  unfold resolve at h ⊢
  split at h
  · cases h
  · rename_i l hl
    rw [locate_mono hcwd hdir hl]
    dsimp only
    split at h
    · exact h
    · exact h
    · exact h
    · split at h
      · cases h
      · rename_i hlength
        rw [if_neg hlength]
        split at h
        · cases h
        · rename_i c hentry
          split at h
          · cases h
          · rename_i hslash
            obtain rfl := Except.ok.inj h
            obtain ⟨c', hentry'⟩ := hfile c hentry
            rw [hentry']
            simp only [if_neg hslash]
        · rename_i hentry
          obtain rfl := Except.ok.inj h
          rw [hdir _ hentry]

/-! ## §4 Calls on one file -/

theorem keepsDirectories_put_file (fs : FileSystem) {d : Place} (hd : d ≠ [])
    (h : fs.entry? d ≠ some .directory) (content : Bytes) :
    KeepsDirectories fs (fs.put d (.file content)) := by
  intro p hp
  have hne : p ≠ d := by
    rintro rfl
    exact h hp
  rw [entry?_put_of_ne fs hne, hp]

theorem keepsDirectories_erase (fs : FileSystem) {d : Place}
    (h : fs.entry? d ≠ some .directory) : KeepsDirectories fs (fs.erase d) := by
  intro p hp
  have hne : p ≠ d := by
    rintro rfl
    exact h hp
  rw [entry?_erase_of_ne fs hne, hp]

/-- A path to a file leads to it whatever its contents become. -/
theorem resolve_put_file {fs : FileSystem} {path : Path} {place : Place} {c : Bytes}
    (hplace : place ≠ []) (h : fs.resolve path = .ok place)
    (hentry : fs.entry? place = some (.file c)) (content : Bytes) :
    (fs.put place (.file content)).resolve path = .ok place := by
  have hdir : fs.entry? place ≠ some .directory := by simp [hentry]
  exact resolve_mono (cwd_put _ _ _) (keepsDirectories_put_file fs hplace hdir content)
    (fun _ _ => ⟨content, entry?_put_self fs hplace _⟩) h

theorem write_eq_ok {fs : FileSystem} {path : Path} {place : Place} {c : Bytes}
    (h : fs.resolve path = .ok place) (hentry : fs.entry? place = some (.file c))
    (content : Bytes) : fs.write path content = .ok (fs.put place (.file content)) := by
  simp only [write, h, hentry]

theorem remove_eq {fs : FileSystem} {path : Path} {place : Place} {c : Bytes}
    (h : fs.resolve path = .ok place) (hentry : fs.entry? place = some (.file c)) :
    fs.remove path = fs.erase place := by
  simp only [remove, h, hentry]

/-- A directory is made where its path spells it, and only where nothing is. -/
theorem eq_put_of_makeDirectory {fs fs' : FileSystem} {path : Path}
    (h : fs.makeDirectory path = .ok fs') :
    fs.placeOf path ≠ [] ∧ fs.entry? (fs.placeOf path) = none ∧
      fs' = fs.put (fs.placeOf path) .directory := by
  unfold makeDirectory at h
  split at h
  · cases h
  · split at h
    · cases h
    · rename_i l hl
      split at h
      · rename_i name hlast
        have hplace : fs.placeOf path = l.directory ++ [name] := by
          rw [placeOf_of_locate hl, hlast]
          rfl
        split at h
        · cases h
        · split at h
          · cases h
          · rename_i hentry
            rw [hplace]
            exact ⟨by simp, hentry, (Except.ok.inj h).symm⟩
      · cases h

/-- A file is renamed to the place that the target spells. No directory gives way
to it, and reading the target then gives what the file held. -/
theorem eq_put_of_rename {fs fs' : FileSystem} {source target : Path} {place : Place} {c : Bytes}
    (hplace : place ≠ []) (hsource : fs.resolve source = .ok place)
    (hentry : fs.entry? place = some (.file c)) (h : fs.rename source target = .ok fs') :
    fs.placeOf target ≠ [] ∧ fs.entry? (fs.placeOf target) ≠ some .directory ∧
      fs' = (fs.erase place).put (fs.placeOf target) (.file c) ∧ fs'.read target = .ok c := by
  unfold rename at h
  split at h
  · cases h
  · rename_i hzero
    simp only [hsource] at h
    split at h
    · cases h
    · cases h
    · rename_i origin l horigin hl
      obtain rfl := Except.ok.inj horigin
      split at h
      · rename_i content name hcontent hlast
        rw [hentry, Option.some.injEq, Entry.file.injEq] at hcontent
        subst hcontent
        have htarget : fs.placeOf target = l.directory ++ [name] := by
          rw [placeOf_of_locate hl, hlast]
          rfl
        split at h
        · cases h
        · rename_i hlength
          split at h
          · cases h
          · rename_i hslash
            split at h
            · cases h
            · rename_i hnotdir
              rw [← htarget] at h hnotdir
              have hne : fs.placeOf target ≠ [] := by
                rw [htarget]
                simp
              obtain rfl := Except.ok.inj h
              refine ⟨hne, hnotdir, rfl, ?_⟩
              have herase : FileSystem.entry? (fs.erase place) (fs.placeOf target) ≠ some .directory := by
                by_cases hsame : fs.placeOf target = place
                · rw [hsame, entry?_erase_self fs hplace]
                  simp
                · rwa [entry?_erase_of_ne fs hsame]
              have hdir : KeepsDirectories fs ((fs.erase place).put (fs.placeOf target) (.file c)) :=
                fun p hp => keepsDirectories_put_file _ hne herase c p
                  (keepsDirectories_erase fs (by simp [hentry]) p hp)
              have hfound := entry?_put_self (fs.erase place) hne (.file c)
              have hcwd : ((fs.erase place).put (fs.placeOf target) (.file c)).cwd = fs.cwd := rfl
              have hlocate := locate_mono hcwd hdir hl
              simp only [read, if_neg hzero, resolve, hlocate, hlast, if_neg hlength]
              rw [← htarget, hfound]
              simp only [if_neg hslash, hfound]
      · cases h
      · cases h

end HueCycle.Files.FileSystem
