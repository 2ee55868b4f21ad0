/-
HueCycle.Proofs.Files.Contents — what files hold matters only to those who
read them.

Two file systems have one shape if the same places hold files and the same
places hold directories. Every call but that of reading looks at the shape
alone, so two scripts that differ only in what they write get the same
answers on file systems of one shape, and leave file systems of one shape
(`Script.Alike.run`). The replacement of a file is such a script: whether a
file can be put at a path depends neither on what it will hold nor on what
the others do.
-/
import Mathlib
import HueCycle.Proofs.Files.Replacement

namespace HueCycle.Files

/-! ## §1 File systems of one shape -/

/-- Two entries are both files, or both directories. -/
inductive Entry.SameKind : Entry → Entry → Prop
  | file (content content' : Bytes) : SameKind (.file content) (.file content')
  | directory : SameKind .directory .directory

theorem Entry.SameKind.refl (e : Entry) : e.SameKind e := by
  cases e with
  | file content => exact .file content content
  | directory => exact .directory

namespace FileSystem

/-- The same places hold files, and the same places hold directories. -/
structure SameShape (fs fs' : FileSystem) : Prop where
  cwd : fs'.cwd = fs.cwd
  entries : List.Forall₂ (fun e e' => e'.1 = e.1 ∧ e.2.SameKind e'.2) fs.entries fs'.entries

namespace SameShape

variable {fs fs' : FileSystem}

theorem refl (fs : FileSystem) : SameShape fs fs :=
  ⟨rfl, List.forall₂_same.mpr fun _ _ => ⟨rfl, .refl _⟩⟩

/-- At any place both have nothing, or both a file, or both a directory. -/
theorem entry (h : SameShape fs fs') (p : Place) :
    (fs.entry? p = none ∧ fs'.entry? p = none) ∨
      (∃ content content', fs.entry? p = some (.file content) ∧
        fs'.entry? p = some (.file content')) ∨
      fs.entry? p = some .directory ∧ fs'.entry? p = some .directory := by
  by_cases hp : p = []
  · subst hp
    exact .inr (.inr ⟨rfl, rfl⟩)
  · rw [entry?_of_ne_nil _ hp, entry?_of_ne_nil _ hp]
    obtain ⟨-, hentries⟩ := h
    generalize fs.entries = entries at hentries ⊢
    generalize fs'.entries = entries' at hentries ⊢
    induction hentries with
    | nil => exact .inl ⟨rfl, rfl⟩
    | @cons e e' _ _ he _ ih =>
      obtain ⟨_, e⟩ := e
      obtain ⟨q, e'⟩ := e'
      obtain ⟨rfl, hkind⟩ := he
      rw [List.lookup_cons, List.lookup_cons]
      dsimp only
      cases p == q with
      | false => exact ih
      | true =>
        cases hkind with
        | file content content' => exact .inr (.inl ⟨content, content', rfl, rfl⟩)
        | directory => exact .inr (.inr ⟨rfl, rfl⟩)

theorem entry_eq_directory_iff (h : SameShape fs fs') (p : Place) :
    fs'.entry? p = some .directory ↔ fs.entry? p = some .directory := by
  rcases h.entry p with ⟨hfs, hfs'⟩ | ⟨_, _, hfs, hfs'⟩ | ⟨hfs, hfs'⟩ <;> simp [hfs, hfs']

/-- Storing entries of one kind at one place. -/
theorem put (h : SameShape fs fs') (d : Place) {e e' : Entry} (hkind : e.SameKind e') :
    SameShape (fs.put d e) (fs'.put d e') := by
  refine ⟨h.cwd, .cons ⟨rfl, hkind⟩ (List.rel_filter ?_ h.entries)⟩
  rintro a b ⟨hplace, -⟩
  simp only [hplace]

theorem erase (h : SameShape fs fs') (d : Place) : SameShape (fs.erase d) (fs'.erase d) := by
  refine ⟨h.cwd, List.rel_filter ?_ h.entries⟩
  rintro a b ⟨hplace, -⟩
  simp only [hplace]

/-! ### Following paths -/

theorem descend (h : SameShape fs fs') (place : Place) (segs : List Bytes) :
    fs'.descend place segs = fs.descend place segs := by
  induction segs generalizing place with
  | nil => rfl
  | cons segment rest ih =>
    unfold FileSystem.descend
    split
    · exact ih _
    · rename_i name _
      split
      · rfl
      · rcases h.entry (place ++ [name]) with ⟨hfs, hfs'⟩ | ⟨_, _, hfs, hfs'⟩ | ⟨hfs, hfs'⟩
        · rw [hfs, hfs']
        · rw [hfs, hfs']
        · rw [hfs, hfs']
          exact ih _
    · exact ih _

theorem locate (h : SameShape fs fs') (path : Path) : fs'.locate path = fs.locate path := by
  unfold FileSystem.locate
  simp only [h.cwd, h.descend]

theorem resolve (h : SameShape fs fs') (path : Path) : fs'.resolve path = fs.resolve path := by
  unfold FileSystem.resolve
  rw [h.locate]
  cases fs.locate path with
  | error e => rfl
  | ok l =>
    dsimp only
    split
    · rfl
    · rfl
    · rfl
    · rename_i name _
      split
      · rfl
      · rcases h.entry (l.directory ++ [name]) with ⟨hfs, hfs'⟩ | ⟨_, _, hfs, hfs'⟩ | ⟨hfs, hfs'⟩ <;>
          rw [hfs, hfs']

theorem isDirectory (h : SameShape fs fs') (path : Path) :
    fs'.isDirectory path = fs.isDirectory path := by
  unfold FileSystem.isDirectory
  rw [h.resolve]
  cases fs.resolve path with
  | error e => rfl
  | ok place =>
    dsimp only
    rw [Bool.eq_iff_iff, Bool.and_eq_true, Bool.and_eq_true, beq_iff_eq, beq_iff_eq,
      h.entry_eq_directory_iff]

/-! ### Changes -/

/-- Two results of a change: one failure, or file systems of one shape. -/
inductive Changed : Except OsError FileSystem → Except OsError FileSystem → Prop
  | ok {after after' : FileSystem} : SameShape after after' → Changed (.ok after) (.ok after')
  | error (e : OsError) : Changed (.error e) (.error e)

theorem makeDirectory (h : SameShape fs fs') (path : Path) :
    Changed (fs.makeDirectory path) (fs'.makeDirectory path) := by
  unfold FileSystem.makeDirectory
  split
  · exact .error _
  · rw [h.locate]
    cases fs.locate path with
    | error e => exact .error _
    | ok l =>
      dsimp only
      split
      · rename_i name _
        split
        · exact .error _
        · rcases h.entry (l.directory ++ [name]) with
            ⟨hfs, hfs'⟩ | ⟨_, _, hfs, hfs'⟩ | ⟨hfs, hfs'⟩
          · rw [hfs, hfs']
            exact .ok (h.put _ .directory)
          · rw [hfs, hfs']
            exact .error _
          · rw [hfs, hfs']
            exact .error _
      · exact .error _

theorem write (h : SameShape fs fs') (path : Path) (content content' : Bytes) :
    Changed (fs.write path content) (fs'.write path content') := by
  unfold FileSystem.write
  rw [h.resolve]
  cases fs.resolve path with
  | error e => exact .error _
  | ok place =>
    dsimp only
    rcases h.entry place with ⟨hfs, hfs'⟩ | ⟨_, _, hfs, hfs'⟩ | ⟨hfs, hfs'⟩
    · rw [hfs, hfs']
      exact .error _
    · rw [hfs, hfs']
      exact .ok (h.put place (.file _ _))
    · rw [hfs, hfs']
      exact .error _

theorem rename (h : SameShape fs fs') (source target : Path) :
    Changed (fs.rename source target) (fs'.rename source target) := by
  unfold FileSystem.rename
  split
  · exact .error _
  · rw [h.resolve, h.locate]
    cases fs.resolve source with
    | error e => exact .error _
    | ok origin =>
      cases fs.locate target with
      | error e => exact .error _
      | ok l =>
        dsimp only
        rcases h.entry origin with ⟨hfs, hfs'⟩ | ⟨_, _, hfs, hfs'⟩ | ⟨hfs, hfs'⟩
        · rw [hfs, hfs']
          exact .error _
        · rw [hfs, hfs']
          cases l.last with
          | name name =>
            simp only [h.entry_eq_directory_iff]
            split
            · exact .error _
            · split
              · exact .error _
              · split
                · exact .error _
                · exact .ok ((h.erase origin).put _ (.file _ _))
          | here => exact .error _
          | up => exact .error _
          | root => exact .error _
        · rw [hfs, hfs']
          exact .error _

theorem remove (h : SameShape fs fs') (path : Path) :
    SameShape (fs.remove path) (fs'.remove path) := by
  unfold FileSystem.remove
  rw [h.resolve]
  cases fs.resolve path with
  | error e => exact h
  | ok place =>
    dsimp only
    rcases h.entry place with ⟨hfs, hfs'⟩ | ⟨_, _, hfs, hfs'⟩ | ⟨hfs, hfs'⟩
    · rw [hfs, hfs']
      exact h
    · rw [hfs, hfs']
      exact h.erase place
    · rw [hfs, hfs']
      exact h

end SameShape

end FileSystem

/-! ## §2 Scripts that differ in what they write -/

open FileSystem

/-- Two runs give the same answer and leave file systems of one shape. -/
def SameEnd {α : Type} (r r' : α × FileSystem) : Prop := r'.1 = r.1 ∧ SameShape r.2 r'.2

/-- Two calls that read nothing and differ at most in what they write. -/
inductive Call.Alike : {β : Type} → Call β → Call β → Prop
  | isDirectory (path : Path) : Alike (.isDirectory path) (.isDirectory path)
  | makeDirectory (path : Path) : Alike (.makeDirectory path) (.makeDirectory path)
  | makeTemporary (directory : Path) : Alike (.makeTemporary directory) (.makeTemporary directory)
  | write (path : Path) (content content' : Bytes) :
    Alike (.write path content) (.write path content')
  | sync (path : Path) : Alike (.sync path) (.sync path)
  | rename (source target : Path) : Alike (.rename source target) (.rename source target)
  | remove (path : Path) : Alike (.remove path) (.remove path)

section Calls

variable {fs fs' : FileSystem}

theorem sameEnd_attempt (h : SameShape fs fs') {r r' : Except OsError FileSystem}
    (hchanged : SameShape.Changed r r') : SameEnd (attempt fs r) (attempt fs' r') := by
  cases hchanged with
  | ok hafter => exact ⟨rfl, hafter⟩
  | error e => exact ⟨rfl, h⟩

/-- The same temporary file is found on both sides. -/
theorem makeTemporaryFrom_cases (h : SameShape fs fs') (directory : Path) (tries n : Nat) :
    (∃ temporary after after', SameShape after after' ∧
      fs.makeTemporaryFrom directory tries n = .ok (temporary, after) ∧
      fs'.makeTemporaryFrom directory tries n = .ok (temporary, after')) ∨
    ∃ e, fs.makeTemporaryFrom directory tries n = .error e ∧
      fs'.makeTemporaryFrom directory tries n = .error e := by
  induction tries generalizing n with
  | zero => exact .inr ⟨.exists, rfl, rfl⟩
  | succ tries ih =>
    unfold makeTemporaryFrom
    dsimp only
    rw [h.locate]
    cases fs.locate (directory.join ⟨temporaryName n⟩) with
    | error e => exact .inr ⟨e, rfl, rfl⟩
    | ok l =>
      dsimp only
      rcases h.entry (l.directory ++ [temporaryName n]) with
        ⟨hfs, hfs'⟩ | ⟨_, _, hfs, hfs'⟩ | ⟨hfs, hfs'⟩
      · rw [hfs, hfs']
        exact .inl ⟨_, _, _, h.put _ (.refl _), rfl, rfl⟩
      · rw [hfs, hfs']
        exact ih (n + 1)
      · rw [hfs, hfs']
        exact ih (n + 1)

/-- **Every call but that of reading looks at the shape alone.** -/
theorem Call.Alike.perform {β : Type} {c c' : Call β} (hc : c.Alike c') (h : SameShape fs fs') :
    SameEnd (c.perform fs) (c'.perform fs') := by
  cases hc with
  | isDirectory path => exact ⟨h.isDirectory path, h⟩
  | makeDirectory path => exact sameEnd_attempt h (h.makeDirectory path)
  | makeTemporary directory =>
    have hmade : fs.makeTemporary directory = if hasZero directory then .error .zeroOctet
        else fs.makeTemporaryFrom directory (fs.entries.length + 1) 0 := rfl
    have hmade' : fs'.makeTemporary directory = if hasZero directory then .error .zeroOctet
        else fs'.makeTemporaryFrom directory (fs.entries.length + 1) 0 := by
      rw [h.entries.length_eq]
      rfl
    rw [Call.perform, Call.perform, hmade, hmade']
    cases hasZero directory with
    | true => exact ⟨rfl, h⟩
    | false =>
      rw [if_neg Bool.false_ne_true, if_neg Bool.false_ne_true]
      rcases makeTemporaryFrom_cases h directory (fs.entries.length + 1) 0 with
        ⟨temporary, after, after', hafter, hfs, hfs'⟩ | ⟨e, hfs, hfs'⟩
      · rw [hfs, hfs']
        exact ⟨rfl, hafter⟩
      · rw [hfs, hfs']
        exact ⟨rfl, h⟩
  | write path content content' => exact sameEnd_attempt h (h.write path content content')
  | sync path =>
    refine ⟨?_, h⟩
    rw [Call.perform, Call.perform, h.resolve]
  | rename source target => exact sameEnd_attempt h (h.rename source target)
  | remove path => exact ⟨rfl, h.remove path⟩

end Calls

namespace Script

/-- Two scripts that read nothing and differ at most in what they write. -/
inductive Alike {α : Type} : Script α → Script α → Prop
  | done (a : α) : Alike (.done a) (.done a)
  | call {β : Type} {c c' : Call β} {next next' : β → Script α} :
    c.Alike c' → (∀ b, Alike (next b) (next' b)) → Alike (.call c next) (.call c' next')

namespace Alike

variable {α β : Type}

/-- **Such scripts end alike on file systems of one shape.** -/
theorem run {s s' : Script α} (hs : s.Alike s') {fs fs' : FileSystem} (h : SameShape fs fs') :
    SameEnd (s.run fs) (s'.run fs') := by
  induction hs generalizing fs fs' with
  | done a => exact ⟨rfl, h⟩
  | @call _ c c' next next' hc _ ih =>
    obtain ⟨hanswer, hshape⟩ := hc.perform h
    show SameEnd ((next (c.perform fs).1).run _) ((next' (c'.perform fs').1).run _)
    rw [hanswer]
    exact ih _ hshape

theorem bind {s s' : Script α} {f f' : α → Script β} (hs : s.Alike s')
    (hf : ∀ a, (f a).Alike (f' a)) : (s >>= f).Alike (s' >>= f') := by
  induction hs with
  | done a => exact hf a
  | call hc _ ih => exact .call hc ih

theorem ask {c c' : Call β} {f f' : β → Script α} (hc : c.Alike c')
    (hf : ∀ b, (f b).Alike (f' b)) : (Script.ask c >>= f).Alike (Script.ask c' >>= f') :=
  .call hc hf

end Alike

end Script

/-! ## §3 Replacing a file -/

section Replacement

open Script

variable {α β : Type}

theorem Job.alike_bind {j j' : Job α} {f f' : α → Job β} (hj : j.run.Alike j'.run)
    (hf : ∀ a, (f a).run.Alike (f' a).run) : (j >>= f).run.Alike (j' >>= f').run := by
  refine Alike.bind hj ?_
  intro answer
  cases answer with
  | ok a => exact hf a
  | error e => exact .done _

theorem Job.alike_ask {c c' : Call β} {f f' : β → Job α} (hc : c.Alike c')
    (hf : ∀ b, (f b).run.Alike (f' b).run) :
    (Job.ask c >>= f).run.Alike (Job.ask c' >>= f').run := .call hc hf

theorem alike_makeDirectories (steps : Nat) (path : Path) :
    (makeDirectories steps path).Alike (makeDirectories steps path) := by
  have hthere (path : Path) (e : OsError) : Alike (α := Except OsError Unit)
      (Script.ask (.isDirectory path) >>= fun there => pure (if there then .ok () else .error e))
      (Script.ask (.isDirectory path) >>= fun there => pure (if there then .ok () else .error e)) :=
    .ask (.isDirectory path) fun _ => .done _
  induction steps generalizing path with
  | zero => exact .done _
  | succ steps ih =>
    rw [makeDirectories]
    split
    · exact .done _
    · rename_i parent _
      split
      · exact .done _
      · refine .ask (.makeDirectory path) fun answer => ?_
        split
        · exact .done _
        · refine Alike.bind (ih parent) fun answer => ?_
          split
          · exact .done _
          · refine .ask (.makeDirectory path) fun answer => ?_
            split
            · exact .done _
            · exact hthere path _
        · exact hthere path _

theorem alike_makeParent (path : Path) : (makeParent path).run.Alike (makeParent path).run := by
  rw [makeParent]
  split
  · exact .done _
  · rename_i parent _
    split
    · exact .done _
    · rw [Job.run_lift_bind]
      refine Alike.bind (alike_makeDirectories _ parent) fun answer => ?_
      split
      · exact .done _
      · exact .done _

theorem alike_giveUp (temporary : Path) (e : Error) :
    (giveUp temporary e : Job α).run.Alike (giveUp temporary e : Job α).run :=
  Job.alike_ask (.remove temporary) fun _ => .done _

/-- **Two replacements at one path are alike**, whatever contents they put there. -/
theorem alike_replaceFile (path : Path) (content content' : Bytes) :
    (replaceFile path content).run.Alike (replaceFile path content').run := by
  rw [replaceFile, replaceFile]
  refine Job.alike_bind (alike_makeParent path) fun _ => ?_
  refine Job.alike_ask (.makeTemporary _) fun answer => ?_
  split
  · exact .done _
  · rename_i temporary
    refine Job.alike_ask (.write temporary content content') fun answer => ?_
    split
    · exact alike_giveUp temporary _
    · refine Job.alike_ask (.sync temporary) fun answer => ?_
      split
      · exact alike_giveUp temporary _
      · refine Job.alike_ask (.rename temporary path) fun answer => ?_
        split
        · exact alike_giveUp temporary _
        · exact .done _

end Replacement

/-! ## §4 Other contents at one place -/

/-- Two file systems of one shape whose contents differ at one place at most. -/
structure FileSystem.SameBut (p : Place) (fs fs' : FileSystem) : Prop extends SameShape fs fs' where
  elsewhere : ∀ q, q ≠ p → fs'.entry? q = fs.entry? q

section Elsewhere

variable {fs fs' after : FileSystem} {p : Place} {path : Path} {content : Bytes}

/-- What was read and does not lie at the place is read as before. -/
theorem FileSystem.SameBut.read (h : SameBut p fs fs') (hplace : fs.resolve path ≠ .ok p) :
    fs'.read path = fs.read path := by
  unfold FileSystem.read
  rw [h.resolve]
  cases hresolve : fs.resolve path with
  | error e => rfl
  | ok q =>
    have hne : q ≠ p := fun heq => hplace (heq ▸ hresolve)
    dsimp only
    rw [h.elsewhere q hne]

/-- After a replacement a place that did not get the contents is as it was, or a directory. -/
theorem entry_of_over {answer : Except Error Unit} (h : Over fs path content answer after)
    {q : Place} (hq : answer = .ok () → q ≠ fs.placeOf path) :
    after.entry? q = fs.entry? q ∨ after.entry? q = some .directory := by
  have hgrown : ∃ spare : Option Place, q ∉ spare ∧ Grown fs path spare after := by
    cases answer with
    | error e => exact ⟨none, by simp, h⟩
    | ok u => exact ⟨some (fs.placeOf path), fun hmem => hq rfl (Option.some.inj hmem).symm, h.grown⟩
  obtain ⟨spare, hspare, hgrown⟩ := hgrown
  rcases hgrown.entry q hspare with hsame | ⟨-, hdirectory⟩
  · exact .inl hsame
  · exact .inr hdirectory

/-- **A replacement does not see the contents of other files**: it ends alike, and leaves alike
what was alike. -/
theorem sameBut_replaceFile (h : SameBut p fs fs') (path : Path) (content : Bytes) :
    ((replaceFile path content).run.run fs').1 = ((replaceFile path content).run.run fs).1 ∧
      SameBut p ((replaceFile path content).run.run fs).2
        ((replaceFile path content).run.run fs').2 := by
  obtain ⟨hanswer, hshape⟩ := (alike_replaceFile path content content).run h.toSameShape
  have hover := (keeps_replaceFile _ fs path content).2 _ _
    (Script.ends_run (replaceFile path content).run fs)
  have hover' := (keeps_replaceFile _ fs' path content).2 _ _
    (Script.ends_run (replaceFile path content).run fs')
  rw [hanswer] at hover'
  generalize (replaceFile path content).run.run fs = ended at *
  generalize (replaceFile path content).run.run fs' = ended' at *
  refine ⟨hanswer, hshape, fun q hq => ?_⟩
  have hplace := placeOf_congr h.cwd path
  by_cases hnew : ended.1 = .ok () ∧ q = fs.placeOf path
  · obtain ⟨hok, rfl⟩ := hnew
    rw [hok] at hover hover'
    rw [Replaced.entry hover, ← hplace, Replaced.entry hover']
  · have hnot : ended.1 = .ok () → q ≠ fs.placeOf path := fun hok heq => hnew ⟨hok, heq⟩
    rcases entry_of_over hover hnot with hsame | hdirectory
    · rcases entry_of_over hover' (hplace.symm ▸ hnot) with hsame' | hdirectory'
      · rw [hsame, hsame', h.elsewhere q hq]
      · rw [hdirectory', (hshape.entry_eq_directory_iff q).mp hdirectory']
    · rw [hdirectory, (hshape.entry_eq_directory_iff q).mpr hdirectory]

end Elsewhere

/-- An entry with other contents; a directory has none. -/
def Entry.refill (content : Bytes) : Entry → Entry
  | .file _ => .file content
  | .directory => .directory

namespace FileSystem

/-- The file system with other contents in the file at a place, if there is one. -/
def refill (fs : FileSystem) (place : Place) (content : Bytes) : FileSystem :=
  { fs with entries := fs.entries.map fun e =>
      if e.1 = place then (e.1, e.2.refill content) else e }

variable {fs : FileSystem} {place : Place} {path : Path} {old content : Bytes}

theorem lookup_refill (entries : List (Place × Entry)) (q : Place) :
    (entries.map fun e => if e.1 = place then (e.1, e.2.refill content) else e).lookup q =
      if q = place then (entries.lookup q).map (Entry.refill content) else entries.lookup q := by
  induction entries with
  | nil => simp
  | cons e rest ih =>
    obtain ⟨r, e⟩ := e
    rw [List.map_cons]
    by_cases hqr : q = r
    · subst hqr
      by_cases hq : q = place
      · simp [hq]
      · simp [hq]
    · have hbeq : (q == r) = false := beq_eq_false_iff_ne.mpr hqr
      by_cases hr : r = place
      · simp only [hr, if_true]
        rw [hr] at hbeq
        simp only [List.lookup_cons, hbeq, ih]
      · simp only [hr, if_false, List.lookup_cons, hbeq, ih]

theorem sameBut_refill (fs : FileSystem) (place : Place) (content : Bytes) :
    SameBut place fs (fs.refill place content) := by
  refine ⟨⟨rfl, List.forall₂_map_right_iff.mpr (List.forall₂_same.mpr fun e _ => ?_)⟩, ?_⟩
  · obtain ⟨q, e⟩ := e
    by_cases hq : q = place
    · cases e with
      | file old => simpa [hq, Entry.refill] using Entry.SameKind.file old content
      | directory => simpa [hq, Entry.refill] using Entry.SameKind.directory
    · simpa [hq] using Entry.SameKind.refl e
  · intro q hq
    by_cases hroot : q = []
    · rw [hroot]
      rfl
    · rw [entry?_of_ne_nil _ hroot, entry?_of_ne_nil _ hroot, refill, lookup_refill, if_neg hq]

/-- What is read are the contents of a file that the path leads to. -/
theorem read_eq_ok_iff : fs.read path = .ok content ↔
    hasZero path = false ∧ fs.resolve path = .ok (fs.placeOf path) ∧
      fs.entry? (fs.placeOf path) = some (.file content) := by
  unfold FileSystem.read
  cases hasZero path with
  | true => simp
  | false =>
    cases hresolve : fs.resolve path with
    | error e => simp
    | ok q =>
      obtain rfl := eq_placeOf_of_resolve hresolve
      cases hentry : fs.entry? (fs.placeOf path) with
      | none => simp [hentry]
      | some e => cases e <;> simp [hentry]

/-- The file is read with its other contents. -/
theorem read_refill (h : fs.read path = .ok old) :
    FileSystem.read (fs.refill (fs.placeOf path) content) path = .ok content := by
  obtain ⟨hzero, hresolve, hentry⟩ := read_eq_ok_iff.mp h
  refine read_eq_ok_iff.mpr
    ⟨hzero, ((sameBut_refill fs _ content).resolve path).trans hresolve, ?_⟩
  have hroot : fs.placeOf path ≠ [] := by
    intro hnil
    rw [hnil] at hentry
    cases hentry
  have hplace : FileSystem.placeOf (fs.refill (fs.placeOf path) content) path = fs.placeOf path :=
    rfl
  rw [entry?_of_ne_nil _ hroot] at hentry
  rw [hplace, entry?_of_ne_nil _ hroot, refill, lookup_refill, if_pos rfl, hentry]
  rfl

end FileSystem

end HueCycle.Files
