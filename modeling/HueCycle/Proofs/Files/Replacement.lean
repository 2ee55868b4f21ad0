/-
HueCycle.Proofs.Files.Replacement — whoever looks at a path while its file is
replaced sees what was there before or all of the new contents.

A run goes through three stages. First directories above the path that were
missing are made, and nothing else changes (`Grown`). Then one file beside
the path is filled (`Beside`). Last that file takes the place of the path in
one step. From the second stage every failure leads back to the first.

The place of a path can itself be one of the directories that were missing
above it, as with `a/b/..`. Then it is made and stays, since nothing is
removed that was made on the way.
-/
import Mathlib
import HueCycle.Files.Replacement
import HueCycle.Proofs.Files.Faults

namespace HueCycle.Files

open FileSystem Script

/-! ## §1 Directories above a path -/

/-- A path that is reached from another one by dropping last components. -/
inductive Above (path : Path) : Path → Prop where
  | parent {q : Path} : path.parent? = some q → Above path q
  | next {q r : Path} : Above path q → q.parent? = some r → Above path r

/-- A place where nothing is and that a path above spells. -/
def Missing (fs : FileSystem) (path : Path) (place : Place) : Prop :=
  fs.entry? place = none ∧ ∃ q, Above path q ∧ place = fs.placeOf q

/-- Apart from a spare place everything is as in `fs`, or is a directory that was
missing above the path. -/
structure Grown (fs : FileSystem) (path : Path) (spare : Option Place) (state : FileSystem) :
    Prop where
  cwd : state.cwd = fs.cwd
  entry : ∀ p, p ∉ spare → state.entry? p = fs.entry? p ∨
    Missing fs path p ∧ state.entry? p = some .directory

namespace Grown

variable {fs state : FileSystem} {path : Path} {place : Place}

theorem refl (fs : FileSystem) (path : Path) : Grown fs path none fs := ⟨rfl, fun _ _ => .inl rfl⟩

/-- Where nothing is, nothing was. -/
theorem entry_eq_none (h : Grown fs path none state) (hp : state.entry? place = none) :
    fs.entry? place = none := by
  rcases h.entry place (by simp) with hsame | ⟨-, hdir⟩
  · rw [← hsame, hp]
  · rw [hdir] at hp
    cases hp

/-- Making a directory above the path. -/
theorem put_directory (h : Grown fs path none state) {q : Path} (hq : Above path q)
    (hne : state.placeOf q ≠ []) (hp : state.entry? (state.placeOf q) = none) :
    Grown fs path none (state.put (state.placeOf q) .directory) := by
  have hplace : state.placeOf q = fs.placeOf q := placeOf_congr h.cwd q
  refine ⟨h.cwd, ?_⟩
  intro p _
  by_cases hsame : p = state.placeOf q
  · subst hsame
    exact .inr ⟨⟨h.entry_eq_none hp, q, hq, hplace⟩, entry?_put_self state hne _⟩
  · rw [entry?_put_of_ne state hsame]
    exact h.entry p (by simp)

/-- Storing a file at the spare place. -/
theorem put_file {spare : Option Place} (h : Grown fs path spare state)
    (hspare : ∀ p, p ∈ spare → p = place) (content : Bytes) :
    Grown fs path (some place) (state.put place (.file content)) := by
  refine ⟨h.cwd, ?_⟩
  intro p hp
  have hne : p ≠ place := fun heq => hp (by rw [heq]; rfl)
  rw [entry?_put_of_ne state hne]
  exact h.entry p fun hmem => hne (hspare p hmem)

/-- Erasing what was stored at a place where nothing was. -/
theorem erase (h : Grown fs path (some place) state) (hplace : place ≠ [])
    (hp : fs.entry? place = none) : Grown fs path none (state.erase place) := by
  refine ⟨h.cwd, ?_⟩
  intro p _
  by_cases hsame : p = place
  · subst hsame
    rw [entry?_erase_self state hplace, hp]
    exact .inl rfl
  · rw [entry?_erase_of_ne state hsame]
    exact h.entry p fun hmem => hsame (Option.some.inj hmem).symm

end Grown

/-! ## §2 The stages of a run -/

/-- A temporary file beside the path holds `part`: its place was free, and
`temporary` leads to it. -/
structure Beside (fresh : Place → Prop) (fs : FileSystem) (path temporary : Path) (place : Place)
    (part : Bytes) (state : FileSystem) : Prop where
  grown : Grown fs path (some place) state
  isFresh : fresh place
  isBeside : ∃ name, place = fs.placeOf (directoryOf path) ++ [name]
  wasFree : fs.entry? place = none
  entry : state.entry? place = some (.file part)
  resolve : state.resolve temporary = .ok place

namespace Beside

variable {fresh : Place → Prop} {fs state : FileSystem} {path temporary : Path} {place : Place}
  {part : Bytes}

theorem place_ne_nil (h : Beside fresh fs path temporary place part state) : place ≠ [] := by
  obtain ⟨name, hname⟩ := h.isBeside
  rw [hname]
  simp

/-- A write finds the temporary file and fills it. -/
theorem write (h : Beside fresh fs path temporary place part state) (content : Bytes) :
    state.write temporary content = .ok (state.put place (.file content)) :=
  write_eq_ok h.resolve h.entry content

theorem put (h : Beside fresh fs path temporary place part state) (content : Bytes) :
    Beside fresh fs path temporary place content (state.put place (.file content)) where
  grown := h.grown.put_file (fun _ hp => (Option.some.inj hp).symm) content
  isFresh := h.isFresh
  isBeside := h.isBeside
  wasFree := h.wasFree
  entry := entry?_put_self state h.place_ne_nil _
  resolve := resolve_put_file h.place_ne_nil h.resolve h.entry content

/-- Removing it leads back to the first stage. -/
theorem remove (h : Beside fresh fs path temporary place part state) :
    Grown fs path none (state.remove temporary) := by
  rw [remove_eq h.resolve h.entry]
  exact h.grown.erase h.place_ne_nil h.wasFree

end Beside

/-- The contents are at the path. -/
structure Replaced (fs : FileSystem) (path : Path) (content : Bytes) (state : FileSystem) :
    Prop where
  grown : Grown fs path (some (fs.placeOf path)) state
  wasNoDirectory : fs.entry? (fs.placeOf path) ≠ some .directory
  entry : state.entry? (fs.placeOf path) = some (.file content)
  read : state.read path = .ok content

/-- Renaming puts the contents at the path. -/
theorem Beside.rename {fresh : Place → Prop} {fs state after : FileSystem} {path temporary : Path}
    {place : Place} {part : Bytes} (h : Beside fresh fs path temporary place part state)
    (hrename : state.rename temporary path = .ok after) : Replaced fs path part after := by
  obtain ⟨hne, hdir, rfl, hread⟩ := eq_put_of_rename h.place_ne_nil h.resolve h.entry hrename
  rw [placeOf_congr h.grown.cwd] at hne hdir hread ⊢
  have hback := h.grown.erase h.place_ne_nil h.wasFree
  refine ⟨hback.put_file (by simp) part, fun hwas => ?_, entry?_put_self _ hne _, hread⟩
  have hother : fs.placeOf path ∉ some place := by
    intro hmem
    rw [← Option.some.inj hmem, h.wasFree] at hwas
    cases hwas
  rcases h.grown.entry _ hother with hsame | ⟨hmissing, -⟩
  · exact hdir (hsame.trans hwas)
  · rw [hmissing.1] at hwas
    cases hwas

/-- A state that can be seen while a file is replaced. -/
inductive Stage (fresh : Place → Prop) (fs : FileSystem) (path : Path) (content : Bytes)
    (state : FileSystem) : Prop where
  | grown : Grown fs path none state → Stage fresh fs path content state
  | beside {temporary : Path} {place : Place} {part : Bytes} :
    Beside fresh fs path temporary place part state → Stage fresh fs path content state
  | replaced : Replaced fs path content state → Stage fresh fs path content state

/-- What holds when the replacement is over. -/
def Over (fs : FileSystem) (path : Path) (content : Bytes) :
    Except Error Unit → FileSystem → Prop
  | .ok (), after => Replaced fs path content after
  | .error _, after => Grown fs path none after

/-! ## §3 Making directories -/

section Runs

variable {fresh : Place → Prop} {fs state : FileSystem} {path : Path}

/-- One attempt to make a directory above the path. -/
theorem keeps_makeDirectory {α : Type} {f : Except OsError Unit → Script α} {q : Path}
    (hq : Above path q) (h : Grown fs path none state)
    (hf : ∀ answer mid, Grown fs path none mid →
      Keeps fresh (Grown fs path none) (fun _ => Grown fs path none) (f answer) mid) :
    Keeps fresh (Grown fs path none) (fun _ => Grown fs path none)
      (Script.ask (.makeDirectory q) >>= f) state := by
  refine Keeps.ask h (fun _ hshown => hshown.elim) fun answer mid hanswer => hf answer mid ?_
  rcases hanswer with ⟨-, hmade⟩ | ⟨-, rfl⟩
  · obtain ⟨hne, hfree, rfl⟩ := eq_put_of_makeDirectory hmade
    exact h.put_directory hq hne hfree
  · exact h

/-- A directory that could not be made may be there already. -/
theorem keeps_isDirectory (q : Path) (e : OsError) (h : Grown fs path none state) :
    Keeps fresh (Grown fs path none) (fun _ => Grown fs path none)
      (Script.ask (.isDirectory q) >>= fun there => pure (if there then .ok () else .error e) :
        Script (Except OsError Unit)) state := by
  refine Keeps.ask h (fun _ hshown => hshown.elim) ?_
  intro there mid hanswer
  obtain ⟨rfl, -⟩ := hanswer
  exact Keeps.pure h h

/-- Whatever fails on the way, only directories that were missing are made. -/
theorem keeps_makeDirectories (steps : Nat) {q : Path} (hq : Above path q)
    (h : Grown fs path none state) :
    Keeps fresh (Grown fs path none) (fun _ => Grown fs path none)
      (makeDirectories steps q) state := by
  induction steps generalizing q state with
  | zero => exact Keeps.pure h h
  | succ steps ih =>
    rw [makeDirectories]
    split
    · exact Keeps.pure h h
    · rename_i parent hparent
      split
      · exact Keeps.pure h h
      · refine keeps_makeDirectory hq h ?_
        intro answer mid hmid
        split
        · exact Keeps.pure hmid hmid
        · refine Keeps.bind (ih (hq.next hparent) hmid) ?_
          intro answer mid hmid
          split
          · exact Keeps.pure hmid hmid
          · refine keeps_makeDirectory hq hmid ?_
            intro answer mid hmid
            split
            · exact Keeps.pure hmid hmid
            · exact keeps_isDirectory q _ hmid
        · exact keeps_isDirectory q _ hmid

theorem keeps_makeParent (h : Grown fs path none state) :
    Keeps fresh (Grown fs path none) (fun _ => Grown fs path none) (makeParent path).run state := by
  rw [makeParent]
  split
  · exact Job.keeps_pure h h
  · rename_i parent hparent
    split
    · exact Job.keeps_pure h h
    · refine Job.keeps_lift (keeps_makeDirectories _ (.parent hparent) h) ?_
      intro answer mid hmid
      split
      · exact Job.keeps_pure hmid hmid
      · exact Job.keeps_throw hmid hmid

/-! ## §4 The whole replacement -/

variable {temporary : Path} {place : Place} {part : Bytes}

/-- Giving up removes the temporary file. -/
theorem keeps_giveUp (content : Bytes) (h : Beside fresh fs path temporary place part state)
    (e : Error) :
    Keeps fresh (Stage fresh fs path content) (Over fs path content)
      (giveUp temporary e : Job Unit).run state := by
  refine Job.keeps_ask (.beside h) (fun _ hshown => hshown.elim) ?_
  intro answer mid hanswer
  obtain rfl : mid = state.remove temporary := hanswer
  exact Job.keeps_throw (.grown h.remove) h.remove

/-- Every stage of a run, and its end. -/
theorem keeps_replaceFile (fresh : Place → Prop) (fs : FileSystem) (path : Path)
    (content : Bytes) :
    Keeps fresh (Stage fresh fs path content) (Over fs path content)
      (replaceFile path content).run fs := by
  have hparent : Keeps fresh (Stage fresh fs path content) (fun _ => Grown fs path none)
      (makeParent path).run fs :=
    (keeps_makeParent (.refl fs path)).mono (fun _ h => .grown h) (fun _ _ h => h)
  rw [replaceFile]
  refine Job.keeps_bind hparent ?_ (fun _ _ hmid => ⟨.grown hmid, hmid⟩)
  intro _ mid hmid
  refine Job.keeps_ask (.grown hmid) (fun _ hshown => hshown.elim) ?_
  intro answer mid' hmade
  rcases hmade with ⟨temporary, place, hfresh, ⟨⟨name, hname⟩, hfree, hresolve⟩, rfl, rfl⟩ |
    ⟨⟨e, rfl⟩, rfl⟩
  · have hbeside : Beside fresh fs path temporary place [] (mid.put place (.file [])) := {
      grown := hmid.put_file (by simp) []
      isFresh := hfresh
      isBeside := ⟨name, by rw [hname, placeOf_congr hmid.cwd]⟩
      wasFree := hmid.entry_eq_none hfree
      entry := entry?_put_self mid (by rw [hname]; simp) _
      resolve := hresolve }
    refine Job.keeps_ask (.beside hbeside) ?_ fun answer mid' hwritten => ?_
    · rintro seen ⟨count, hshown⟩
      rw [hbeside.write, Except.ok.injEq] at hshown
      exact hshown ▸ .beside (hbeside.put _)
    · rcases hwritten with ⟨rfl, hwritten⟩ | ⟨⟨e, rfl⟩, hwritten⟩
      · rw [hbeside.write, Except.ok.injEq] at hwritten
        have hfull := hwritten ▸ hbeside.put content
        refine Job.keeps_ask (.beside hfull) (fun _ hshown => hshown.elim) ?_
        intro answer last hsync
        obtain rfl : last = mid' := hsync
        split
        · exact keeps_giveUp content hfull _
        · refine Job.keeps_ask (.beside hfull) (fun _ hshown => hshown.elim)
            fun answer after hrenamed => ?_
          rcases hrenamed with ⟨rfl, hrenamed⟩ | ⟨⟨e, rfl⟩, rfl⟩
          · exact Job.keeps_pure (.replaced (hfull.rename hrenamed)) (hfull.rename hrenamed)
          · exact keeps_giveUp content hfull _
      · rcases hwritten with rfl | ⟨count, hwritten⟩
        · exact keeps_giveUp content hbeside _
        · rw [hbeside.write, Except.ok.injEq] at hwritten
          exact keeps_giveUp content (hwritten ▸ hbeside.put _) _
  · exact Job.keeps_throw (.grown hmid) hmid

end Runs

/-! ## §5 What can be seen -/

/-- A place holds what it held, or is a directory that was missing above the path. -/
def Untouched (fs : FileSystem) (path : Path) (state : FileSystem) (place : Place) : Prop :=
  state.entry? place = fs.entry? place ∨
    Missing fs path place ∧ state.entry? place = some .directory

namespace Stage

variable {fresh : Place → Prop} {fs state : FileSystem} {path : Path} {content : Bytes}

/-- The place of the path holds what it held, or all of the contents. -/
theorem old_or_new (h : Stage fresh fs path content state) (hfresh : ¬ fresh (fs.placeOf path)) :
    Untouched fs path state (fs.placeOf path) ∨
      state.entry? (fs.placeOf path) = some (.file content) := by
  cases h with
  | grown h => exact .inl (h.entry _ (by simp))
  | beside h =>
    refine .inl (h.grown.entry _ fun hmem => hfresh ?_)
    rw [← Option.some.inj hmem]
    exact h.isFresh
  | replaced h => exact .inr h.entry

/-- Elsewhere nothing changes, but for one file beside the path that is new. -/
theorem elsewhere (h : Stage fresh fs path content state) :
    ∃ spare : Option Place,
      (∀ p ∈ spare, fs.entry? p = none ∧ (∃ part, state.entry? p = some (.file part)) ∧
        ∃ name, p = fs.placeOf (directoryOf path) ++ [name]) ∧
      ∀ p, p ≠ fs.placeOf path → p ∉ spare → Untouched fs path state p := by
  cases h with
  | grown h => exact ⟨none, by simp, fun p _ _ => h.entry p (by simp)⟩
  | @beside _ place _ h =>
    refine ⟨some place, ?_, fun p _ hp => h.grown.entry p hp⟩
    intro p hp
    obtain rfl := Option.some.inj hp
    exact ⟨h.wasFree, ⟨_, h.entry⟩, h.isBeside⟩
  | replaced h =>
    exact ⟨none, by simp, fun p hp _ => h.grown.entry p fun hmem => hp (Option.some.inj hmem).symm⟩

theorem cwd (h : Stage fresh fs path content state) : state.cwd = fs.cwd := by
  cases h with
  | grown h => exact h.cwd
  | beside h => exact h.grown.cwd
  | replaced h => exact h.grown.cwd

theorem keepsDirectories (h : Stage fresh fs path content state) : KeepsDirectories fs state := by
  intro p hp
  have hkeep : Untouched fs path state p → state.entry? p = some .directory := by
    rintro (hsame | ⟨-, hdir⟩)
    · rw [hsame, hp]
    · exact hdir
  cases h with
  | grown h => exact hkeep (h.entry p (by simp))
  | beside h =>
    refine hkeep (h.grown.entry p ?_)
    intro hmem
    rw [← Option.some.inj hmem, h.wasFree] at hp
    cases hp
  | replaced h =>
    refine hkeep (h.grown.entry p ?_)
    intro hmem
    rw [← Option.some.inj hmem] at hp
    exact h.wasNoDirectory hp

/-- If the path led to something, it leads there in every state. -/
theorem resolve (h : Stage fresh fs path content state) (hfresh : ¬ fresh (fs.placeOf path))
    {place : Place} (hplace : fs.resolve path = .ok place) : state.resolve path = .ok place := by
  refine resolve_mono h.cwd h.keepsDirectories ?_ hplace
  intro c hc
  rw [eq_placeOf_of_resolve hplace] at hc ⊢
  rcases h.old_or_new hfresh with (hsame | ⟨hmissing, -⟩) | hnew
  · exact ⟨c, hsame.trans hc⟩
  · rw [hmissing.1] at hc
    cases hc
  · exact ⟨content, hnew⟩

end Stage

/-- **A file is replaced all or nothing**, whatever call fails and wherever the run is
interrupted. In every state the place of the path holds what it held or all of the new
contents; elsewhere only directories above the path that were missing are made, and one
temporary file beside it. After success it holds the contents, after a failure what it held,
and the temporary file is gone. The path leads to this place whenever it can be followed, and
can be followed in every state if it could before. -/
theorem replaceFile_old_or_new (fresh : Place → Prop) (fs : FileSystem) (path : Path)
    (content : Bytes) (hfresh : ¬ fresh (fs.placeOf path)) :
    (∀ state, (replaceFile path content).run.Shows fresh fs state →
      (Untouched fs path state (fs.placeOf path) ∨
        state.entry? (fs.placeOf path) = some (.file content)) ∧
      (∃ spare : Option Place,
        (∀ p ∈ spare, fs.entry? p = none ∧ (∃ part, state.entry? p = some (.file part)) ∧
          ∃ name, p = fs.placeOf (directoryOf path) ++ [name]) ∧
        ∀ p, p ≠ fs.placeOf path → p ∉ spare → Untouched fs path state p) ∧
      (∀ place, state.resolve path = .ok place → place = fs.placeOf path) ∧
      (∀ place, fs.resolve path = .ok place → state.resolve path = .ok place)) ∧
    (∀ after, (replaceFile path content).run.Ends fresh fs (.ok ()) after →
      after.read path = .ok content ∧ after.entry? (fs.placeOf path) = some (.file content) ∧
      ∀ p, p ≠ fs.placeOf path → Untouched fs path after p) ∧
    (∀ e after, (replaceFile path content).run.Ends fresh fs (.error e) after →
      ∀ p, Untouched fs path after p) := by
  obtain ⟨hshows, hends⟩ := keeps_replaceFile fresh fs path content
  refine ⟨?_, ?_, ?_⟩
  · intro state hstate
    have hstage := hshows state hstate
    refine ⟨hstage.old_or_new hfresh, hstage.elsewhere, ?_,
      fun place hplace => hstage.resolve hfresh hplace⟩
    intro place hplace
    rw [eq_placeOf_of_resolve hplace, placeOf_congr hstage.cwd]
  · intro after hend
    have hover : Replaced fs path content after := hends _ _ hend
    exact ⟨hover.read, hover.entry,
      fun p hp => hover.grown.entry p fun hmem => hp (Option.some.inj hmem).symm⟩
  · intro e after hend p
    have hover : Grown fs path none after := hends _ _ hend
    exact hover.entry p (by simp)

/-- A file of one octet gives way to two octets, never to one of them. -/
theorem replaceFile_old_or_new_file :
    let fs : FileSystem := ⟨[([[0x6F]], .file [1])], []⟩
    let path : Path := ⟨[0x6F]⟩
    let fresh : Place → Prop := fun place => place ≠ [[0x6F]]
    ¬ fresh (fs.placeOf path) ∧
      ∀ state, (replaceFile path [2, 3]).run.Shows fresh fs state →
        state.entry? [[0x6F]] = some (.file [1]) ∨ state.entry? [[0x6F]] = some (.file [2, 3]) := by
  intro fs path fresh
  have hplace : fs.placeOf path = [[0x6F]] := by decide
  have hfresh : ¬ fresh (fs.placeOf path) := fun h => h hplace
  refine ⟨hfresh, ?_⟩
  intro state hstate
  obtain ⟨hold, -⟩ := (replaceFile_old_or_new fresh fs path [2, 3] hfresh).1 state hstate
  rw [hplace] at hold
  rcases hold with (hsame | ⟨hmissing, -⟩) | hnew
  · exact .inl hsame
  · exact absurd hmissing.1 (by decide)
  · exact .inr hnew

/-- A path that goes up from a directory that is missing spells one that is missing above it:
the replacement fails, and the path, which led to nothing, leads to a directory. -/
theorem replaceFile_makes_its_own_path :
    let fs : FileSystem := ⟨[], []⟩
    let path : Path := ⟨[0x61, 0x2F, 0x62, 0x2F, 0x2E, 0x2E]⟩
    let ended := (replaceFile path [0x78]).run.run fs
    ended.1 = .error (.encode (.cannotReplace path .busy)) ∧
      fs.read path = .error (.cannotOpen .notFound) ∧
      ended.2.read path = .error (.cannotRead .isDirectory) ∧
      fs.entry? (fs.placeOf path) = none ∧
      FileSystem.entry? ended.2 (fs.placeOf path) = some .directory := by
  have hended : (replaceFile ⟨[0x61, 0x2F, 0x62, 0x2F, 0x2E, 0x2E]⟩ [0x78]).run.run ⟨[], []⟩ =
      (.error (.encode (.cannotReplace ⟨[0x61, 0x2F, 0x62, 0x2F, 0x2E, 0x2E]⟩ .busy)),
        ⟨[([[0x61], [0x62]], .directory), ([[0x61]], .directory)], []⟩) := rfl
  dsimp only
  rw [hended]
  exact ⟨rfl, rfl, rfl, rfl, rfl⟩

end HueCycle.Files
