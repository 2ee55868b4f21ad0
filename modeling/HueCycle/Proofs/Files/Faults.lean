/-
HueCycle.Proofs.Files.Faults — runs of scripts in which any call may fail.

On a file system that is a value a call fails only for reasons that the value
shows. On a machine it can fail for others: the disk is full, the rights are
missing. So a call is given every answer that a machine may give, with the
file system that goes with it. A failed call changes nothing, except that a
failed write may have written a beginning; a file that is removed is gone. A
script can also be interrupted, so its states are looked at as well as its
end: before and after every call, and in the course of a write.

`Keeps` is the rule book: what holds in every state of a run, and what holds
at its end with the answer given there.
-/
import Mathlib
import HueCycle.Proofs.Files.Places

namespace HueCycle.Files

/-! ## §1 Calls -/

/-- A temporary file in a directory: its name is one that was free, and the path
that is given out leads to it. -/
def FileSystem.OffersTemporary (fs : FileSystem) (directory temporary : Path) (place : Place) :
    Prop :=
  (∃ name, place = fs.placeOf directory ++ [name]) ∧ fs.entry? place = none ∧
    (fs.put place (.file [])).resolve temporary = .ok place

namespace Call

/-- The answers that a call may give, each with the file system afterwards.
`fresh` says which places a temporary file may be given. -/
def MayAnswer {β : Type} (fresh : Place → Prop) : Call β → FileSystem → β → FileSystem → Prop
  | .read path, fs, answer, after =>
    after = fs ∧ (answer = fs.read path ∨ ∃ fault, answer = .error fault)
  | .isDirectory path, fs, answer, after =>
    after = fs ∧ (answer = fs.isDirectory path ∨ answer = false)
  | .makeDirectory path, fs, answer, after =>
    (answer = .ok () ∧ fs.makeDirectory path = .ok after) ∨ (∃ e, answer = .error e) ∧ after = fs
  | .makeTemporary directory, fs, answer, after =>
    (∃ temporary place, fresh place ∧ fs.OffersTemporary directory temporary place ∧
      answer = .ok temporary ∧ after = fs.put place (.file [])) ∨
    (∃ e, answer = .error e) ∧ after = fs
  | .write path content, fs, answer, after =>
    (answer = .ok () ∧ fs.write path content = .ok after) ∨
    (∃ e, answer = .error e) ∧
      (after = fs ∨ ∃ count, fs.write path (content.take count) = .ok after)
  | .sync _, fs, _, after => after = fs
  | .rename source target, fs, answer, after =>
    (answer = .ok () ∧ fs.rename source target = .ok after) ∨ (∃ e, answer = .error e) ∧ after = fs
  | .remove path, fs, _, after => after = fs.remove path

/-- The states that can be seen in the course of a call: while a file is written,
it holds a beginning. -/
def Shows {β : Type} : Call β → FileSystem → FileSystem → Prop
  | .write path content, fs, state => ∃ count, fs.write path (content.take count) = .ok state
  | _, _, _ => False

end Call

/-! ## §2 Runs -/

namespace Script

/-- The answers with which a script may end, each with the file system afterwards. -/
def Ends {α : Type} (fresh : Place → Prop) : Script α → FileSystem → α → FileSystem → Prop
  | .done a, fs, answer, after => answer = a ∧ after = fs
  | .call c next, fs, answer, after =>
    ∃ b mid, c.MayAnswer fresh fs b mid ∧ (next b).Ends fresh mid answer after

/-- The states that can be seen in a run of a script. -/
def Shows {α : Type} (fresh : Place → Prop) : Script α → FileSystem → FileSystem → Prop
  | .done _, fs, state => state = fs
  | .call c next, fs, state =>
    state = fs ∨ c.Shows fs state ∨
      ∃ b mid, c.MayAnswer fresh fs b mid ∧ (next b).Shows fresh mid state

variable {α β : Type} {fresh : Place → Prop}

theorem bind_assoc {γ : Type} (s : Script α) (f : α → Script β) (g : β → Script γ) :
    (s.bind f).bind g = s.bind fun a => (f a).bind g := by
  induction s with
  | done a => rfl
  | call c next ih =>
    rw [bind, bind, bind]
    congr 1
    funext b
    exact ih b

/-- A sequence ends where its second part does. -/
theorem ends_bind {s : Script α} {f : α → Script β} {fs after : FileSystem} {answer : β} :
    (s.bind f).Ends fresh fs answer after ↔
      ∃ a mid, s.Ends fresh fs a mid ∧ (f a).Ends fresh mid answer after := by
  induction s generalizing fs with
  | done a =>
    constructor
    · intro h
      exact ⟨a, fs, ⟨rfl, rfl⟩, h⟩
    · rintro ⟨_, _, ⟨rfl, rfl⟩, h⟩
      exact h
  | call c next ih =>
    constructor
    · rintro ⟨b, mid, hanswer, hrest⟩
      obtain ⟨a, mid', hends, hlast⟩ := (ih b).mp hrest
      exact ⟨a, mid', ⟨b, mid, hanswer, hends⟩, hlast⟩
    · rintro ⟨a, mid', ⟨b, mid, hanswer, hends⟩, hlast⟩
      exact ⟨b, mid, hanswer, (ih b).mpr ⟨a, mid', hends, hlast⟩⟩

/-- A state of a sequence is one of its first part, or one of its second part
from where the first one ended. -/
theorem shows_bind {s : Script α} {f : α → Script β} {fs state : FileSystem}
    (h : (s.bind f).Shows fresh fs state) :
    s.Shows fresh fs state ∨ ∃ a mid, s.Ends fresh fs a mid ∧ (f a).Shows fresh mid state := by
  induction s generalizing fs with
  | done a => exact .inr ⟨a, fs, ⟨rfl, rfl⟩, h⟩
  | call c next ih =>
    rcases h with rfl | h | ⟨b, mid, hanswer, hrest⟩
    · exact .inl (.inl rfl)
    · exact .inl (.inr (.inl h))
    · rcases ih b hrest with h | ⟨a, mid', hends, hlast⟩
      · exact .inl (.inr (.inr ⟨b, mid, hanswer, h⟩))
      · exact .inr ⟨a, mid', ⟨b, mid, hanswer, hends⟩, hlast⟩

/-! ## §3 What a run keeps -/

/-- Every state of a run from `fs` on satisfies `P`, and every end with its answer
satisfies `Q`. -/
def Keeps (fresh : Place → Prop) (P : FileSystem → Prop) (Q : α → FileSystem → Prop)
    (s : Script α) (fs : FileSystem) : Prop :=
  (∀ state, s.Shows fresh fs state → P state) ∧
    ∀ answer after, s.Ends fresh fs answer after → Q answer after

variable {P : FileSystem → Prop} {Q : α → FileSystem → Prop} {R : β → FileSystem → Prop}
  {fs : FileSystem}

theorem Keeps.pure {a : α} (hP : P fs) (hQ : Q a fs) :
    Keeps fresh P Q (Pure.pure a : Script α) fs := by
  constructor
  · rintro state rfl
    exact hP
  · rintro answer after ⟨rfl, rfl⟩
    exact hQ

theorem Keeps.bind {s : Script α} {f : α → Script β} (hs : Keeps fresh P Q s fs)
    (hf : ∀ a mid, Q a mid → Keeps fresh P R (f a) mid) : Keeps fresh P R (s >>= f) fs := by
  constructor
  · intro state hstate
    rcases shows_bind hstate with h | ⟨a, mid, hends, hlast⟩
    · exact hs.1 state h
    · exact (hf a mid (hs.2 a mid hends)).1 state hlast
  · intro answer after hend
    obtain ⟨a, mid, hends, hlast⟩ := ends_bind.mp hend
    exact (hf a mid (hs.2 a mid hends)).2 answer after hlast

/-- One call: its own states, and for each of its answers the run that goes on. -/
theorem Keeps.ask {c : Call β} {f : β → Script α} (hP : P fs)
    (hshows : ∀ state, c.Shows fs state → P state)
    (hanswer : ∀ b mid, c.MayAnswer fresh fs b mid → Keeps fresh P Q (f b) mid) :
    Keeps fresh P Q (Script.ask c >>= f) fs := by
  constructor
  · rintro state (rfl | h | ⟨b, mid, h, hrest⟩)
    · exact hP
    · exact hshows state h
    · exact (hanswer b mid h).1 state hrest
  · rintro answer after ⟨b, mid, h, hrest⟩
    exact (hanswer b mid h).2 answer after hrest

/-- What is weaker is kept too. -/
theorem Keeps.mono {P' : FileSystem → Prop} {Q' : α → FileSystem → Prop} {s : Script α}
    (h : Keeps fresh P Q s fs) (hP : ∀ state, P state → P' state)
    (hQ : ∀ a after, Q a after → Q' a after) : Keeps fresh P' Q' s fs :=
  ⟨fun state hs => hP state (h.1 state hs), fun a after he => hQ a after (h.2 a after he)⟩

end Script

/-! ## §4 Jobs -/

namespace Job

open Script

variable {α β : Type} {fresh : Place → Prop} {P : FileSystem → Prop} {fs : FileSystem}
  {Q : Except Error α → FileSystem → Prop} {R : Except Error β → FileSystem → Prop}

theorem keeps_pure {a : α} (hP : P fs) (hQ : Q (.ok a) fs) :
    Keeps fresh P Q (Pure.pure a : Job α).run fs := Keeps.pure hP hQ

theorem keeps_throw {e : Error} (hP : P fs) (hQ : Q (.error e) fs) :
    Keeps fresh P Q (throw e : Job α).run fs := Keeps.pure hP hQ

/-- A job that goes on where another succeeds. -/
theorem keeps_bind {j : Job α} {f : α → Job β} (hj : Keeps fresh P Q j.run fs)
    (hok : ∀ a mid, Q (.ok a) mid → Keeps fresh P R (f a).run mid)
    (herror : ∀ e mid, Q (.error e) mid → P mid ∧ R (.error e) mid) :
    Keeps fresh P R (j >>= f).run fs := by
  refine Keeps.bind hj ?_
  intro answer mid h
  cases answer with
  | ok a => exact hok a mid h
  | error e => exact Keeps.pure (herror e mid h).1 (herror e mid h).2

theorem run_lift_bind (s : Script β) (f : β → Job α) :
    (ExceptT.lift s >>= f).run = s >>= fun b => (f b).run := by
  show (s.bind fun b => .done (Except.ok b)).bind _ = s.bind _
  rw [Script.bind_assoc]
  rfl

/-- A script inside of a job goes on with its answer. -/
theorem keeps_lift {s : Script β} {f : β → Job α} {S : β → FileSystem → Prop}
    (hs : Keeps fresh P S s fs) (hf : ∀ b mid, S b mid → Keeps fresh P Q (f b).run mid) :
    Keeps fresh P Q (ExceptT.lift s >>= f).run fs := by
  rw [run_lift_bind]
  exact Keeps.bind hs hf

/-- One call inside of a job. -/
theorem keeps_ask {c : Call β} {f : β → Job α} (hP : P fs)
    (hshows : ∀ state, c.Shows fs state → P state)
    (hanswer : ∀ b mid, c.MayAnswer fresh fs b mid → Keeps fresh P Q (f b).run mid) :
    Keeps fresh P Q (Job.ask c >>= f).run fs :=
  Keeps.ask hP hshows hanswer

/-- A sequence of jobs succeeds where its second part does. -/
theorem ends_bind_ok {j : Job α} {f : α → Job β} {after : FileSystem} {b : β} :
    (j >>= f).run.Ends fresh fs (.ok b) after ↔
      ∃ a mid, j.run.Ends fresh fs (.ok a) mid ∧ (f a).run.Ends fresh mid (.ok b) after := by
  constructor
  · intro h
    obtain ⟨answer, mid, hfirst, hrest⟩ := ends_bind.mp h
    cases answer with
    | ok a => exact ⟨a, mid, hfirst, hrest⟩
    | error e => cases hrest.1
  · rintro ⟨a, mid, hfirst, hrest⟩
    exact ends_bind.mpr ⟨.ok a, mid, hfirst, hrest⟩

/-- A sequence of jobs ends where its second part does, or where the first one fails. -/
theorem ends_bind {j : Job α} {f : α → Job β} {after : FileSystem} {answer : Except Error β} :
    (j >>= f).run.Ends fresh fs answer after ↔
      (∃ a mid, j.run.Ends fresh fs (.ok a) mid ∧ (f a).run.Ends fresh mid answer after) ∨
      ∃ e, j.run.Ends fresh fs (.error e) after ∧ answer = .error e := by
  constructor
  · intro h
    obtain ⟨first, mid, hfirst, hrest⟩ := Script.ends_bind.mp h
    cases first with
    | ok a => exact .inl ⟨a, mid, hfirst, hrest⟩
    | error e =>
      obtain ⟨rfl, rfl⟩ : answer = .error e ∧ after = mid := hrest
      exact .inr ⟨e, hfirst, rfl⟩
  · rintro (⟨a, mid, hfirst, hrest⟩ | ⟨e, hfirst, rfl⟩)
    · exact Script.ends_bind.mpr ⟨.ok a, mid, hfirst, hrest⟩
    · exact Script.ends_bind.mpr ⟨.error e, after, hfirst, rfl, rfl⟩

/-- What is computed from the answer of a job at its end. -/
theorem ends_map {j : Job α} {g : α → β} {after : FileSystem} {answer : Except Error β} :
    (j >>= fun a => Pure.pure (g a)).run.Ends fresh fs answer after ↔
      ∃ first, j.run.Ends fresh fs first after ∧ answer = first.map g := by
  rw [ends_bind]
  constructor
  · rintro (⟨a, mid, hfirst, rfl, rfl⟩ | ⟨e, hfirst, rfl⟩)
    · exact ⟨.ok a, hfirst, rfl⟩
    · exact ⟨.error e, hfirst, rfl⟩
  · rintro ⟨first, hfirst, rfl⟩
    cases first with
    | ok a => exact .inl ⟨a, after, hfirst, rfl, rfl⟩
    | error e => exact .inr ⟨e, hfirst, rfl⟩

/-- A job goes on with what was computed, -/
theorem of_ok_bind (a : α) (f : α → Job β) : (Job.of (.ok a) >>= f) = f a := rfl

/-- or ends where nothing could be. -/
theorem of_error_bind (e : Error) (f : α → Job β) :
    (Job.of (.error e) >>= f) = (throw e : Job β) := rfl

theorem ends_throw {e : Error} {answer : Except Error α} {after : FileSystem} :
    (throw e : Job α).run.Ends fresh fs answer after ↔ answer = .error e ∧ after = fs := Iff.rfl

/-- An answer that was computed without files leaves them alone. -/
theorem ends_of {computed answer : Except Error α} {after : FileSystem} :
    (Job.of computed).run.Ends fresh fs answer after ↔ answer = computed ∧ after = fs := Iff.rfl

/-- A call inside of a job is answered first. -/
theorem ends_ask {c : Call β} {f : β → Job α} {answer : Except Error α} {after : FileSystem} :
    (Job.ask c >>= f).run.Ends fresh fs answer after ↔
      ∃ b mid, c.MayAnswer fresh fs b mid ∧ (f b).run.Ends fresh mid answer after := Iff.rfl

end Job

/-! ## §5 Names of temporary files -/

namespace FileSystem

theorem cut_append_slash (before after : Bytes) :
    Path.cut (before ++ Path.slash :: after) = Path.cut before ++ Path.cut after := by
  induction before with
  | nil =>
    rw [List.nil_append, Path.cut]
    exact if_pos rfl
  | cons b rest ih =>
    rw [List.cons_append, Path.cut, Path.cut, ih]
    split
    · rfl
    · obtain ⟨segment, others, hcut⟩ := List.exists_cons_of_ne_nil (Path.cut_ne_nil rest)
      rw [hcut]
      rfl

theorem cut_of_not_mem {name : Bytes} (h : Path.slash ∉ name) : Path.cut name = [name] := by
  induction name with
  | nil => rfl
  | cons b rest ih =>
    rw [List.mem_cons, not_or] at h
    rw [Path.cut, if_neg (Ne.symm h.1), ih h.2]

/-- A name joined to a directory is one segment more. -/
theorem segments_join (directory : Path) {name : Bytes} (hslash : Path.slash ∉ name)
    (hne : name ≠ []) :
    segments (directory.join ⟨name⟩) = segments directory ++ [name] ∧
      (directory.join ⟨name⟩).isAbsolute = directory.isAbsolute ∧
      (directory.join ⟨name⟩).bytes.getLast? = name.getLast? := by
  obtain ⟨b, rest, rfl⟩ := List.exists_cons_of_ne_nil hne
  have hb : b ≠ Path.slash := fun h => hslash (h ▸ List.mem_cons_self)
  have hrelative : (⟨b :: rest⟩ : Path).isAbsolute = false := by simpa [Path.isAbsolute] using hb
  have hname : (Path.cut (b :: rest)).filter (· ≠ []) = [b :: rest] := by
    rw [cut_of_not_mem hslash]
    simp
  rw [Path.join, hrelative, if_neg (by simp)]
  split
  · rename_i hends
    rcases hends with hempty | hends
    · obtain ⟨bytes⟩ := directory
      obtain rfl : bytes = [] := hempty
      exact ⟨hname, by rw [List.nil_append, hrelative]; rfl, rfl⟩
    · obtain ⟨before, hbefore⟩ := List.getLast?_eq_some_iff.mp hends
      have habs : (⟨directory.bytes ++ b :: rest⟩ : Path).isAbsolute = directory.isAbsolute := by
        rw [Path.isAbsolute, Path.isAbsolute, hbefore]
        cases before <;> rfl
      refine ⟨?_, habs, List.getLast?_append_of_ne_nil _ hne⟩
      rw [segments, segments, hbefore, List.append_assoc, List.singleton_append, cut_append_slash,
        cut_append_slash, List.filter_append, List.filter_append, hname]
      simp [Path.cut]
  · rename_i hends
    rw [not_or] at hends
    obtain ⟨first, others, hbytes⟩ := List.exists_cons_of_ne_nil hends.1
    refine ⟨?_, ?_, ?_⟩
    · rw [segments, segments, cut_append_slash, List.filter_append, hname]
    · rw [Path.isAbsolute, Path.isAbsolute, hbytes]
      rfl
    · rw [List.getLast?_append_of_ne_nil _ (by simp), List.getLast?_cons_cons]

/-- The letters of a temporary name are no slashes. -/
theorem slash_not_mem_temporaryName (n : Nat) : Path.slash ∉ temporaryName n := by
  intro h
  rw [temporaryName, List.mem_append, List.mem_append, List.mem_map] at h
  rcases h with (h | ⟨i, -, h⟩) | h
  · exact absurd h (by decide)
  · have hletter := congrArg UInt8.toNat h
    rw [UInt8.toNat_ofNat', show Path.slash.toNat = 0x2F from rfl] at hletter
    omega
  · exact absurd h (by decide)

theorem length_temporaryName (n : Nat) : (temporaryName n).length = 19 := by
  have hfront : (Utf8.encode ".hueloop-").length = 9 := by decide
  have hback : (Utf8.encode ".tmp").length = 4 := by decide
  rw [temporaryName, List.length_append, List.length_append, List.length_map, List.length_range,
    hfront, hback]

theorem getLast?_temporaryName (n : Nat) : (temporaryName n).getLast? = some 0x70 := by
  rw [temporaryName, List.getLast?_append_of_ne_nil _ (by decide)]
  decide

theorem lastOf_temporaryName (n : Nat) : Last.of (temporaryName n) = .name (temporaryName n) := by
  have hlength := length_temporaryName n
  have h₁ : temporaryName n ≠ [Path.dot] := fun h => by rw [h] at hlength; cases hlength
  have h₂ : temporaryName n ≠ [Path.dot, Path.dot] := fun h => by rw [h] at hlength; cases hlength
  rw [Last.of, if_neg h₁, if_neg h₂]

theorem offersTemporary_of_makeTemporaryFrom {fs fs' : FileSystem} {directory temporary : Path}
    {tries n : Nat} (h : fs.makeTemporaryFrom directory tries n = .ok (temporary, fs')) :
    ∃ place, fs.OffersTemporary directory temporary place ∧ fs' = fs.put place (.file []) := by
  induction tries generalizing n with
  | zero => cases h
  | succ tries ih =>
    unfold makeTemporaryFrom at h
    dsimp only at h
    split at h
    · cases h
    · rename_i l hl
      split at h
      · exact ih h
      · rename_i hfree
        rw [Except.ok.injEq, Prod.mk.injEq] at h
        obtain ⟨rfl, rfl⟩ := h
        have hne : temporaryName n ≠ [] := by
          intro hnil
          have := length_temporaryName n
          rw [hnil] at this
          cases this
        obtain ⟨hsegments, habs, hends⟩ :=
          segments_join directory (slash_not_mem_temporaryName n) hne
        rcases locate_eq_ok hl with ⟨hnil, -⟩ | ⟨init, last, hsplit, hdescend, hlast, hslash⟩
        · rw [hsegments] at hnil
          simp at hnil
        · rw [hsegments] at hsplit
          obtain ⟨rfl, hname⟩ := List.append_inj' hsplit rfl
          rw [List.singleton_inj] at hname
          rw [← hname, lastOf_temporaryName] at hlast
          rw [hends, getLast?_temporaryName] at hslash
          have hstart : fs.start (directory.join ⟨temporaryName n⟩) = fs.start directory := by
            rw [start, start, habs]
          rw [hstart] at hdescend
          have hplace : l.directory = fs.placeOf directory := eq_foldl_of_descend hdescend
          have hplace_ne : l.directory ++ [temporaryName n] ≠ [] := by simp
          have hlocate := locate_mono (cwd_put fs _ _)
            (keepsDirectories_put_file fs hplace_ne (by rw [hfree]; simp) []) hl
          refine ⟨_, ⟨⟨temporaryName n, by rw [hplace]⟩, hfree, ?_⟩, rfl⟩
          simp only [resolve, hlocate, hlast, length_temporaryName, entry?_put_self fs hplace_ne,
            hslash]
          rfl

end FileSystem

/-! ## §6 The run on a value -/

/-- What a call does on a value is one of its answers. -/
theorem Call.mayAnswer_perform {β : Type} (c : Call β) (fs : FileSystem) :
    c.MayAnswer (fun _ => True) fs (c.perform fs).1 (c.perform fs).2 := by
  cases c with
  | read path => exact ⟨rfl, .inl rfl⟩
  | isDirectory path => exact ⟨rfl, .inl rfl⟩
  | makeDirectory path =>
    rw [perform]
    cases h : fs.makeDirectory path with
    | ok after => exact .inl ⟨rfl, h⟩
    | error e => exact .inr ⟨⟨e, rfl⟩, rfl⟩
  | makeTemporary directory =>
    rw [perform]
    cases h : fs.makeTemporary directory with
    | ok made =>
      obtain ⟨temporary, after⟩ := made
      rw [FileSystem.makeTemporary] at h
      split at h
      · cases h
      · obtain ⟨place, hoffers, rfl⟩ := FileSystem.offersTemporary_of_makeTemporaryFrom h
        exact .inl ⟨temporary, place, trivial, hoffers, rfl, rfl⟩
    | error e => exact .inr ⟨⟨e, rfl⟩, rfl⟩
  | write path content =>
    rw [perform]
    cases h : fs.write path content with
    | ok after => exact .inl ⟨rfl, h⟩
    | error e => exact .inr ⟨⟨e, rfl⟩, .inl rfl⟩
  | sync path => exact rfl
  | rename source target =>
    rw [perform]
    cases h : fs.rename source target with
    | ok after => exact .inl ⟨rfl, h⟩
    | error e => exact .inr ⟨⟨e, rfl⟩, rfl⟩
  | remove path => exact rfl

/-- What is computed from the answer of a job, on a value. -/
theorem Job.run_map {α β : Type} (j : Job α) (g : α → β) (fs : FileSystem) :
    (j >>= fun a => Pure.pure (g a)).run.run fs =
      ((j.run.run fs).1.map g, (j.run.run fs).2) := by
  refine (Script.run_bind j.run _ fs).trans ?_
  obtain ⟨answer, after⟩ := j.run.run fs
  cases answer <;> rfl

/-- **The run on a value is a run that a machine may give.** -/
theorem Script.ends_run {α : Type} (s : Script α) (fs : FileSystem) :
    s.Ends (fun _ => True) fs (s.run fs).1 (s.run fs).2 := by
  induction s generalizing fs with
  | done a => exact ⟨rfl, rfl⟩
  | call c next ih => exact ⟨_, _, c.mayAnswer_perform fs, ih _ _⟩

end HueCycle.Files
