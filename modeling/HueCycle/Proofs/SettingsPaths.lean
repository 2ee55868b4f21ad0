/-
HueCycle.Proofs.SettingsPaths — settings whose paths start from another
directory.

An output path is judged by the extension of its last name. Joined to a
directory a path keeps its last name, whatever slashes and dots follow it
(`fileName?_join`). Only a path that stays where it starts, the empty one or
one of dots and slashes, has no name to keep: joined, it spells the directory
and is judged by the name of that. Main statement: `resolve_keeps_verdict`.
-/
import Mathlib
import HueCycle.Proofs.Acceptance
import HueCycle.Proofs.Files.Directories

namespace HueCycle

/-! ## §1 Last names -/

namespace Path

open Files.FileSystem

variable {base path : Path}

/-- The path stays where it starts: between its slashes stand dots at most. -/
def Stays (p : Path) : Prop := ∀ segment ∈ cut p.bytes, segment = [] ∨ segment = [dot]

instance (p : Path) : Decidable p.Stays :=
  inferInstanceAs (Decidable (∀ segment ∈ cut p.bytes, segment = [] ∨ segment = [dot]))

theorem isComponent_of_stays {position : Nat} {segment : Bytes} (hposition : position ≠ 0)
    (h : segment = [] ∨ segment = [dot]) : isComponent position segment = false := by
  rcases h with rfl | rfl
  · rfl
  · simp [isComponent, hposition]

/-- Segments that lead nowhere are dropped behind others, -/
theorem significant_append_of_stays {front segments : List Bytes} (hfront : front ≠ [])
    (h : ∀ segment ∈ segments, segment = [] ∨ segment = [dot]) :
    significant (front ++ segments) = significant front := by
  induction segments using List.reverseRecOn with
  | nil => rw [List.append_nil]
  | append_singleton segments last ih =>
    have hposition : (front ++ segments).length ≠ 0 := by simp [hfront]
    have hlast := h last (List.mem_append_right _ (List.mem_singleton_self last))
    rw [← List.append_assoc, significant_append_of_other (isComponent_of_stays hposition hlast)]
    exact ih fun segment hs => h segment (List.mem_append_left _ hs)

/-- and behind the last one that leads somewhere. -/
theorem getLast?_significant_append {front segments : List Bytes} (hfront : front ≠ [])
    (h : ∃ segment ∈ segments, ¬ (segment = [] ∨ segment = [dot])) :
    (significant (front ++ segments)).getLast? = (significant segments).getLast? := by
  induction segments using List.reverseRecOn with
  | nil => simp at h
  | append_singleton segments last ih =>
    have hposition : (front ++ segments).length ≠ 0 := by simp [hfront]
    rw [← List.append_assoc]
    by_cases hlast : last = [] ∨ last = [dot]
    · obtain ⟨segment, hmem, hleads⟩ := h
      have hbefore : segment ∈ segments := by
        rcases List.mem_append.mp hmem with hmem | hmem
        · exact hmem
        · rw [List.mem_singleton.mp hmem] at hleads
          exact absurd hlast hleads
      have hother : segments.length ≠ 0 := by
        rw [Ne, List.length_eq_zero_iff]
        exact List.ne_nil_of_mem hbefore
      rw [significant_append_of_other (isComponent_of_stays hposition hlast),
        significant_append_of_other (isComponent_of_stays hother hlast)]
      exact ih ⟨segment, hbefore, hleads⟩
    · obtain ⟨hempty, hdot⟩ := not_or.mp hlast
      have hcomponent (position : Nat) : isComponent position last = true := by
        simp [isComponent, hempty, hdot]
      rw [significant_append_of_component (hcomponent _),
        significant_append_of_component (hcomponent _), List.getLast?_concat, List.getLast?_concat]

theorem fileName?_congr {p q : Path}
    (h : (significant (cut p.bytes)).getLast? = (significant (cut q.bytes)).getLast?) :
    p.fileName? = q.fileName? := by
  rw [fileName?, fileName?, h]

/-- A path that stays where it starts has no last name. -/
theorem fileName?_of_stays (h : path.Stays) : path.fileName? = none := by
  have hlast : ∀ name, (significant (cut path.bytes)).getLast? = some name →
      name = [] ∨ name = [dot] := by
    intro name hname
    rcases significant_cases (cut path.bytes) with hnil | ⟨front, last, -, -, hbegins⟩
    · rw [hnil] at hname
      cases hname
    · exact h name (hbegins.subset (List.mem_of_getLast? hname))
  rw [fileName?]
  split
  · rfl
  · rename_i name hname
    rcases hlast name hname with rfl | rfl
    · rfl
    · rfl

/-- **The last name of a joined path** is its own, or the one of the directory if it has no name at
all. -/
theorem fileName?_join (base : Path) (hpath : path.isAbsolute = false) :
    (base.join path).fileName? = if path.Stays then base.fileName? else path.fileName? := by
  by_cases hbase : base.bytes = []
  · rw [join_of_empty hbase hpath]
    split
    · rename_i hstays
      rw [fileName?_of_stays hstays, fileName?_of_stays (by simp [Stays, hbase, cut])]
    · rfl
  · obtain ⟨front, hfront, hcut, hbehind⟩ := exists_cut_join hbase hpath
    have hsame : significant front = significant (cut base.bytes) := by
      rcases hbehind with hbehind | hbehind
      · rw [hbehind]
      · rw [hbehind, significant_append_of_other rfl]
    split
    · rename_i hstays
      refine fileName?_congr ?_
      rw [hcut, significant_append_of_stays hfront hstays, hsame]
    · rename_i hleads
      refine fileName?_congr ?_
      rw [hcut, getLast?_significant_append hfront (by simpa [Stays] using hleads)]

end Path

/-! ## §2 Containers -/

namespace Container

/-- Some container is chosen for the path. -/
def Accepts (path : Path) : Prop := ∃ container, ofPath path = .ok container

/-- The last name alone decides. -/
theorem accepts_congr {p q : Path} (h : p.fileName? = q.fileName?) : Accepts p ↔ Accepts q := by
  have htext : p.textExtension? = q.textExtension? := by
    rw [Path.textExtension?, Path.textExtension?, Path.extension?, Path.extension?, h]
  rw [Accepts, Accepts, ofPath, ofPath, htext]
  cases q.textExtension? with
  | none => simp
  | some extension =>
    dsimp only
    split
    · rfl
    · simp

theorem not_accepts_of_stays {path : Path} (h : path.Stays) : ¬ Accepts path := by
  rintro ⟨container, hcontainer⟩
  have hnone : path.textExtension? = none := by
    rw [Path.textExtension?, Path.extension?, Path.fileName?_of_stays h]
  rw [ofPath, hnone] at hcontainer
  cases hcontainer

end Container

/-! ## §3 Settings -/

namespace Settings

open HueCycle.Path

variable {s : Settings} {base : Path}

theorem join_of_isAbsolute {path : Path} (h : path.isAbsolute = true) : base.join path = path := by
  rw [join, if_pos h]

/-- What is joined to an absolute path is absolute. -/
theorem isAbsolute_join (hbase : base.isAbsolute = true) (path : Path) :
    (base.join path).isAbsolute = true := by
  obtain ⟨bytes⟩ := base
  cases bytes with
  | nil => cases hbase
  | cons b rest =>
    rw [join]
    split
    · assumption
    · split
      · exact hbase
      · exact hbase

/-- The output path is all that the directory can change in the verdict. -/
theorem validate_resolve_iff : (s.resolve base).validate = .ok () ↔
    (∃ schedule, s.schedule = .ok schedule) ∧ Container.Accepts (base.join s.output) ∧
      s.loopMode ≠ .finite 0 :=
  validate_eq_ok_iff

/-- **Settings are moved to another directory.** Only relative paths change, and with an absolute
directory they change once. The verdict on the settings stays, unless their output path stays where
it starts: such settings are never accepted as they are, and moved to a directory they are accepted
exactly if the path of the directory is itself one that can be written to. -/
theorem resolve_keeps_verdict (s : Settings) (base : Path) :
    { s.resolve base with input := s.input, output := s.output } = s ∧
    (s.input.isAbsolute = true → (s.resolve base).input = s.input) ∧
    (s.output.isAbsolute = true → (s.resolve base).output = s.output) ∧
    (base.isAbsolute = true → (s.resolve base).resolve base = s.resolve base) ∧
    (s.output.isAbsolute = true ∨ ¬ s.output.Stays →
      ((s.resolve base).validate = .ok () ↔ s.validate = .ok ())) ∧
    (s.output.isAbsolute = false → s.output.Stays → s.validate ≠ .ok () ∧
      ((s.resolve base).validate = .ok () ↔
        ({ s with output := base } : Settings).validate = .ok ())) := by
  refine ⟨rfl, join_of_isAbsolute, join_of_isAbsolute, fun hbase => ?_, fun hleads => ?_,
    fun hrelative hstays => ⟨fun hvalid => ?_, ?_⟩⟩
  · rw [resolve, resolve, join_of_isAbsolute (isAbsolute_join hbase s.input),
      join_of_isAbsolute (isAbsolute_join hbase s.output)]
  · have hsame : Container.Accepts (base.join s.output) ↔ Container.Accepts s.output := by
      cases habsolute : s.output.isAbsolute with
      | true => rw [join_of_isAbsolute habsolute]
      | false =>
        have hmoves : ¬ s.output.Stays := hleads.resolve_left (by simp [habsolute])
        refine Container.accepts_congr ?_
        rw [fileName?_join base habsolute, if_neg hmoves]
    rw [validate_resolve_iff, validate_eq_ok_iff, hsame]
    rfl
  · exact Container.not_accepts_of_stays hstays (validate_eq_ok_iff.mp hvalid).2.1
  · have hsame : Container.Accepts (base.join s.output) ↔ Container.Accepts base := by
      refine Container.accepts_congr ?_
      rw [fileName?_join base hrelative, if_pos hstays]
    rw [validate_resolve_iff, validate_eq_ok_iff, hsame]
    rfl

/-- An output path with slashes and dots around its names, and one that is the directory. -/
theorem resolve_keeps_verdict_dots_and_slashes :
    let base : Path := Path.ofString "/srv/d.png"
    let s : Settings :=
      ⟨Path.ofString "in.png", Path.ofString "./out/o.PNG//.", 1, 1.0, 0.0, 0.0, .infinite⟩
    let idle : Settings := { s with output := Path.ofString "././" }
    (base.isAbsolute = true ∧ ¬ s.output.Stays ∧ idle.output.isAbsolute = false ∧
      idle.output.Stays) ∧
    s.validate = .ok () ∧ (s.resolve base).validate = .ok () ∧
    (s.resolve base).resolve base = s.resolve base ∧
    idle.validate ≠ .ok () ∧ (idle.resolve base).validate = .ok () := by
  intro base s idle
  have habsolute : base.isAbsolute = true := by decide +kernel
  have hleads : ¬ s.output.Stays := by decide +kernel
  have hrelative : idle.output.isAbsolute = false := by decide +kernel
  have hstays : idle.output.Stays := by decide +kernel
  have htext (p : Path) (h : p = s.output ∨ p = base) : Container.ofPath p = .ok .apng := by
    have hpng : p.textExtension? = some "png" := by rcases h with rfl | rfl <;> decide +kernel
    rw [Container.ofPath, hpng]
    rfl
  have hschedule (input output : Path) := schedule_one_frame input output .infinite
  have hvalid : s.validate = .ok () := validate_eq_ok_iff.mpr
    ⟨⟨_, hschedule _ _⟩, ⟨_, htext _ (.inl rfl)⟩, by decide⟩
  have hdirectory : ({ idle with output := base } : Settings).validate = .ok () :=
    validate_eq_ok_iff.mpr ⟨⟨_, hschedule _ _⟩, ⟨_, htext _ (.inr rfl)⟩, by decide⟩
  obtain ⟨-, -, -, htwice, hverdict, -⟩ := resolve_keeps_verdict s base
  obtain ⟨-, -, -, -, -, hidle⟩ := resolve_keeps_verdict idle base
  obtain ⟨hrefused, hmoved⟩ := hidle hrelative hstays
  exact ⟨⟨habsolute, hleads, hrelative, hstays⟩, hvalid, (hverdict (.inr hleads)).mpr hvalid,
    htwice habsolute, hrefused, hmoved.mpr hdirectory⟩

/-- An empty output path is refused, but not in a directory with the extension of a container. -/
theorem resolve_accepts_directory :
    let s : Settings := ⟨Path.ofString "in.png", Path.ofString "", 1, 1.0, 0.0, 0.0, .infinite⟩
    s.validate = .error (.config (.noExtension (Path.ofString ""))) ∧
      (s.resolve (Path.ofString "d.png")).validate = .ok () ∧
      ¬ ∀ (s : Settings) (base : Path), (s.resolve base).validate = .ok () ↔ s.validate = .ok () := by
  intro s
  have hschedule (input output : Path) := schedule_one_frame input output .infinite
  have hrefused : s.validate = .error (.config (.noExtension (Path.ofString ""))) := by
    have hnone : (Path.ofString "").textExtension? = none := by decide +kernel
    rw [validate, hschedule, Container.ofPath, hnone]
    rfl
  have hmoved : (s.resolve (Path.ofString "d.png")).validate = .ok () := by
    have hpng : ((Path.ofString "d.png").join s.output).textExtension? = some "png" := by
      decide +kernel
    refine validate_resolve_iff.mpr ⟨⟨_, hschedule _ _⟩, ⟨.apng, ?_⟩, by decide⟩
    rw [Container.ofPath, hpng]
    rfl
  refine ⟨hrefused, hmoved, fun hsame => ?_⟩
  have hvalid := (hsame s (Path.ofString "d.png")).mp hmoved
  rw [hrefused] at hvalid
  cases hvalid

end Settings

end HueCycle
