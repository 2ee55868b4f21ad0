/-
HueCycle.Proofs.CommandLine.EffectiveSettings — which settings a command line
asks for.

There are three layers. An option of the command line counts first, then a
field that the configuration file lists, then the default. A file also moves
the paths that are not given by an option: they start from its directory,
the default paths like those it lists. `effective` states this one field at a
time, and the settings that are loaded and overridden are `effective`.
-/
import Mathlib
import HueCycle.CommandLine.Command
import HueCycle.Proofs.Files.Faults
import HueCycle.Proofs.Json.Members

namespace HueCycle

open Files

/-! ## §1 The fields that a text lists -/

namespace Json.Record

variable {σ τ : Type} {r : Record σ τ}

/-- The record that leaves its fields as they were gathered. -/
def gathering (r : Record σ τ) : Record σ σ where
  name := r.name
  fields := r.fields
  start := r.start
  closed := r.closed
  mayStop := r.mayStop
  finish := .ok

theorem readItems_gathering (fields : List (Field σ)) (index : Nat) (s : σ) (bytes : Bytes) :
    r.gathering.readItems fields index s bytes = r.readItems fields index s bytes := by
  induction fields generalizing index s bytes with
  | nil => rfl
  | cons f fields ih =>
    rw [readItems, readItems]
    simp only [ih]
    rfl

theorem readMembers_gathering (steps : Nat) (isFirst : Bool) (s : σ) (bytes : Bytes) :
    r.gathering.readMembers steps isFirst s bytes = r.readMembers steps isFirst s bytes := by
  induction steps generalizing isFirst s bytes with
  | zero => rfl
  | succ steps ih =>
    rw [readMembers, readMembers]
    simp only [ih]
    rfl

/-- What a record becomes is made of what it gathers. -/
theorem read_eq_map {f : σ → τ} (hfinish : ∀ s, r.finish s = .ok (f s)) (bytes : Bytes) :
    r.read bytes = (r.gathering.read bytes).map fun v => (f v.1, v.2) := by
  have hgather (gathered : Except Fault (σ × Bytes)) (close : Bytes → Except Fault Bytes) :
      (gathered.bind fun g => (r.finish g.1).bind fun value =>
          (close g.2).bind fun rest => .ok (value, rest)) =
        (gathered.bind fun g => (close g.2).bind fun rest => .ok (g.1, rest)).map
          fun v => (f v.1, v.2) := by
    cases gathered with
    | error fault => rfl
    | ok g =>
      simp only [Except.bind, hfinish]
      cases close g.2 <;> rfl
  unfold read
  cases skipSpace bytes with
  | nil => rfl
  | cons b rest =>
    dsimp only
    split
    · rw [readItems_gathering]
      exact hgather _ listEnd
    · split
      · rw [readMembers_gathering]
        exact hgather _ objectEnd
      · rfl

end Json.Record

namespace Settings

open Json

/-- The fields that a text lists. -/
def listed (text : Bytes) : Except Fault Given := readWhole record.gathering.read text

/-- A text that is parsed gives the fields that it lists, and defaults for the others. -/
theorem parse_eq (text : Bytes) :
    parse text = match listed text with
      | .ok g => .ok g.complete
      | .error fault => .error (.config (.badJson fault)) := by
  rw [parse, listed, readWhole, readWhole, Record.read_eq_map (f := Given.complete) (fun _ => rfl)]
  cases record.gathering.read text with
  | error fault => rfl
  | ok v =>
    obtain ⟨g, rest⟩ := v
    dsimp only [Except.map]
    cases (skipSpace rest).isEmpty <;> rfl

/-- The directory that the relative paths of a configuration file start from. -/
def baseOf (path : Path) : Path := path.parent?.getD ⟨[Path.dot]⟩

variable {fresh : Place → Prop} {fs after : FileSystem} {path : Path} {text : Bytes}

/-- Settings are loaded from a text that lists fields, -/
theorem run_load {g : Given} (hread : fs.read path = .ok text) (hlisted : listed text = .ok g) :
    (load path).run.run fs = (.ok (g.complete.resolve (baseOf path)), fs) := by
  obtain ⟨goOn, hgoOn, hok⟩ : ∃ goOn : Except FileSystem.ReadFault Bytes → Job Settings,
      load path = Job.ask (.read path) >>= goOn ∧
        ∀ text g, parse text = .ok g → goOn (.ok text) = pure (g.resolve (baseOf path)) := by
    refine ⟨_, rfl, fun text g hparse => ?_⟩
    simp only [hparse]
    rfl
  have hparse : parse text = .ok g.complete := by rw [parse_eq, hlisted]
  have hrun : (load path).run.run fs = (goOn (fs.read path)).run.run fs := by
    rw [hgoOn]
    rfl
  rw [hrun, hread, hok _ _ hparse]
  rfl

/-- and from no other. -/
theorem ends_load {answer : Except Error Settings}
    (h : (load path).run.Ends fresh fs answer after) :
    after = fs ∧ ((∃ e, answer = .error e) ∨ ∃ text g, fs.read path = .ok text ∧
      listed text = .ok g ∧ answer = .ok (g.complete.resolve (baseOf path))) := by
  obtain ⟨contents, mid, ⟨rfl, hcontents⟩, hrest⟩ := Job.ends_ask.mp h
  cases contents with
  | error fault => cases fault <;> exact ⟨hrest.2, .inl ⟨_, hrest.1⟩⟩
  | ok text =>
    have hread : mid.read path = .ok text := by
      rcases hcontents with hread | ⟨fault, hfault⟩
      · exact hread.symm
      · cases hfault
    dsimp only at hrest
    rw [parse_eq] at hrest
    cases hlisted : listed text with
    | error fault =>
      rw [hlisted] at hrest
      exact ⟨hrest.2, .inl ⟨_, hrest.1⟩⟩
    | ok g =>
      rw [hlisted] at hrest
      exact ⟨hrest.2, .inr ⟨text, g, hread, hlisted, hrest.1⟩⟩

end Settings

namespace CommandLine

variable {given given' : List (Key × Value)} {fresh : Place → Prop} {fs after : FileSystem}

/-! ## §2 Three layers -/

/-- What the configuration file of a command line lists, and the directory that its paths start
from; without a file it lists nothing and the paths start where they are used. -/
inductive Configured (fs : FileSystem) (given : List (Key × Value)) :
    Option Path → Settings.Given → Prop
  | absent : pathOf given .config = none → Configured fs given none .nothing
  | file {path : Path} {text : Bytes} {g : Settings.Given} :
    pathOf given .config = some path → fs.read path = .ok text →
    Settings.listed text = .ok g → Configured fs given (some (Settings.baseOf path)) g

/-- A path read from a directory, if there is one. -/
def located (base : Option Path) (path : Path) : Path := base.elim path (·.join path)

/-- The option, else what is listed, else the default. -/
def effective (given : List (Key × Value)) (base : Option Path) (g : Settings.Given) :
    Settings where
  input := (pathOf given .input).getD (located base (g.input.getD Settings.default.input))
  output := located base (g.output.getD Settings.default.output)
  frameRate := ((wholeOf given .fps).map UInt32.ofNat).getD
    (g.frameRate.getD Settings.default.frameRate)
  duration := (numberOf given .duration).getD (g.duration.getD Settings.default.duration)
  shifts := (numberOf given .shifts).getD (g.shifts.getD Settings.default.shifts)
  blinks := (numberOf given .blinks).getD (g.blinks.getD Settings.default.blinks)
  loopMode := g.loopMode.getD Settings.default.loopMode

/-- A job in a context runs as it does by itself, and only its failure is told otherwise. -/
theorem run_withContext {α : Type} (text : String) (job : Job α) (fs : FileSystem) :
    (withContext text job).run.run fs =
      ((job.run.run fs).1.mapError fun e => .noted text (e.message :: e.causes),
        (job.run.run fs).2) := by
  refine (Script.run_bind job.run _ fs).trans ?_
  obtain ⟨answer, after⟩ := job.run.run fs
  cases answer <;> rfl

theorem ends_withContext {α : Type} {text : String} {job : Job α} {answer : Except Error α}
    (h : (withContext text job).run.Ends fresh fs answer after) :
    ∃ first, job.run.Ends fresh fs first after ∧
      answer = first.mapError fun e => .noted text (e.message :: e.causes) := by
  obtain ⟨first, mid, hfirst, hrest⟩ := Script.ends_bind.mp h
  cases first with
  | ok a =>
    obtain ⟨rfl, rfl⟩ := hrest
    exact ⟨_, hfirst, rfl⟩
  | error e =>
    obtain ⟨rfl, rfl⟩ := hrest
    exact ⟨_, hfirst, rfl⟩

/-- **Options count first, then the file, then the defaults.** -/
theorem run_effectiveSettings {base : Option Path} {g : Settings.Given}
    (h : Configured fs given base g) :
    (effectiveSettings given).run.run fs = (.ok (effective given base g), fs) := by
  rw [effectiveSettings]
  cases h with
  | absent hpath =>
    rw [hpath]
    rfl
  | @file path text g hpath hread hlisted =>
    rw [hpath]
    refine (Job.run_map _ (override given) fs).trans ?_
    rw [run_withContext, Settings.run_load hread hlisted]
    rfl

/-- Settings come about in no other way, and nothing is written for them. -/
theorem ends_effectiveSettings {answer : Except Error Settings}
    (h : (effectiveSettings given).run.Ends fresh fs answer after) :
    after = fs ∧ ((∃ e, answer = .error e) ∨ ∃ base g, Configured fs given base g ∧
      answer = .ok (effective given base g)) := by
  rw [effectiveSettings] at h
  cases hpath : pathOf given .config with
  | none =>
    rw [hpath] at h
    obtain ⟨rfl, rfl⟩ := h
    exact ⟨rfl, .inr ⟨none, .nothing, .absent hpath, rfl⟩⟩
  | some path =>
    rw [hpath] at h
    obtain ⟨first, hfirst, rfl⟩ := Job.ends_map.mp h
    obtain ⟨loaded, hload, rfl⟩ := ends_withContext hfirst
    obtain ⟨rfl, ⟨e, rfl⟩ | ⟨text, g, hread, hlisted, rfl⟩⟩ := Settings.ends_load hload
    · exact ⟨rfl, .inl ⟨_, rfl⟩⟩
    · exact ⟨rfl, .inr ⟨_, g, .file hpath hread hlisted, rfl⟩⟩

/-! ## §3 Subcommands with their settings -/

/-- Two lists of options give the options that every subcommand has the same values. -/
def SameCommon (given given' : List (Key × Value)) : Prop :=
  ∀ key ∈ Subcommand.commonKeys, valueOf given' key = valueOf given key

/-- The options that a subcommand has for itself do not change the settings: neither which file
is read -/
theorem Configured.congr (hsame : SameCommon given given') {base : Option Path}
    {g : Settings.Given} (h : Configured fs given base g) : Configured fs given' base g := by
  have hconfig : pathOf given' .config = pathOf given .config := by
    unfold pathOf
    rw [hsame .config (by decide)]
  cases h with
  | absent hpath => exact .absent (hconfig.trans hpath)
  | file hpath hread hlisted => exact .file (hconfig.trans hpath) hread hlisted

/-- nor what they override. -/
theorem effective_congr (hsame : SameCommon given given') (base : Option Path)
    (g : Settings.Given) : effective given' base g = effective given base g := by
  have hinput := hsame .input (by decide)
  have hfps := hsame .fps (by decide)
  have hduration := hsame .duration (by decide)
  have hshifts := hsame .shifts (by decide)
  have hblinks := hsame .blinks (by decide)
  simp only [effective, pathOf, wholeOf, numberOf, hinput, hfps, hduration, hshifts, hblinks]

/-- What the options of the whole animation put in place of the settings. -/
def renderSettings (given : List (Key × Value)) (s : Settings) : Settings :=
  { s with
    output := (pathOf given .out).getD s.output
    loopMode := ((wholeOf given .loops).map (LoopMode.finite ∘ UInt16.ofNat)).getD s.loopMode }

section Reading

variable {ε : Type} {reader : Bytes → Except ε Raster}

/-- What a subcommand does once it has its settings. -/
def performWith (reader : Bytes → Except ε Raster) (s : Subcommand) (given : List (Key × Value))
    (settings : Settings) : Job Printed :=
  match s with
  | .render => do
    let report ← (renderSettings given settings).runOn reader
      Render.Pool.inOrder ⟨isGiven given .parallel, wholeOf given .threads, isGiven given .elide⟩
    return ⟨[], [s!"wrote {report.output.text} ({report.stats.total} frames, {report.canvas.text})"]⟩
  | .frame => do
    let index := (wholeOf given .frame).getD 0
    let out := (pathOf given .out).getD ⟨[]⟩
    let _ ← withContext s!"render frame {index} to '{out.text}'"
      (settings.previewWith reader (UInt64.ofNat index) out)
    return ⟨[], [s!"wrote {out.text}"]⟩
  | .schedule => do
    let plan ← Job.of settings.schedule
    return ⟨scheduleTable plan, []⟩

/-- **Every subcommand starts from the same settings.** -/
theorem perform_eq (s : Subcommand) (given : List (Key × Value)) :
    perform reader s given = effectiveSettings given >>= performWith reader s given := by
  cases s <;> rfl

/-- What the program shows for the answer of a subcommand. -/
def Outcome.of : Except Error Printed → Outcome
  | .ok printed => .finished printed
  | .error e => .failed (failureReport e)

variable {arguments : List Bytes} {s : Subcommand}

theorem run_eq (hread : read arguments = .perform s given) :
    runWith reader arguments =
      (perform reader s given).run.bind fun answer => .done (.of answer) := by
  rw [runWith, hread]
  show (perform reader s given).run.bind _ = _
  congr 1
  funext answer
  cases answer <;> rfl

/-- A program that understands its arguments shows what the subcommand answers. -/
theorem run_run (hread : read arguments = .perform s given) (fs : FileSystem) :
    (runWith reader arguments).run fs =
      (.of ((perform reader s given).run.run fs).1, ((perform reader s given).run.run fs).2) := by
  rw [run_eq hread, Script.run_bind]
  rfl

/-- A program that finishes has carried out the subcommand with settings that came about. -/
theorem ends_run_finished (hread : read arguments = .perform s given) {printed : Printed}
    (h : (runWith reader arguments).Ends fresh fs (.finished printed) after) :
    ∃ base g, Configured fs given base g ∧
      (performWith reader s given (effective given base g)).run.Ends fresh fs (.ok printed)
        after := by
  rw [run_eq hread] at h
  obtain ⟨answer, mid, hperform, hof, rfl⟩ := Script.ends_bind.mp h
  obtain rfl : answer = .ok printed := by
    cases answer with
    | ok p =>
      obtain rfl := Outcome.finished.inj hof
      rfl
    | error e => cases hof
  rw [perform_eq] at hperform
  obtain ⟨settings, mid, hsettings, hrest⟩ := Job.ends_bind_ok.mp hperform
  obtain ⟨rfl, ⟨e, he⟩ | ⟨base, g, hconfigured, hok⟩⟩ := ends_effectiveSettings hsettings
  · cases he
  · obtain rfl := Except.ok.inj hok
    exact ⟨base, g, hconfigured, hrest⟩

/-- With settings that came about a subcommand can end as it does by itself. -/
theorem ends_run_of_configured (hread : read arguments = .perform s given) {base : Option Path}
    {g : Settings.Given} (h : Configured fs given base g) {answer : Except Error Printed}
    (hends : (performWith reader s given (effective given base g)).run.Ends (fun _ => True) fs answer
      after) :
    (runWith reader arguments).Ends (fun _ => True) fs (.of answer) after := by
  have hsettings := Script.ends_run (effectiveSettings given).run fs
  rw [run_effectiveSettings h] at hsettings
  rw [run_eq hread, perform_eq]
  exact Script.ends_bind.mpr
    ⟨answer, after, Job.ends_bind.mpr (.inl ⟨_, fs, hsettings, hends⟩), rfl, rfl⟩

/-- With settings a subcommand goes on, -/
theorem run_of_configured (hread : read arguments = .perform s given) {base : Option Path}
    {g : Settings.Given} (h : Configured fs given base g) :
    (runWith reader arguments).run fs =
      (.of ((performWith reader s given (effective given base g)).run.run fs).1,
        ((performWith reader s given (effective given base g)).run.run fs).2) := by
  have hrun : (perform reader s given).run.run fs =
      (performWith reader s given (effective given base g)).run.run fs := by
    rw [perform_eq]
    refine (Script.run_bind (effectiveSettings given).run _ fs).trans ?_
    rw [run_effectiveSettings h]
    rfl
  rw [run_run hread, hrun]

/-- and without it fails and writes nothing. -/
theorem run_of_not_configured (hread : read arguments = .perform s given)
    (h : ∀ base g, ¬ Configured fs given base g) :
    ∃ report, (runWith reader arguments).run fs = (.failed report, fs) := by
  obtain ⟨hafter, ⟨e, he⟩ | ⟨base, g, hconfigured, -⟩⟩ :=
    ends_effectiveSettings (Script.ends_run (effectiveSettings given).run fs)
  · have hfails : (effectiveSettings given).run.run fs = (.error e, fs) := Prod.ext he hafter
    have hrun : (perform reader s given).run.run fs = (.error e, fs) := by
      rw [perform_eq]
      refine (Script.run_bind (effectiveSettings given).run _ fs).trans ?_
      rw [hfails]
      rfl
    exact ⟨failureReport e, by rw [run_run hread, hrun]; rfl⟩
  · exact absurd hconfigured (h base g)

end Reading

end CommandLine

end HueCycle
