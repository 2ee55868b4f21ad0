/-
HueCycle.Proofs.CommandLine.Overridden — a configuration file matters only
through the fields that the command line does not override.

Two texts in its place that list the same values for the other fields give
the same settings, up to those that the subcommand does not look at. From
there on the file is not read again, unless as the picture, and a text that
lists settings is no picture. So the subcommand does the same on both file
systems, and both are left alike but for the text itself.
-/
import Mathlib
import HueCycle.Proofs.CommandLine.EffectiveSettings
import HueCycle.Proofs.Files.Contents
import HueCycle.Proofs.Png.StillFile

namespace HueCycle

open Files FileSystem

/-! ## §1 Jobs that do not see the contents at one place -/

/-- A job that ends alike on two file systems that are alike but for one place. -/
def Files.Blind {α : Type} (p : Place) (fs fs' : FileSystem) (j : Job α) : Prop :=
  (j.run.run fs').1 = (j.run.run fs).1 ∧ SameBut p (j.run.run fs).2 (j.run.run fs').2

section Reading

variable {ε : Type} (reader : Bytes → Except ε Raster)

/-- A reader that tells the format of a file by how it begins. No format of pictures begins with a
bracket or a brace, be there blanks before it or not. -/
def Source.Sniffs : Prop :=
  ∀ file b rest, Json.skipSpace file = b :: rest → b = 0x5B ∨ b = 0x7B →
    ∃ fault, reader file = .error fault

/-- A file that no picture can be read from. -/
def Files.NoPicture (fs : FileSystem) (p : Place) : Prop :=
  ∃ content, fs.entry? p = some (.file content) ∧
    Source.decodeWith reader content = .error (.decode .undecodable)

/-- Reading a source comes first, and decoding it second. -/
theorem Source.run_read_eq {α : Type} (path : Path) (f : Source → Job α) (fs : FileSystem) :
    (Source.readWith reader path >>= f).run.run fs = match fs.read path with
      | .error fault => (.error (.decode (.cannotRead path fault.reason)), fs)
      | .ok file => (Job.of (Source.decodeFile reader path file) >>= f).run.run fs := by
  obtain ⟨goOn, hgoOn, hok, herror⟩ : ∃ goOn : Except ReadFault Bytes → Job Source,
      Source.readWith reader path = Job.ask (.read path) >>= goOn ∧
        (∀ file, goOn (.ok file) = Job.of (Source.decodeFile reader path file)) ∧
        ∀ fault : ReadFault, goOn (.error fault) =
          (throw (.decode (.cannotRead path fault.reason)) : Job Source) :=
    ⟨_, rfl, fun _ => rfl, fun _ => rfl⟩
  have hrun : (Source.readWith reader path >>= f).run.run fs =
      (goOn (fs.read path) >>= f).run.run fs := by
    rw [hgoOn]
    rfl
  rw [hrun]
  cases fs.read path with
  | error fault =>
    rw [herror]
    rfl
  | ok file => rw [hok]

end Reading

namespace Files.Blind

variable {α β ε : Type} {reader : Bytes → Except ε Raster} {p : Place} {fs fs' : FileSystem}

theorem of_bind (hsame : SameBut p fs fs') {x : Except Error α} {f : α → Job β}
    (h : ∀ a, x = .ok a → Blind p fs fs' (f a)) : Blind p fs fs' (Job.of x >>= f) := by
  cases x with
  | ok a =>
    rw [Job.of_ok_bind]
    exact h a rfl
  | error e =>
    rw [Job.of_error_bind]
    exact ⟨rfl, hsame⟩

theorem map {j : Job α} (h : Blind p fs fs' j) (g : α → β) :
    Blind p fs fs' (j >>= fun a => pure (g a)) := by
  unfold Blind
  rw [Job.run_map, Job.run_map, h.1]
  exact ⟨rfl, h.2⟩

theorem withContext {j : Job α} (h : Blind p fs fs' j) (text : String) :
    Blind p fs fs' (CommandLine.withContext text j) := by
  unfold Blind
  rw [CommandLine.run_withContext, CommandLine.run_withContext, h.1]
  exact ⟨rfl, h.2⟩

theorem replace (hsame : SameBut p fs fs') (path : Path) (content : Bytes) :
    Blind p fs fs' (replaceFile path content) := sameBut_replaceFile hsame path content

/-- A source is read from elsewhere, or from the place without success. -/
theorem read_bind (hsame : SameBut p fs fs') (hfs : NoPicture reader fs p)
    (hfs' : NoPicture reader fs' p) {path : Path} {f : Source → Job β}
    (h : ∀ source, Blind p fs fs' (f source)) :
    Blind p fs fs' (Source.readWith reader path >>= f) := by
  unfold Blind
  rw [Source.run_read_eq, Source.run_read_eq]
  by_cases hplace : fs.resolve path = .ok p
  · obtain ⟨content, hentry, hdecode⟩ := hfs
    obtain ⟨content', hentry', hdecode'⟩ := hfs'
    have hplace' := (hsame.resolve path).trans hplace
    unfold FileSystem.read
    rw [hplace, hplace']
    cases hasZero path with
    | true => exact ⟨rfl, hsame⟩
    | false =>
      simp only [hentry, hentry', Source.decodeFile, hdecode, hdecode', Bool.false_eq_true,
        if_false]
      exact ⟨rfl, hsame⟩
  · rw [hsame.read hplace]
    cases fs.read path with
    | error fault => exact ⟨rfl, hsame⟩
    | ok file => exact of_bind hsame fun source _ => h source

end Files.Blind

/-! ## §2 Texts that list settings are no pictures -/

theorem Json.skipSpace_of_listed {text : Bytes} {g : Settings.Given}
    (h : Settings.listed text = .ok g) :
    ∃ b rest, skipSpace text = b :: rest ∧ (b = 0x5B ∨ b = 0x7B) := by
  unfold Settings.listed readWhole Record.read at h
  cases hskip : skipSpace text with
  | nil =>
    rw [hskip] at h
    cases h
  | cons b rest =>
    refine ⟨b, rest, rfl, ?_⟩
    rw [hskip] at h
    by_contra hneither
    rw [not_or] at hneither
    simp only [if_neg hneither.1, if_neg hneither.2] at h
    cases h

namespace Source

variable {ε : Type} {reader : Bytes → Except ε Raster}

/-- A text that lists settings is refused by a reader that tells formats apart. -/
theorem Sniffs.decode_of_listed (h : Sniffs reader) {text : Bytes} {g : Settings.Given}
    (hlisted : Settings.listed text = .ok g) :
    decodeWith reader text = .error (.decode .undecodable) := by
  obtain ⟨b, rest, hskip, hb⟩ := Json.skipSpace_of_listed hlisted
  obtain ⟨fault, hfault⟩ := h text b rest hskip hb
  rw [decodeWith, hfault]

/-- The first octet of a PNG file is no blank, no bracket and no brace. -/
theorem sniffs_reader : Sniffs Png.reader := by
  intro file b rest hskip hb
  have hsignature : file.take 8 ≠ Png.signature := by
    intro htake
    obtain ⟨first, later, rfl⟩ : ∃ first later, file = first :: later := by
      cases file with
      | nil => cases htake
      | cons first later => exact ⟨first, later, rfl⟩
    obtain rfl : first = 0x89 := (List.cons.inj htake).1
    obtain rfl : (0x89 : UInt8) = b := (List.cons.inj hskip).1
    rcases hb with hb | hb <;> exact absurd hb (by decide)
  rw [Png.reader, Png.decodeStill_eq_noSignature hsignature]
  exact ⟨_, rfl⟩

end Source

namespace CommandLine

/-! ## §3 Subcommands -/

variable {ε : Type} {reader : Bytes → Except ε Raster} {p : Place} {fs fs' : FileSystem}

/-- **With its settings a subcommand reads nothing but the picture.** -/
theorem blind_performWith (hsame : SameBut p fs fs') (hfs : NoPicture reader fs p)
    (hfs' : NoPicture reader fs' p) (s : Subcommand) (given : List (Key × Value))
    (settings : Settings) :
    Blind p fs fs' (performWith reader s given settings) := by
  cases s with
  | render =>
    have hsave (a : Animation) (path : Path) : Blind p fs fs' (a.save path) :=
      .of_bind hsame fun _ _ => .of_bind hsame fun file _ => .replace hsame path file
    have hrun (settings : Settings) (threading : Render.Threading) :
        Blind p fs fs' (settings.runOn reader Render.Pool.inOrder threading) :=
      .of_bind hsame fun _ _ => .read_bind hsame hfs hfs' fun _ => .of_bind hsame fun made _ =>
        (hsave made.1 settings.output).map _
    exact (hrun _ _).map _
  | frame =>
    have hpreview (i : FrameIndex) (out : Path) :
        Blind p fs fs' (settings.previewWith reader i out) :=
      .of_bind hsame fun _ _ => .read_bind hsame hfs hfs' fun _ => .of_bind hsame fun _ _ =>
        .of_bind hsame fun file _ => (Blind.replace hsame out file).map _
    exact ((hpreview _ _).withContext _).map _
  | schedule => exact .of_bind hsame fun _ _ => ⟨rfl, hsame⟩

/-- Two texts list the same values for the fields that nothing overrides. The output and the loop
mode matter to the whole animation only. -/
structure AgreeBeside (s : Subcommand) (given : List (Key × Value)) (g g' : Settings.Given) :
    Prop where
  input : pathOf given .input = none → g'.input = g.input
  frameRate : wholeOf given .fps = none → g'.frameRate = g.frameRate
  duration : numberOf given .duration = none → g'.duration = g.duration
  shifts : numberOf given .shifts = none → g'.shifts = g.shifts
  blinks : numberOf given .blinks = none → g'.blinks = g.blinks
  output : s = .render → pathOf given .out = none → g'.output = g.output
  loopMode : s = .render → wholeOf given .loops = none → g'.loopMode = g.loopMode

/-- A value that is overridden does not show. -/
theorem getD_congr {α : Type} {option : Option α} {a a' : α} (h : option = none → a' = a) :
    option.getD a' = option.getD a := by
  cases option with
  | none => exact h rfl
  | some b => rfl

/-- **Fields that are overridden do not matter to the subcommand.** -/
theorem performWith_congr {s : Subcommand} {given : List (Key × Value)} {g g' : Settings.Given}
    (h : AgreeBeside s given g g') (base : Option Path) :
    performWith reader s given (effective given base g') =
      performWith reader s given (effective given base g) := by
  have hrate : (wholeOf given .fps).map UInt32.ofNat = none → wholeOf given .fps = none :=
    Option.map_eq_none_iff.mp
  have htimed : effective given base g' = { effective given base g with
      output := (effective given base g').output
      loopMode := (effective given base g').loopMode } := by
    have hinput := getD_congr fun hnone => congrArg
      (fun path => located base (path.getD Settings.default.input)) (h.input hnone)
    have hfps := getD_congr fun hnone => congrArg
      (·.getD Settings.default.frameRate) (h.frameRate (hrate hnone))
    have hduration := getD_congr fun hnone => congrArg
      (·.getD Settings.default.duration) (h.duration hnone)
    have hshifts := getD_congr fun hnone => congrArg
      (·.getD Settings.default.shifts) (h.shifts hnone)
    have hblinks := getD_congr fun hnone => congrArg
      (·.getD Settings.default.blinks) (h.blinks hnone)
    simp only [effective, hinput, hfps, hduration, hshifts, hblinks]
  cases s with
  | render =>
    have hloops : (wholeOf given .loops).map (LoopMode.finite ∘ UInt16.ofNat) = none →
        wholeOf given .loops = none := Option.map_eq_none_iff.mp
    have houtput := getD_congr fun hnone => congrArg
      (fun path => located base (path.getD Settings.default.output)) (h.output rfl hnone)
    have hmode := getD_congr fun hnone => congrArg
      (·.getD Settings.default.loopMode) (h.loopMode rfl (hloops hnone))
    have hsettings : renderSettings given (effective given base g') =
        renderSettings given (effective given base g) := by
      rw [htimed]
      simp only [renderSettings, effective, houtput, hmode]
    simp only [performWith, hsettings]
  | frame =>
    rw [htimed]
    rfl
  | schedule =>
    rw [htimed]
    rfl

/-- **What a file says about overridden fields does not show in the outcome.** -/
theorem run_refill (hsniffs : Source.Sniffs reader) {arguments : List Bytes} {s : Subcommand}
    {given : List (Key × Value)} (hread : read arguments = .perform s given) {path : Path}
    {text text' : Bytes} {g g' : Settings.Given} (hpath : pathOf given .config = some path)
    (hfile : fs.read path = .ok text) (hlisted : Settings.listed text = .ok g)
    (hlisted' : Settings.listed text' = .ok g') (hagree : AgreeBeside s given g g') :
    ((runWith reader arguments).run (fs.refill (fs.placeOf path) text')).1 =
        ((runWith reader arguments).run fs).1 ∧
      SameBut (fs.placeOf path) ((runWith reader arguments).run fs).2
        ((runWith reader arguments).run (fs.refill (fs.placeOf path) text')).2 := by
  have hfile' : (fs.refill (fs.placeOf path) text').read path = .ok text' := read_refill hfile
  rw [run_of_configured hread (.file hpath hfile hlisted),
    run_of_configured hread (.file hpath hfile' hlisted'), performWith_congr hagree]
  have hblind := blind_performWith (sameBut_refill fs (fs.placeOf path) text')
    ⟨text, (read_eq_ok_iff.mp hfile).2.2, hsniffs.decode_of_listed hlisted⟩
    ⟨text', (read_eq_ok_iff.mp hfile').2.2, hsniffs.decode_of_listed hlisted'⟩ s given
    (effective given (some (Settings.baseOf path)) g)
  exact ⟨congrArg Outcome.of hblind.1, hblind.2⟩

end CommandLine

end HueCycle
