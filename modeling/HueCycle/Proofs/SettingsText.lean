/-
HueCycle.Proofs.SettingsText — settings that are written as JSON and read
back.

Paths, the frame rate and the loop mode come back as they were, whatever
octets the paths consist of as long as they are UTF-8. The three doubles are
written with the fewest digits that name them, but the reader does not look
for the nearest double: they come back with their sign and within six units
in the last place, and as they were when the digits written and the power of
ten are doubles.
-/
import Mathlib
import HueCycle.Settings
import HueCycle.Proofs.Json.Records
import HueCycle.Proofs.Json.Reread

namespace HueCycle.Settings

open Json Binary64

/-! ## §1 The text -/

/-- The members of the object that settings are written as. -/
def members (s : Settings) : List (String × Bytes) := [
  ("input_path", writeStr s.input.bytes),
  ("output_path", writeStr s.output.bytes),
  ("frame_rate", writeNatural s.frameRate.toNat),
  ("duration", writeFloat s.duration),
  ("shifts", writeFloat s.shifts),
  ("blinks", writeFloat s.blinks),
  ("loop_mode", s.loopMode.write)]

/-- Settings whose paths are text are written. -/
theorem print_eq {s : Settings} (hinput : Utf8.isValid s.input.bytes = true)
    (houtput : Utf8.isValid s.output.bytes = true) : s.print = .ok (writeObject s.members) := by
  rw [print, writePath, writePath, if_pos hinput, if_pos houtput]
  rfl

section RoundTrip

variable {s : Settings} {d k b : Parts} {duration shifts blinks : Float}

/-- The text sets every field: each to what it was, and the three doubles to what reading makes of
them. -/
theorem gathers_members (hinput : Utf8.isValid s.input.bytes = true)
    (houtput : Utf8.isValid s.output.bytes = true)
    (hduration : Reads float (writeFloat s.duration) duration)
    (hshifts : Reads float (writeFloat s.shifts) shifts)
    (hblinks : Reads float (writeFloat s.blinks) blinks) :
    record.Gathers Given.nothing s.members
      ⟨some s.input, some s.output, some s.frameRate, some duration, some shifts, some blinks,
        some s.loopMode⟩ := by
  have hrate := (reads_natural (by decide : 32 ≤ 64) s.frameRate.toNat_lt).map UInt32.ofNat
  rw [UInt32.ofNat_toNat] at hrate
  have hpath {path : Path} (h : Utf8.isValid path.bytes = true) :
      Reads readPath (writeStr path.bytes) path := (reads_string "path string" h).map Path.mk
  refine .cons (by decide) rfl (Record.Field.sets_of rfl (hpath hinput)) ?_
  refine .cons (by decide) rfl (Record.Field.sets_of rfl (hpath houtput)) ?_
  refine .cons (by decide) rfl (Record.Field.sets_of rfl hrate) ?_
  refine .cons (by decide) rfl (Record.Field.sets_of rfl hduration) ?_
  refine .cons (by decide) rfl (Record.Field.sets_of rfl hshifts) ?_
  refine .cons (by decide) rfl (Record.Field.sets_of rfl hblinks) ?_
  exact .cons (by decide) rfl (Record.Field.sets_of rfl (reads_loopMode s.loopMode)) (.nil _)

/-- **Settings that are written are read back**, with the three doubles as reading makes them. -/
theorem parse_members (hinput : Utf8.isValid s.input.bytes = true)
    (houtput : Utf8.isValid s.output.bytes = true)
    (hduration : Reads float (writeFloat s.duration) duration)
    (hshifts : Reads float (writeFloat s.shifts) shifts)
    (hblinks : Reads float (writeFloat s.blinks) blinks) :
    parse (writeObject s.members) =
      .ok { s with duration := duration, shifts := shifts, blinks := blinks } := by
  have hgathers := gathers_members hinput houtput hduration hshifts hblinks
  have hread : Reads record.read (writeObject s.members) _ :=
    Record.reads_object (List.cons_ne_nil _ _) hgathers rfl
  rw [parse, hread.whole]
  rfl

end RoundTrip

/-! ## §2 The round trip -/

/-- **Settings with paths that are text and finite doubles are written and read back**: every field
as it was, but for the doubles, which keep their sign and come back within six units in the last
place, and as they were if the significand and the power of ten of their text are doubles. -/
theorem print_then_parse (s : Settings) (hinput : Utf8.isValid s.input.bytes = true)
    (houtput : Utf8.isValid s.output.bytes = true) (hduration : s.duration.isFinite = true)
    (hshifts : s.shifts.isFinite = true) (hblinks : s.blinks.isFinite = true) :
    ∃ text t, s.print = .ok text ∧ parse text = .ok t ∧ t.input = s.input ∧
      t.output = s.output ∧ t.frameRate = s.frameRate ∧ t.loopMode = s.loopMode ∧
      ReadsBack s.duration t.duration ∧ ReadsBack s.shifts t.shifts ∧
      ReadsBack s.blinks t.blinks := by
  rw [← isSome_parts, Option.isSome_iff_exists] at hduration hshifts hblinks
  obtain ⟨d, hd⟩ := hduration
  obtain ⟨k, hk⟩ := hshifts
  obtain ⟨b, hb⟩ := hblinks
  obtain ⟨duration, hduration, hdback⟩ := exists_readsBack hd
  obtain ⟨shifts, hshifts, hkback⟩ := exists_readsBack hk
  obtain ⟨blinks, hblinks, hbback⟩ := exists_readsBack hb
  exact ⟨_, _, print_eq hinput houtput, parse_members hinput houtput (reads_float hd hduration)
    (reads_float hk hshifts) (reads_float hb hblinks), rfl, rfl, rfl, rfl, hdback, hkback, hbback⟩

/-- The default settings come back as they were. -/
theorem print_then_parse_default : Utf8.isValid default.input.bytes = true ∧
    Utf8.isValid default.output.bytes = true ∧ default.duration.isFinite = true ∧
    default.shifts.isFinite = true ∧ default.blinks.isFinite = true ∧
    ∃ text, default.print = .ok text ∧ parse text = .ok default := by
  have hinput : Utf8.isValid default.input.bytes = true := by decide
  have houtput : Utf8.isValid default.output.bytes = true := by decide
  have hduration : default.duration.isFinite = true := by decide +kernel
  have hshifts : default.shifts.isFinite = true := by decide +kernel
  have hblinks : default.blinks.isFinite = true := by decide +kernel
  obtain ⟨text, t, hprint, hparse, hin, hout, hrate, hloop, hd, hk, hb⟩ :=
    print_then_parse default hinput houtput hduration hshifts hblinks
  refine ⟨hinput, houtput, hduration, hshifts, hblinks, text, hprint, ?_⟩
  have hthree : parts 3.0 = some ⟨false, 3 * 2 ^ 51, -51⟩ := by decide +kernel
  have hone : parts 1.0 = some ⟨false, 2 ^ 52, -52⟩ := by decide +kernel
  have hd' := hd.eq hthree (by decide +kernel) (by decide +kernel)
  have hk' := hk.eq hone (by decide +kernel) (by decide +kernel)
  have hb' := hb.eq hthree (by decide +kernel) (by decide +kernel)
  rw [hparse]
  cases t
  simp_all

/-- A duration of 271 thirds of a second comes back one unit in the last place shorter. -/
theorem parse_shortens_duration :
    ∃ text t, { default with duration := 90.33333333333333 }.print = .ok text ∧
      parse text = .ok t ∧ t.duration = 90.33333333333331 ∧
      t.duration ≠ 90.33333333333333 := by
  have hd : parts 90.33333333333333 = some ⟨false, 0x16955555555555, -46⟩ := by decide +kernel
  have hthree : parts 3.0 = some ⟨false, 3 * 2 ^ 51, -51⟩ := by decide +kernel
  have hone : parts 1.0 = some ⟨false, 2 ^ 52, -52⟩ := by decide +kernel
  have hshorter : reread ⟨false, 0x16955555555555, -46⟩ = .ok 90.33333333333331 :=
    eq_ok_of_toBits (by decide +kernel)
  refine ⟨_, _, print_eq (by decide) (by decide), parse_members (by decide) (by decide)
    (reads_float hd hshorter)
    (reads_float hone (reread_exact hone (by decide +kernel) (by decide +kernel)))
    (reads_float hthree (reread_exact hthree (by decide +kernel) (by decide +kernel))), rfl, ?_⟩
  intro hsame
  have hbits := congrArg Float.toBits hsame
  revert hbits
  decide +kernel

end HueCycle.Settings
