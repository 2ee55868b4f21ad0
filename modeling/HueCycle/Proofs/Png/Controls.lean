/-
HueCycle.Proofs.Png.Controls — headers and control chunks are read back.

Their fields have fixed places, so each proof names the octets of every
field, lets the reader cut them out again, and puts the fields together.
-/
import Mathlib
import HueCycle.Png.Control
import HueCycle.Proofs.Png.Framing

namespace HueCycle.Png

/-! ## §1 Octets by name -/

theorem bigEndian_four (n : Nat) : ∃ a b c d, bigEndian 4 n = [a, b, c, d] :=
  List.length_eq_four.mp (length_bigEndian 4 n)

theorem bigEndian_two (n : Nat) : ∃ a b, bigEndian 2 n = [a, b] :=
  List.length_eq_two.mp (length_bigEndian 2 n)

/-! ## §2 The header -/

theorem length_write_plain (canvas : Canvas) : (Header.plain canvas).write.length = 13 := by
  simp [Header.write]

/-- A header is read back if there is a pixel. -/
theorem Header.read?_write_plain {canvas : Canvas} (h : canvas.hasPixels = true) :
    Header.read? (Header.plain canvas).write = some (Header.plain canvas) := by
  obtain ⟨a, b, c, d, hw⟩ := bigEndian_four canvas.width.toNat
  obtain ⟨e, f, g, i, hh⟩ := bigEndian_four canvas.height.toNat
  have hwrite : (Header.plain canvas).write = [a, b, c, d, e, f, g, i, 8, 6, 0, 0, 0] := by
    show bigEndian 4 canvas.width.toNat ++ bigEndian 4 canvas.height.toNat ++ _ = _
    rw [hw, hh]
    rfl
  have hwidth : UInt32.ofNat (ofBigEndian [a, b, c, d]) = canvas.width := by
    rw [← hw, ofNat_ofBigEndian_word]
  have hheight : UInt32.ofNat (ofBigEndian [e, f, g, i]) = canvas.height := by
    rw [← hh, ofNat_ofBigEndian_word]
  have hcanvas : (⟨canvas.width, canvas.height⟩ : Canvas) = canvas := rfl
  rw [hwrite, Header.read?]
  simp only [List.take, List.drop, hwidth, hheight, hcanvas]
  show (if canvas.hasPixels && true && true then some (Header.plain canvas) else none) = _
  rw [h]
  rfl

/-! ## §3 Animation control -/

theorem AnimationControl.length_write (c : AnimationControl) : c.write.length = 8 := by
  simp [AnimationControl.write]

@[simp] theorem AnimationControl.read?_write (c : AnimationControl) :
    AnimationControl.read? c.write = some c := by
  have htake : c.write.take 4 = bigEndian 4 c.frames.toNat :=
    List.take_left' (length_bigEndian _ _)
  have hdrop : c.write.drop 4 = bigEndian 4 c.plays.toNat := List.drop_left' (length_bigEndian _ _)
  rw [AnimationControl.read?, if_pos c.length_write, htake, hdrop, ofNat_ofBigEndian_word,
    ofNat_ofBigEndian_word]

/-! ## §4 Frame control -/

/-- What becomes of the frame and how it meets what was there have numbers
that the format knows. -/
def FrameControl.Known (c : FrameControl) : Prop := c.dispose ≤ 2 ∧ c.blend ≤ 1

theorem FrameControl.length_write (sequence : Nat) (c : FrameControl) :
    (c.write sequence).length = FrameControl.length := by
  simp [FrameControl.write, FrameControl.length]

/-- A frame control is read back, its sequence number modulo `2 ^ 32`. -/
theorem FrameControl.read?_write {c : FrameControl} (h : c.Known) (sequence : Nat) :
    FrameControl.read? (c.write sequence) = some (sequence % 0x100000000, c) := by
  obtain ⟨s0, s1, s2, s3, hs⟩ := bigEndian_four sequence
  obtain ⟨w0, w1, w2, w3, hw⟩ := bigEndian_four c.region.width.toNat
  obtain ⟨h0, h1, h2, h3, hh⟩ := bigEndian_four c.region.height.toNat
  obtain ⟨x0, x1, x2, x3, hx⟩ := bigEndian_four c.x.toNat
  obtain ⟨y0, y1, y2, y3, hy⟩ := bigEndian_four c.y.toNat
  obtain ⟨n0, n1, hn⟩ := bigEndian_two c.delay.num.toNat
  obtain ⟨d0, d1, hd⟩ := bigEndian_two c.delay.den.toNat
  have hwrite : c.write sequence = [s0, s1, s2, s3, w0, w1, w2, w3, h0, h1, h2, h3, x0, x1, x2, x3,
      y0, y1, y2, y3, n0, n1, d0, d1, c.dispose, c.blend] := by
    rw [FrameControl.write, hs, hw, hh, hx, hy, hn, hd]
    rfl
  have hsequence : ofBigEndian [s0, s1, s2, s3] = sequence % 0x100000000 := by
    rw [← hs, ofBigEndian_bigEndian]
    rfl
  have hwidth := ofNat_ofBigEndian_word c.region.width
  have hheight := ofNat_ofBigEndian_word c.region.height
  have hleft := ofNat_ofBigEndian_word c.x
  have htop := ofNat_ofBigEndian_word c.y
  have hnum := ofNat_ofBigEndian_short c.delay.num
  have hden := ofNat_ofBigEndian_short c.delay.den
  rw [hw] at hwidth
  rw [hh] at hheight
  rw [hx] at hleft
  rw [hy] at htop
  rw [hn] at hnum
  rw [hd] at hden
  have hknown : c.dispose ≤ 2 ∧ c.blend ≤ 1 := h
  rw [hwrite, FrameControl.read?]
  simp only [List.take, List.drop, hsequence, hwidth, hheight,
    hleft, htop, hnum, hden, hknown, and_self, if_true]

theorem FrameControl.known_full (canvas : Canvas) (delay : FrameDelay) :
    (FrameControl.full canvas delay).Known := by
  show (0 : UInt8) ≤ 2 ∧ (0 : UInt8) ≤ 1
  decide

theorem FrameControl.covers_full (canvas : Canvas) (delay : FrameDelay) :
    (FrameControl.full canvas delay).covers canvas = true := by
  simp [FrameControl.covers, FrameControl.full]

theorem FrameControl.fits_full {canvas : Canvas} (h : canvas.hasPixels = true)
    (delay : FrameDelay) : (FrameControl.full canvas delay).fits canvas = true := by
  simp [FrameControl.fits, FrameControl.full, h]

end HueCycle.Png
