/-
HueCycle.Proofs.Png.Filters — rows stored with any filters are read back.

A filter predicts an octet from the ones before it in reading order, and these
are back in place when the octet is reached; so adding the prediction undoes
subtracting it, whatever the prediction is (`unfilter_differences`). A writer
may choose a filter for each row, and the rows read are the same.
-/
import Mathlib
import HueCycle.Proofs.Png.Rows

namespace HueCycle.Png

/-! ## §1 One row -/

/-- What a filter predicts for octet `i` of a row, from the octets before it and from the row
above. -/
def predictAt (filter stride : Nat) (above row : Row) (i : Nat) : UInt8 :=
  let back (r : Row) : UInt8 := if stride ≤ i then (r[i - stride]?).getD 0 else 0
  predict filter (back row) ((above[i]?).getD 0) (back above)

/-- A row as a filter stores it: each octet less what is predicted for it. -/
def differences (filter stride : Nat) (above row : Row) : Bytes :=
  (List.range row.size).map fun i => (row[i]?).getD 0 - predictAt filter stride above row i

@[simp] theorem length_differences (filter stride : Nat) (above row : Row) :
    (differences filter stride above row).length = row.size := by
  rw [differences, List.length_map, List.length_range]

/-- Rows that agree before an octet give it the same prediction. -/
theorem predictAt_of_agree {filter stride : Nat} (hstride : 0 < stride) (above : Row)
    {row row' : Row} {i : Nat} (h : ∀ j < i, row[j]? = row'[j]?) :
    predictAt filter stride above row i = predictAt filter stride above row' i := by
  unfold predictAt
  dsimp only
  split
  · rw [h (i - stride) (by omega)]
  · rfl

/-- **A row survives its filter.** -/
theorem unfilter_differences {filter stride : Nat} (hstride : 0 < stride) (above row : Row) :
    unfilter filter stride above (differences filter stride above row) = row := by
  -- the first `n` differences give the first `n` octets
  have hfirst : ∀ n ≤ row.size, ((List.range n).map fun i =>
      (row[i]?).getD 0 - predictAt filter stride above row i).foldl
        (fun (r : Row) b => r.push (b + predictAt filter stride above r r.size)) #[] =
      row.extract 0 n := by
    intro n
    induction n with
    | zero => simp
    | succ n ih =>
      intro hn
      have hsize : (row.extract 0 n).size = n := by
        rw [Array.size_extract]
        omega
      have hagree : ∀ j < n, (row.extract 0 n)[j]? = row[j]? := by
        intro j hj
        rw [Array.getElem?_extract, if_pos (by omega), Nat.zero_add]
      rw [List.range_succ, List.map_append, List.foldl_append, ih (by omega)]
      show (row.extract 0 n).push (_ + predictAt _ _ _ _ (row.extract 0 n).size) = _
      rw [hsize, predictAt_of_agree hstride above hagree, sub_add_cancel,
        Array.getElem?_eq_getElem (by omega), Option.getD_some,
        Array.push_extract_getElem (by omega)]
      rw [Nat.zero_min]
  have hall := hfirst row.size le_rfl
  rw [Array.extract_size] at hall
  exact hall

/-! ## §2 All rows -/

/-- The rows of samples with four octets a pixel and `width` pixels a row, each with its filter. -/
def filteredRows (width : Nat) : List UInt8 → Row → Bytes → Bytes
  | [], _, _ => []
  | filter :: filters, above, samples =>
    let row := (samples.take (4 * width)).toArray
    filter :: differences filter.toNat 4 above row ++
      filteredRows width filters row (samples.drop (4 * width))

/-- Rows are read back, whichever filters they are stored with. -/
theorem readRows_filteredRows {width : Nat} {filters : List UInt8} {samples : Bytes} (above : Row)
    (hfilters : ∀ f ∈ filters, f ≤ 4) (h : samples.length = 4 * width * filters.length) :
    readRows 4 (4 * width) filters.length above (filteredRows width filters above samples) =
      .ok ((List.range filters.length).map (sampleRow width samples), []) := by
  induction filters generalizing samples above with
  | nil => rfl
  | cons filter filters ih =>
    rw [List.length_cons, Nat.mul_succ] at h
    have hrest : (samples.drop (4 * width)).length = 4 * width * filters.length := by
      rw [List.length_drop]
      omega
    have hfirst : (samples.take (4 * width)).toArray = sampleRow width samples 0 := by
      rw [sampleRow, Nat.mul_zero, List.drop_zero]
    have hsize : (sampleRow width samples 0).size = 4 * width := by
      rw [← hfirst, List.size_toArray, List.length_take]
      omega
    have hrow (y : Nat) :
        sampleRow width (samples.drop (4 * width)) y = sampleRow width samples (y + 1) := by
      rw [sampleRow, sampleRow, List.drop_drop, Nat.mul_succ, Nat.add_comm]
    have hstored := (length_differences filter.toNat 4 above _).trans hsize
    have hfilter : ¬ (4 : UInt8) < filter := UInt8.not_lt.mpr (hfilters filter List.mem_cons_self)
    rw [filteredRows, hfirst, List.cons_append, List.length_cons, readRows, List.splitAt_eq,
      List.take_left' hstored, List.drop_left' hstored]
    simp only [if_neg hfilter, if_neg hstored.not_lt, unfilter_differences (Nat.succ_pos 3),
      ih _ (fun f hf => hfilters f (List.mem_cons_of_mem _ hf)) hrest, List.range_succ_eq_map,
      List.map_cons, List.map_map]
    rw [List.map_congr_left fun y _ => hrow y]
    rfl

/-- The rows of an image, each with its filter. -/
def filteredImageRows (image : Bitmap) (filters : List UInt8) : Bytes :=
  filteredRows image.canvas.width.toNat filters #[] image.samples

/-- **The rows of an image stand for the image**, whichever filters they are stored with. -/
theorem image_filteredImageRows {image : Bitmap} (h : image.canvas.hasPixels = true)
    {filters : List UInt8} (hlength : filters.length = image.canvas.height.toNat)
    (hfilters : ∀ f ∈ filters, f ≤ 4) :
    (Prelude.ofHeader (Header.plain image.canvas)).image (filteredImageRows image filters) =
      .ok image := by
  have hrows := readRows_filteredRows #[] hfilters (hlength ▸ length_samples_rows image)
  exact image_of_readRows h (hlength ▸ hrows)

end HueCycle.Png
