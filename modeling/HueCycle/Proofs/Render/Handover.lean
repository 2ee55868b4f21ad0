/-
HueCycle.Proofs.Render.Handover — a shelf serves every position from its
slot, whatever the slots are, as long as they exist.

The invariant is `Stocks`: for each slot the shelf counts exactly the
positions still ahead that name it, and it still holds the result of every
slot that is named again. `take_stocks` is the step, `takeAll_stocks` the
run, and `serve_ok` puts the counting loop in front of it. What becomes of each
position and each slot is stated for the whole service (`serve_hands_out`).
-/
import Mathlib
import HueCycle.Render.Shelf

namespace HueCycle.Render.Shelf

variable {α : Type}

/-- The shelf is ready to serve the positions `ahead` with the results `rendered`. -/
structure Stocks (s : Shelf α) (rendered : List α) (ahead : List Nat) : Prop where
  remaining_size : s.remaining.size = rendered.length
  held_size : s.held.size = rendered.length
  counts : ∀ slot < rendered.length, s.remaining[slot]? = some (ahead.count slot)
  holds : ∀ slot < rendered.length, slot ∈ ahead → s.held[slot]? = some rendered[slot]?

/-- How the result of a slot is handed out when the positions `ahead` follow. -/
def handoverOf (slot : Nat) (ahead : List Nat) : Handover :=
  if slot ∈ ahead then .copied else .moved

/-! ## Counting -/

/-- One more use of a slot. -/
def countUse (counts : Array Nat) (slot : Nat) : Except ShelfFault (Array Nat) :=
  if slot < counts.size then .ok (counts.modify slot (· + 1)) else .error .noSuchSlot

theorem foldlM_countUse {size : Nat} {slots : List Nat} (h : ∀ slot ∈ slots, slot < size)
    {counts : Array Nat} (hsize : counts.size = size) :
    ∃ total, slots.foldlM countUse counts = .ok total ∧ total.size = size ∧
      ∀ slot, total[slot]? = counts[slot]?.map (· + slots.count slot) := by
  induction slots generalizing counts with
  | nil => exact ⟨counts, rfl, hsize, fun slot => by simp⟩
  | cons first rest ih =>
    have hfirst : first < counts.size := by
      rw [hsize]
      exact h first List.mem_cons_self
    have hmodify : (counts.modify first (· + 1)).size = size := by rw [Array.size_modify, hsize]
    obtain ⟨total, hrun, htotal, hvalue⟩ :=
      ih (fun slot hs => h slot (List.mem_cons_of_mem _ hs)) hmodify
    refine ⟨total, ?_, htotal, fun slot => ?_⟩
    · rw [List.foldlM_cons, countUse, if_pos hfirst]
      exact hrun
    · rw [hvalue slot, Array.getElem?_modify, List.count_cons]
      by_cases hs : first = slot
      · subst hs
        rw [Array.getElem?_eq_getElem hfirst]
        simp
        omega
      · simp [hs]

theorem countUses_ok {size : Nat} {slots : List Nat} (h : ∀ slot ∈ slots, slot < size) :
    ∃ counts, countUses size slots = .ok counts ∧ counts.size = size ∧
      ∀ slot < size, counts[slot]? = some (slots.count slot) := by
  have hzero : (Array.replicate size 0).size = size := Array.size_replicate
  obtain ⟨counts, hrun, hsize, hvalue⟩ := foldlM_countUse h hzero
  refine ⟨counts, hrun, hsize, ?_⟩
  intro slot hs
  rw [hvalue slot, Array.getElem?_replicate, if_pos hs]
  simp

/-- A shelf freshly stocked is ready for the positions it was stocked for. -/
theorem stock_stocks {rendered : List α} {slots : List Nat}
    (h : ∀ slot ∈ slots, slot < rendered.length) :
    ∃ s, stock rendered slots = .ok s ∧ Stocks s rendered slots := by
  obtain ⟨counts, hrun, hsize, hvalue⟩ := countUses_ok h
  refine ⟨⟨counts, (rendered.map some).toArray⟩, ?_, hsize, by simp, hvalue, ?_⟩
  · rw [stock, hrun]
    rfl
  · intro slot hs _
    simp [hs]

/-! ## Handing out -/

/-- One position is served from its slot, and the shelf stays ready for the rest. -/
theorem take_stocks {s : Shelf α} {rendered : List α} {slot : Nat} {ahead : List Nat}
    (hs : Stocks s rendered (slot :: ahead)) (hslot : slot < rendered.length) :
    ∃ s', s.take slot = .ok ((rendered[slot], handoverOf slot ahead), s') ∧
      Stocks s' rendered ahead := by
  have hcount : s.remaining[slot]? = some (ahead.count slot + 1) := by
    rw [hs.counts slot hslot, List.count_cons_self]
  have hheld : s.held[slot]? = some (some rendered[slot]) := by
    rw [hs.holds slot hslot List.mem_cons_self, List.getElem?_eq_getElem hslot]
  have hcounts : ∀ other < rendered.length,
      (s.remaining.modify slot fun _ => ahead.count slot)[other]?
        = some (ahead.count other) := by
    intro other hother
    rw [Array.getElem?_modify, hs.counts other hother]
    by_cases heq : slot = other
    · subst heq; simp
    · simp [heq]
  unfold take
  rw [hcount, hheld]
  dsimp only
  by_cases hlast : ahead.count slot = 0
  · -- nobody asks for this slot again, so what stays behind in it does not matter
    have hnot : slot ∉ ahead := List.count_eq_zero.mp hlast
    refine ⟨⟨s.remaining.modify slot fun _ => ahead.count slot,
      s.held.modify slot fun _ => none⟩, ?_, ?_⟩
    · rw [if_pos hlast, handoverOf, if_neg hnot]
    · refine ⟨by simp [hs.remaining_size], by simp [hs.held_size], hcounts, ?_⟩
      intro other hother hmem
      have hne : slot ≠ other := fun heq => hnot (heq ▸ hmem)
      rw [Array.getElem?_modify, if_neg hne]
      exact hs.holds other hother (List.mem_cons_of_mem _ hmem)
  · have hmem : slot ∈ ahead := List.count_pos_iff.mp (Nat.pos_of_ne_zero hlast)
    refine ⟨⟨s.remaining.modify slot fun _ => ahead.count slot, s.held⟩, ?_, ?_⟩
    · rw [if_neg hlast, handoverOf, if_pos hmem]
    · exact ⟨by simp [hs.remaining_size], hs.held_size, hcounts,
        fun other hother hmem => hs.holds other hother (List.mem_cons_of_mem _ hmem)⟩

/-- What is handed out for slots, one after the other. -/
def handouts (rendered : List α) : List Nat → List (Option α × Handover)
  | [] => []
  | slot :: ahead => (rendered[slot]?, handoverOf slot ahead) :: handouts rendered ahead

/-- All positions are served, and nothing is left to count afterwards. -/
theorem takeAll_stocks {rendered : List α} {slots : List Nat} {s : Shelf α}
    (hs : Stocks s rendered slots) (h : ∀ slot ∈ slots, slot < rendered.length) :
    ∃ given s', s.takeAll slots = .ok (given, s') ∧
      given.map (fun g => (some g.1, g.2)) = handouts rendered slots ∧
      Stocks s' rendered [] := by
  induction slots generalizing s with
  | nil => exact ⟨[], s, rfl, rfl, hs⟩
  | cons slot ahead ih =>
    have hslot := h slot List.mem_cons_self
    obtain ⟨s₁, htake, hs₁⟩ := take_stocks hs hslot
    obtain ⟨given, s₂, hrun, hgiven, hs₂⟩ :=
      ih hs₁ fun other ho => h other (List.mem_cons_of_mem _ ho)
    refine ⟨(rendered[slot], handoverOf slot ahead) :: given, s₂, ?_, ?_, hs₂⟩
    · rw [takeAll, htake]
      simp only [hrun]
    · rw [List.map_cons, hgiven, handouts, List.getElem?_eq_getElem hslot]

/-- Serving slots that exist never fails. -/
theorem serve_ok {rendered : List α} {slots : List Nat}
    (h : ∀ slot ∈ slots, slot < rendered.length) :
    ∃ given s, serve rendered slots = .ok (given, s) ∧
      given.map (fun g => (some g.1, g.2)) = handouts rendered slots ∧
      Stocks s rendered [] := by
  obtain ⟨s, hstock, hs⟩ := stock_stocks h
  obtain ⟨given, s', hrun, hgiven, hs'⟩ := takeAll_stocks hs h
  refine ⟨given, s', ?_, hgiven, hs'⟩
  rw [serve, hstock]
  exact hrun

theorem map_fst_handouts (rendered : List α) (slots : List Nat) :
    (handouts rendered slots).map Prod.fst = slots.map (rendered[·]?) := by
  induction slots with
  | nil => rfl
  | cons slot ahead ih => rw [handouts, List.map_cons, ih, List.map_cons]

/-! ## The whole service -/

theorem held_of_stock {rendered : List α} {slots : List Nat} {s : Shelf α}
    (h : stock rendered slots = .ok s) : s.held = (rendered.map some).toArray := by
  unfold stock at h
  cases hcount : countUses rendered.length slots with
  | error fault =>
    rw [hcount] at h
    cases h
  | ok counts =>
    rw [hcount] at h
    cases h
    rfl

/-- A slot is emptied by the move of its result, and by nothing else. -/
theorem held_of_take {s s' : Shelf α} {slot : Nat} {a : α} {how : Handover}
    (h : s.take slot = .ok ((a, how), s')) :
    s'.held = if how = .moved then s.held.modify slot fun _ => none else s.held := by
  unfold take at h
  split at h
  · split at h
    · cases h
      rfl
    · cases h
      rfl
  · cases h
  · cases h
  · cases h

/-- After all positions the slots that were named are empty, and the others are as they were. -/
theorem held_of_takeAll {rendered : List α} {slots : List Nat} {s s' : Shelf α}
    {given : List (α × Handover)} (hs : Stocks s rendered slots)
    (h : ∀ slot ∈ slots, slot < rendered.length) (hrun : s.takeAll slots = .ok (given, s'))
    (slot : Nat) : s'.held[slot]? = if slot ∈ slots then some none else s.held[slot]? := by
  induction slots generalizing s given with
  | nil =>
    cases hrun
    rw [if_neg List.not_mem_nil]
  | cons first ahead ih =>
    obtain ⟨s₁, htake, hs₁⟩ := take_stocks hs (h first List.mem_cons_self)
    have hfirst : first < s.held.size := hs.held_size ▸ h first List.mem_cons_self
    have hheld := held_of_take htake
    rw [takeAll, htake] at hrun
    dsimp only at hrun
    cases hlater : s₁.takeAll ahead with
    | error fault =>
      rw [hlater] at hrun
      cases hrun
    | ok later =>
      rw [hlater] at hrun
      cases hrun
      rw [ih hs₁ (fun other ho => h other (List.mem_cons_of_mem _ ho)) hlater]
      by_cases hahead : slot ∈ ahead
      · rw [if_pos hahead, if_pos (List.mem_cons_of_mem _ hahead)]
      · rw [if_neg hahead, hheld]
        by_cases heq : slot = first
        · -- the last position of the slot: its result has just been moved
          subst heq
          have hmoved : handoverOf slot ahead = .moved := if_neg hahead
          rw [if_pos hmoved, if_pos List.mem_cons_self, Array.getElem?_modify, if_pos rfl,
            Array.getElem?_eq_getElem hfirst]
          rfl
        · have hunnamed : slot ∉ first :: ahead := by simp [heq, hahead]
          rw [if_neg hunnamed]
          split
          · rw [Array.getElem?_modify, if_neg (Ne.symm heq)]
          · rfl

theorem getElem?_handouts (rendered : List α) (slots : List Nat) (j : Nat) :
    (handouts rendered slots)[j]? =
      slots[j]?.map fun slot => (rendered[slot]?, handoverOf slot (slots.drop (j + 1))) := by
  induction slots generalizing j with
  | nil => rfl
  | cons slot ahead ih =>
    cases j with
    | zero => rfl
    | succ j => rw [handouts, List.getElem?_cons_succ, ih, List.getElem?_cons_succ,
        List.drop_succ_cons]

/-- **Every position gets the result of its slot**, whatever the slots are: slots out of range are
never asked for, none is counted below zero and none is found empty. A result is copied for all
positions of its slot but the last one, where it is moved. In the end every count is zero and
exactly the results that nobody asked for are still there. -/
theorem serve_hands_out (rendered : List α) (slots : List Nat)
    (h : ∀ slot ∈ slots, slot < rendered.length) :
    ∃ given s, serve rendered slots = .ok (given, s) ∧ given.length = slots.length ∧
      (∀ (j slot : Nat), slots[j]? = some slot → ∃ image, rendered[slot]? = some image ∧
        given[j]? = some (image, if slot ∈ slots.drop (j + 1) then .copied else .moved)) ∧
      s.remaining = Array.replicate rendered.length 0 ∧
      ∀ slot, s.held[slot]? =
        if slot ∈ slots then some none else rendered[slot]?.map some := by
  obtain ⟨s, hstock, hs⟩ := stock_stocks h
  obtain ⟨given, s', hrun, hgiven, hs'⟩ := takeAll_stocks hs h
  have hat (j : Nat) : given[j]?.map (fun g => (some g.1, g.2)) =
      slots[j]?.map fun slot => (rendered[slot]?, handoverOf slot (slots.drop (j + 1))) := by
    rw [← getElem?_handouts, ← hgiven, List.getElem?_map]
  refine ⟨given, s', ?_, ?_, fun j slot hj => ?_, ?_, fun slot => ?_⟩
  · rw [serve, hstock]
    exact hrun
  · have hlength := congrArg List.length (congrArg (List.map Prod.fst) hgiven)
    rw [map_fst_handouts] at hlength
    simpa using hlength
  · have hslot := h slot (List.mem_of_getElem? hj)
    have hthere := hat j
    rw [hj, Option.map_some, Option.map_eq_some_iff] at hthere
    obtain ⟨g, hg, heq⟩ := hthere
    obtain ⟨himage, hhow⟩ := Prod.mk.inj heq
    exact ⟨g.1, himage.symm, by rw [hg, ← handoverOf, ← hhow]⟩
  · refine Array.ext (by rw [hs'.remaining_size, Array.size_replicate]) fun slot hi _ => ?_
    have hslot : slot < rendered.length := hs'.remaining_size ▸ hi
    have hcount := hs'.counts slot hslot
    rw [Array.getElem?_eq_getElem hi, List.count_nil] at hcount
    rw [Option.some.inj hcount, Array.getElem_replicate]
  · rw [held_of_takeAll hs h hrun, held_of_stock hstock, List.getElem?_toArray,
      List.getElem?_map]

/-- Three results for four positions: the third one for three of them, the second one for none. -/
theorem serve_hands_out_three_times : (∀ slot ∈ [2, 0, 2, 2], slot < [10, 20, 30].length) ∧
    ∃ given s, serve [10, 20, 30] [2, 0, 2, 2] = .ok (given, s) ∧
      given = [(30, .copied), (10, .moved), (30, .copied), (30, .moved)] ∧
      s.remaining = #[0, 0, 0] ∧ s.held = #[none, some 20, none] := by
  have h : ∀ slot ∈ [2, 0, 2, 2], slot < [10, 20, 30].length := by decide
  obtain ⟨given, s, hrun, hlength, hgiven, hremaining, hheld⟩ :=
    serve_hands_out [10, 20, 30] [2, 0, 2, 2] h
  refine ⟨h, given, s, hrun, ?_, hremaining, ?_⟩
  · have hat (j slot image : Nat) (hj : [2, 0, 2, 2][j]? = some slot)
        (himage : [10, 20, 30][slot]? = some image) : given[j]? =
          some (image, if slot ∈ [2, 0, 2, 2].drop (j + 1) then .copied else .moved) := by
      obtain ⟨_, hsame, hg⟩ := hgiven j slot hj
      rw [himage] at hsame
      cases hsame
      exact hg
    refine List.ext_getElem? fun j => ?_
    match j with
    | 0 => exact hat 0 2 30 rfl rfl
    | 1 => exact hat 1 0 10 rfl rfl
    | 2 => exact hat 2 2 30 rfl rfl
    | 3 => exact hat 3 2 30 rfl rfl
    | j + 4 => exact List.getElem?_eq_none (by simp [hlength])
  · refine Array.ext_getElem? fun slot => ?_
    match slot with
    | 0 => exact hheld 0
    | 1 => exact hheld 1
    | 2 => exact hheld 2
    | slot + 3 => simp [hheld]

end HueCycle.Render.Shelf
