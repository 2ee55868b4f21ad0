/-
HueCycle.Proofs.Render.Sharing — a plan serves every position by a job of
the same key that stands no later.

`Plan.Serves` says what a plan owes to the positions `0 … n - 1`, whose
keys are given by a function; both ways of planning keep it
(`serves_separate`, `serves_sharing`). A plan that shares does each key
once, at the first position that has it (`unique_sharing`).
-/
import Mathlib
import HueCycle.Render.Plan

namespace HueCycle.Render.Plan

variable {κ : Type}

/-- Every position below `n` is served by a job of its own key that stands no
later, and the jobs stand in increasing order. -/
structure Serves (plan : Plan) (key : Nat → κ) (n : Nat) : Prop where
  length_slots : plan.slots.length = n
  served : ∀ j slot, plan.slots[j]? = some slot →
    ∃ i, plan.unique[slot]? = some i ∧ i ≤ j ∧ key i = key j
  increasing : plan.unique.Pairwise (· < ·)
  below : ∀ i ∈ plan.unique, i < n

theorem serves_separate (key : Nat → κ) (n : Nat) : (separate n).Serves key n where
  length_slots := List.length_range
  served := by
    intro j slot h
    have hj : j < n := by
      have := (List.getElem?_eq_some_iff.mp h).1
      simpa [separate] using this
    have hslot : j = slot := by
      rw [separate, List.getElem?_range hj] at h
      exact Option.some.inj h
    subst hslot
    exact ⟨j, by rw [separate, List.getElem?_range hj], le_rfl, rfl⟩
  increasing := List.pairwise_lt_range
  below := fun i hi => List.mem_range.mp hi

variable [BEq κ] [LawfulBEq κ]

/-- What a plan from `position` on does when the keys `seen` have their slots
already: slots name the key in the table of old and new keys, and a new job
is the first one of a key that was not seen. -/
theorem sharingFrom_spec (key : Nat → κ) (seen : List κ) (position n : Nat) :
    let plan := sharingFrom seen position ((List.range' position n).map key)
    plan.slots.length = n ∧
    (∀ j slot, plan.slots[j]? = some slot →
      (seen ++ plan.unique.map key)[slot]? = some (key (position + j))) ∧
    plan.unique.Pairwise (· < ·) ∧
    ∀ i ∈ plan.unique, position ≤ i ∧ i < position + n ∧ key i ∉ seen ∧
      ∀ j, position ≤ j → j < i → key j ≠ key i := by
  induction n generalizing seen position with
  | zero => simp [sharingFrom]
  | succ n ih =>
    rw [List.range'_succ, List.map_cons]
    dsimp only
    cases hseen : seen.idxOf? (key position) with
    | some slot =>
      have ih := ih seen (position + 1)
      simp only [sharingFrom, hseen]
      generalize sharingFrom seen (position + 1) ((List.range' (position + 1) n).map key) = plan
        at ih
      obtain ⟨hlength, hslots, hincreasing, hunique⟩ := ih
      obtain ⟨hbound, hkey, -⟩ := List.idxOf?_eq_some_iff.mp hseen
      refine ⟨by simp [hlength], ?_, hincreasing, ?_⟩
      · intro j s hj
        cases j with
        | zero =>
          have hs : slot = s := by simpa using hj
          subst hs
          rw [List.getElem?_append_left hbound, List.getElem?_eq_getElem hbound]
          simpa using hkey
        | succ j =>
          have hkey := hslots j s (by simpa using hj)
          rw [show position + (j + 1) = position + 1 + j from by omega]
          exact hkey
      · intro i hi
        obtain ⟨hlow, hhigh, hnew, hfirst⟩ := hunique i hi
        refine ⟨by omega, by omega, hnew, ?_⟩
        intro j hj hji
        by_cases hjp : j = position
        · subst hjp
          intro heq
          exact hnew (heq ▸ List.mem_of_getElem hkey)
        · exact hfirst j (by omega) hji
    | none =>
      have ih := ih (seen ++ [key position]) (position + 1)
      simp only [sharingFrom, hseen]
      generalize sharingFrom (seen ++ [key position]) (position + 1)
        ((List.range' (position + 1) n).map key) = plan at ih
      obtain ⟨hlength, hslots, hincreasing, hunique⟩ := ih
      refine ⟨by simp [hlength], ?_, ?_, ?_⟩
      · intro j s hj
        cases j with
        | zero =>
          have hs : seen.length = s := by simpa using hj
          subst hs
          simp
        | succ j =>
          have hkey := hslots j s (by simpa using hj)
          rw [List.append_assoc] at hkey
          rw [show position + (j + 1) = position + 1 + j from by omega]
          exact hkey
      · refine List.pairwise_cons.mpr ⟨?_, hincreasing⟩
        intro i hi
        have := (hunique i hi).1
        omega
      · intro i hi
        rcases List.mem_cons.mp hi with rfl | hi
        · exact ⟨le_rfl, by omega, List.idxOf?_eq_none_iff.mp hseen, fun j hj hji => by omega⟩
        · obtain ⟨hlow, hhigh, hnew, hfirst⟩ := hunique i hi
          rw [List.mem_append, not_or] at hnew
          refine ⟨by omega, by omega, hnew.1, ?_⟩
          intro j hj hji
          by_cases hjp : j = position
          · subst hjp
            exact fun heq => hnew.2 (by simp [heq])
          · exact hfirst j (by omega) hji

/-- A job of a plan that shares is the first one of its key. -/
theorem unique_sharing (key : Nat → κ) (n : Nat) {i : Nat}
    (hi : i ∈ (sharing ((List.range n).map key)).unique) :
    i < n ∧ ∀ j < i, key j ≠ key i := by
  rw [sharing, List.range_eq_range'] at hi
  obtain ⟨-, hhigh, -, hfirst⟩ := (sharingFrom_spec key [] 0 n).2.2.2 i hi
  exact ⟨by omega, fun j hj => hfirst j (Nat.zero_le j) hj⟩

theorem serves_sharing (key : Nat → κ) (n : Nat) :
    (sharing ((List.range n).map key)).Serves key n := by
  have hspec := sharingFrom_spec key [] 0 n
  rw [← List.range_eq_range'] at hspec
  obtain ⟨hlength, hslots, hincreasing, -⟩ := hspec
  refine ⟨hlength, ?_, hincreasing, fun i hi => (unique_sharing key n hi).1⟩
  intro j slot hj
  have hkey := hslots j slot hj
  rw [List.nil_append, List.getElem?_map, Option.map_eq_some_iff] at hkey
  obtain ⟨i, hi, hkey⟩ := hkey
  rw [Nat.zero_add] at hkey
  refine ⟨i, hi, ?_, hkey⟩
  -- a later job would not be the first one of its key
  by_contra hlt
  exact (unique_sharing key n (List.mem_of_getElem? hi)).2 j (by omega) hkey.symm

end HueCycle.Render.Plan
