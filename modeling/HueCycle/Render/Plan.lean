/-
HueCycle.Render.Plan — which of several jobs have to be done, when jobs with
equal keys have equal results.

A plan lists the positions of the jobs to do, and for every position the
slot, that is the place in that list, whose result serves it.
-/

namespace HueCycle.Render

/-- Jobs to do and the slot that serves each position. -/
structure Plan where
  unique : List Nat
  slots : List Nat
deriving Repr, DecidableEq

namespace Plan

/-- Every job is done for itself. -/
def separate (count : Nat) : Plan := ⟨List.range count, List.range count⟩

variable {κ : Type} [BEq κ]

/-- Do a job at the first position of its key. `seen` are the keys so far, in
the order of their slots. -/
def sharingFrom (seen : List κ) (position : Nat) : List κ → Plan
  | [] => ⟨[], []⟩
  | key :: keys =>
    match seen.idxOf? key with
    | some slot =>
      let plan := sharingFrom seen (position + 1) keys
      ⟨plan.unique, slot :: plan.slots⟩
    | none =>
      let plan := sharingFrom (seen ++ [key]) (position + 1) keys
      ⟨position :: plan.unique, seen.length :: plan.slots⟩

/-- One job for each key. -/
def sharing (keys : List κ) : Plan := sharingFrom [] 0 keys

end Plan

end HueCycle.Render
