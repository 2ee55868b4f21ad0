/-
HueCycle.Render.Pool — collecting the answers of jobs that finish in any
order. If every job succeeds, the results come in the order of the jobs. If
some fail, the error of the one that finished first is the answer.
-/

namespace HueCycle.Render

/-- The order in which a number of jobs finish. -/
structure Pool where
  finish : Nat → List Nat
  perm : ∀ n, (finish n).Perm (List.range n)

namespace Pool

/-- Jobs finish one after the other. -/
def inOrder : Pool := ⟨List.range, fun _ => List.Perm.refl _⟩

variable {ε α : Type}

/-- The error of an answer. -/
def errorOf? : Except ε α → Option ε
  | .error e => some e
  | .ok _ => none

/-- The results of all answers, or the error of the failed job that comes
first in `finished`. -/
def collect (finished : List Nat) (answers : List (Except ε α)) : Except ε (List α) :=
  match finished.findSome? fun i => answers[i]?.bind errorOf? with
  | some e => .error e
  | none => .ok (answers.filterMap Except.toOption)

/-- Start all jobs, and collect their answers as they finish. -/
def run (pool : Pool) (jobs : List (Unit → Except ε α)) : Except ε (List α) :=
  let answers := (jobs.map fun job => Task.spawn job).map Task.get
  collect (pool.finish answers.length) answers

end Pool

end HueCycle.Render
