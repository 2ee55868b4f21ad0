/-
HueCycle.Render.Shelf — handing out results that serve several positions.

A shelf holds one result in each slot and counts for each slot how many
positions it has still to serve. All but the last of them get a copy; the
last one gets the result itself, and the slot is empty afterwards.
-/

namespace HueCycle.Render

/-- What can go wrong at a shelf. -/
inductive ShelfFault where
  | noSuchSlot
  | nothingLeftToServe
  | slotEmpty
deriving Repr, DecidableEq

/-- How a result was handed out. -/
inductive Handover where
  | copied
  | moved
deriving Repr, DecidableEq

/-- Results with the number of positions that each has still to serve. -/
structure Shelf (α : Type) where
  remaining : Array Nat
  held : Array (Option α)

namespace Shelf

variable {α : Type}

/-- Count the positions that each of `size` slots serves; a slot number out of
range is refused. -/
def countUses (size : Nat) (slots : List Nat) : Except ShelfFault (Array Nat) :=
  slots.foldlM (fun counts slot =>
    if slot < counts.size then .ok (counts.modify slot (· + 1)) else .error .noSuchSlot)
    (Array.replicate size 0)

/-- A shelf with the given results, for the given positions. -/
def stock (rendered : List α) (slots : List Nat) : Except ShelfFault (Shelf α) := do
  return ⟨← countUses rendered.length slots, (rendered.map some).toArray⟩

/-- Hand out the result of a slot. -/
def take (s : Shelf α) (slot : Nat) : Except ShelfFault ((α × Handover) × Shelf α) :=
  match s.remaining[slot]?, s.held[slot]? with
  | some (left + 1), some (some a) =>
    let remaining := s.remaining.modify slot fun _ => left
    if left = 0 then .ok ((a, .moved), ⟨remaining, s.held.modify slot fun _ => none⟩)
    else .ok ((a, .copied), ⟨remaining, s.held⟩)
  | some 0, _ => .error .nothingLeftToServe
  | some _, some none => .error .slotEmpty
  | _, _ => .error .noSuchSlot

/-- Hand out the results of slots one after the other. -/
def takeAll (s : Shelf α) : List Nat → Except ShelfFault (List (α × Handover) × Shelf α)
  | [] => .ok ([], s)
  | slot :: slots =>
    match s.take slot with
    | .error fault => .error fault
    | .ok (given, s) =>
      match takeAll s slots with
      | .error fault => .error fault
      | .ok (more, s) => .ok (given :: more, s)

/-- The result for every position, with how it was handed out, and the shelf
afterwards. -/
def serve (rendered : List α) (slots : List Nat) :
    Except ShelfFault (List (α × Handover) × Shelf α) := do
  (← stock rendered slots).takeAll slots

end Shelf

end HueCycle.Render
