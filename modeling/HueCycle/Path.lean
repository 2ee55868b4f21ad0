/-
HueCycle.Path — paths as octet strings, and the questions asked of them
without looking at any file: last name, parent, extension, joining.

A path is read as segments between slashes. An empty segment and a `.`
count as nothing, except for a `.` at the very start of a relative path;
every other segment is a component. The parent keeps the spelling of what
stands before the last component.
-/
import HueCycle.Text.Utf8

namespace HueCycle

/-- A path of any octets. -/
structure Path where
  bytes : Bytes
deriving Repr, DecidableEq

namespace Path

/-- The path of a text. -/
def ofString (s : String) : Path := ⟨Utf8.encode s⟩

/-- The octet between segments. -/
def slash : UInt8 := 0x2F

/-- The octet before an extension. -/
def dot : UInt8 := 0x2E

/-- The path as text, with U+FFFD for what is not UTF-8. -/
def text (p : Path) : String := Utf8.lossy p.bytes

/-- Cut at every slash; there is always one segment more than slashes. -/
def cut : Bytes → List Bytes
  | [] => [[]]
  | b :: rest =>
    if b = slash then [] :: cut rest
    else
      match cut rest with
      | [] => [[b]]
      | segment :: others => (b :: segment) :: others

/-- Put slashes between segments. -/
def paste : List Bytes → Bytes
  | [] => []
  | [segment] => segment
  | segment :: rest => segment ++ slash :: paste rest

theorem cut_ne_nil (bytes : Bytes) : cut bytes ≠ [] := by
  cases bytes with
  | nil => simp [cut]
  | cons b rest =>
    unfold cut
    split
    · simp
    · split <;> simp

/-- Pasting undoes cutting. -/
theorem paste_cut (bytes : Bytes) : paste (cut bytes) = bytes := by
  induction bytes with
  | nil => rfl
  | cons b rest ih =>
    unfold cut
    split
    · rename_i h
      cases hc : cut rest with
      | nil => exact absurd hc (cut_ne_nil rest)
      | cons s t => rw [hc] at ih; rw [paste, ih, h]; rfl; simp
    · cases hc : cut rest with
      | nil => exact absurd hc (cut_ne_nil rest)
      | cons s t =>
        rw [hc] at ih
        cases t with
        | nil => simp [paste] at ih ⊢; exact ih
        | cons u v => simp [paste] at ih ⊢; exact ih

/-- Whether the path starts at the root. -/
def isAbsolute (p : Path) : Bool := p.bytes.head? == some slash

/-- Whether the segment at a position is a component. -/
def isComponent (position : Nat) (segment : Bytes) : Bool :=
  segment != [] && (segment != [dot] || position == 0)

/-- The segments up to and including the last component. -/
def significant (segments : List Bytes) : List Bytes :=
  let numbered := segments.zipIdx
  (numbered.reverse.dropWhile fun s => !isComponent s.2 s.1).reverse.map Prod.fst

/-- The name after the last slash that counts, unless it is `.` or `..`. -/
def fileName? (p : Path) : Option Bytes :=
  match (significant (cut p.bytes)).getLast? with
  | none => none
  | some name => if name = [] ∨ name = [dot] ∨ name = [dot, dot] then none else some name

/-- What stands before the last component; none for the root and for the
empty path. -/
def parent? (p : Path) : Option Path :=
  match significant (cut p.bytes) with
  | [] => none
  | segments =>
    match significant segments.dropLast with
    | [] => some ⟨if p.isAbsolute then [slash] else []⟩
    | before => some ⟨paste before⟩

/-- The part of the last name after its last dot, if something stands
before that dot. -/
def extension? (p : Path) : Option Bytes :=
  match p.fileName? with
  | none => none
  | some name =>
    let after := name.reverse.takeWhile (· != dot)
    let before := name.reverse.dropWhile (· != dot)
    if before.length ≤ 1 then none else some after.reverse

/-- A path read from another one; an absolute path replaces it. -/
def join (base p : Path) : Path :=
  if p.isAbsolute then p
  else if base.bytes = [] ∨ base.bytes.getLast? = some slash then ⟨base.bytes ++ p.bytes⟩
  else ⟨base.bytes ++ slash :: p.bytes⟩

end Path

end HueCycle
