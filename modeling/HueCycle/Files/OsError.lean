/-
HueCycle.Files.OsError — why a file operation failed, with the text that a
message shows.
-/

namespace HueCycle.Files

/-- Reasons for which a file operation fails. -/
inductive OsError where
  | notFound
  | exists
  | notDirectory
  | isDirectory
  | invalidArgument
  | nameTooLong
  | busy
  | notEmpty
  /-- The path has a zero octet, which no call accepts. -/
  | zeroOctet
  /-- A reason of the machine at hand, with its text. -/
  | other (text : String)
deriving Repr, DecidableEq

/-- The text of a reason: its name, and its number if it has one. -/
def OsError.text : OsError → String
  | .notFound => "No such file or directory (os error 2)"
  | .exists => "File exists (os error 17)"
  | .notDirectory => "Not a directory (os error 20)"
  | .isDirectory => "Is a directory (os error 21)"
  | .invalidArgument => "Invalid argument (os error 22)"
  | .nameTooLong => "File name too long (os error 36)"
  | .busy => "Device or resource busy (os error 16)"
  | .notEmpty => "Directory not empty (os error 39)"
  | .zeroOctet => "file name contained an unexpected NUL byte"
  | .other text => text

end HueCycle.Files
