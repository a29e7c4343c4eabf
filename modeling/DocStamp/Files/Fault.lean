/-
What can go wrong with a file.
-/

namespace DocStamp.Files

/-- Why an operation on files fails. -/
inductive Fault where
  | notFound
  | exists
  | notDirectory
  | isDirectory
  | nameTooLong
  | tooManyLinks
  /-- The file holds bytes that are no text. -/
  | notText
  /-- A path with a character that no name can hold. -/
  | nulCharacter
  /-- A path without a directory above it. -/
  | noParent (path : String)
  /-- No directory of the path could be made. -/
  | noTree
  /-- Whatever else the machine reports. -/
  | other (message : String)
deriving DecidableEq, Repr

def Fault.message : Fault → String
  | .notFound => "No such file or directory (os error 2)"
  | .exists => "File exists (os error 17)"
  | .notDirectory => "Not a directory (os error 20)"
  | .isDirectory => "Is a directory (os error 21)"
  | .nameTooLong => "File name too long (os error 36)"
  | .tooManyLinks => "Too many levels of symbolic links (os error 40)"
  | .notText => "stream did not contain valid UTF-8"
  | .nulCharacter => "file name contained an unexpected NUL byte"
  | .noParent path => s!"Cannot create directory for path {path}; it has no parent"
  | .noTree => "failed to create whole tree"
  | .other message => message

end DocStamp.Files
