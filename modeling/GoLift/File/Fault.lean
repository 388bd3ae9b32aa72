/-!
# What keeps a file from being read or written
-/

set_option autoImplicit false

namespace GoLift

/-- A fault in the use of a file. -/
inductive FileFault
  /-- Nothing has the name. -/
  | missing
  /-- A directory is where a file should be. -/
  | directory
  /-- A file is where a directory should be. -/
  | notDirectory
  /-- The name is taken. -/
  | exists
  /-- The path or a name on the way is too long. -/
  | nameTooLong
  /-- The path holds the null character, which no path does. -/
  | nullCharacter
  /-- A fault that only the system knows about. -/
  | other (text : String)
deriving DecidableEq, Repr

/-- The fault in words. -/
def FileFault.message : FileFault → String
  | .missing => "No such file or directory"
  | .directory => "Is a directory"
  | .notDirectory => "Not a directory"
  | .exists => "File exists"
  | .nameTooLong => "File name too long"
  | .nullCharacter => "embedded null byte"
  | .other text => text

end GoLift
