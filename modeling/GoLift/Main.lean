import GoLift.CommandLine.Run

/-!
# The program

The command line on the real file system: arguments in, text on the two standard
streams, an exit code out. All decisions are made by `CommandLine.run`.
-/

set_option autoImplicit false

namespace GoLift.CommandLine

/-- What kept the system from doing something. -/
def systemFault : IO.Error → FileFault
  | .noFileOrDirectory .. => .missing
  | .alreadyExists .. => .exists
  | .inappropriateType _ _ details | .resourceExhausted _ _ details
  | .illegalOperation _ details => .other details
  | e => .other (toString e)

/-- The result of a system call, or its fault. -/
def guarded {α : Type} (act : IO α) : IO (Except FileFault α) := do
  match ← act.toBaseIO with
  | .ok a => return .ok a
  | .error e => return .error (systemFault e)

/-- Is there a directory? -/
def directoryExists (p : Path) : IO Bool := do
  match ← (IO.FS.realPath p.text).toBaseIO with
  | .ok real => real.isDir
  | .error _ => return false

/-- The bytes of a file of the system. -/
def readSystemFile (p : Path) : IO (Except FileFault (List UInt8)) := do
  if ← directoryExists p then return .error .directory
  match ← guarded (IO.FS.readBinFile p.text) with
  | .ok bytes => return .ok bytes.toList
  | .error f => return .error f

/-- The files of the system. -/
def systemFiles : Files IO where
  read := readSystemFile
  isDirectory := directoryExists
  makeDirectory p := guarded (IO.FS.createDirAll p.text)
  write p bytes := guarded (IO.FS.writeBinFile p.text ⟨bytes.toArray⟩)

end GoLift.CommandLine

/-- Run the program. -/
def main (arguments : List String) : IO UInt32 := do
  match ← GoLift.CommandLine.run GoLift.CommandLine.systemFiles arguments with
  | .ok t =>
    (← IO.getStdout).putStr t.out
    (← IO.getStderr).putStr t.err
    return UInt32.ofNat t.exitCode
  | .error _ =>
    (← IO.getStderr).putStr "ll2go: internal error\n"
    return 1
