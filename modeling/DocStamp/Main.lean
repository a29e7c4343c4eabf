/-
The command line: files of the machine, arguments, input and output.
-/
import DocStamp.Command.Run

namespace DocStamp

open Files (Fault Host)
open Command (Outcome Program Request)

/-! ## The files of the machine -/

/-- The fault that a number of the operating system stands for.  The number may come
with its sign turned. -/
def Files.Fault.ofCode (code : Nat) (message : String) : Fault :=
  match if code < 0x80000000 then code else 0x100000000 - code with
  | 2 => .notFound
  | 17 => .exists
  | 20 => .notDirectory
  | 21 => .isDirectory
  | 36 => .nameTooLong
  | 40 => .tooManyLinks
  | _ => .other message

/-- The fault behind an error of the machine. -/
def Files.Fault.ofError (e : IO.Error) : Fault :=
  match e with
  | .noFileOrDirectory _ code _ => .ofCode code.toNat e.toString
  | .alreadyExists _ code _ | .invalidArgument _ code _ | .inappropriateType _ code _
  | .resourceExhausted _ code _ | .noSuchThing _ code _ => .ofCode code.toNat e.toString
  | .otherError code _ | .illegalOperation code _ | .unsatisfiedConstraints code _ =>
      .ofCode code.toNat e.toString
  | e => .other e.toString

/-- Does something with files; an error is a fault. -/
def Files.attempt {α : Type} (act : IO α) : IO (Except Fault α) := do
  try return .ok (← act)
  catch e => return .error (.ofError e)

/-- The text of a file of the machine. -/
def Files.textOf (p : Path) : IO (Except Fault String) := do
  match ← Files.attempt (IO.FS.readBinFile p.text) with
  | .error fault => return .error fault
  | .ok bytes =>
      match String.fromUTF8? bytes with
      | some text => return .ok text
      | none => return .error .notText

def Files.native (p : Path) := (IO.FS.DirEntry.mk p.text "").root

/-- The entries of a directory of the machine, each with whether it is a directory itself. -/
def Files.entriesOf (p : Path) : IO (List (String × Bool)) := do
  let entries ← (Files.native p).readDir
  entries.toList.mapM fun entry => do
    return (entry.fileName, (← entry.path.symlinkMetadata).type == .dir)

/-- The machine itself is a host.  It takes no note of documents. -/
instance : Host IO where
  currentDir := do return ⟨(← IO.currentDir).toString⟩
  readText := Files.textOf
  pathExists p := (Files.native p).pathExists
  isDirectory p := (Files.native p).isDir
  listDirectory p := Files.attempt (Files.entriesOf p)
  makeDirectory p := Files.attempt (IO.FS.createDir p.text)
  writeText p text := Files.attempt (IO.FS.writeFile p.text text)
  announce _ := return ()
  print text := do
    IO.print text
    (← IO.getStdout).flush

/-! ## A run on the machine -/

def Environment.get : IO Environment := do
  return ⟨⟨(← IO.getEnv "HOME").getD ""⟩, ← IO.getEnv "YAMCS_DOCS_CONFIG"⟩

/-- The program under whose name this run was started. -/
def Command.Program.current : IO Program := do
  if (← IO.appPath).fileName == some Program.book.name then return .book else return .docs

/-- The text on standard input, if the arguments ask for it. -/
def Command.inputFor (program : Program) (args : List String) : IO String := do
  if Request.parse? program args == some .preprocess then (← IO.getStdin).readToEnd else return ""

def Command.Program.usage : Program → String
  | .docs =>
      "Usage: yamcs-docs [-C DIR] COMMAND\n\nCommands:\n  build [-o DIR]\n  render FILE\n"
        ++ "  show paths\n  show config\n  mdbook [supports RENDERER]\n"
  | .book => "Usage: mdbook-yamcs [supports RENDERER]\n"

end DocStamp

open DocStamp Command in
def main (args : List String) : IO UInt32 := do
  let program ← Program.current
  let outcome ← run program (← Environment.get) args (← inputFor program args)
  match outcome with
  | .success =>
      if Request.parse? program args == some .help then IO.print program.usage
  | .failure reason => IO.eprint reason.report
  | .misuse => IO.eprint program.usage
  return outcome.exitCode.toUInt32
