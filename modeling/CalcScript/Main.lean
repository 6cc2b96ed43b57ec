/-
`Main.lean` -- the program around the commands: arguments, files and streams.
-/
import CalcScript.CommandLine

set_option autoImplicit false

namespace CalcScript.CommandLine

/-- Writes a report and yields its exit code. -/
def publish (r : Report) : IO UInt32 := do
  let out ← IO.getStdout
  out.write r.stdout
  out.flush
  (← IO.getStderr).putStr r.stderr
  return r.code.toUInt32

/-- Reads the program in a file. -/
def load (path : String) : IO (Except FileFault String) := do
  try
    return decode (← IO.FS.readBinFile path)
  catch
    | .noFileOrDirectory .. => return .error (.unopened "No such file or directory (os error 2)")
    | e => return .error (.unopened (toString e))

/-- Reads the bytes of one line, newline included. -/
partial def readLine (input : IO.FS.Stream) (line : ByteArray) : IO ByteArray := do
  let byte ← input.read 1
  if byte.isEmpty then return line
  let line := line ++ byte
  if byte.toList = [10] then return line else readLine input line

/-- Holds a dialogue on the standard streams, answering each line as it comes. -/
partial def converse (s : Session) : IO UInt32 := do
  let out ← IO.getStdout
  out.putStr prompt
  out.flush
  let bytes ← readLine (← IO.getStdin) .empty
  if bytes.isEmpty then
    out.putStr "\n"
    return 0
  match String.fromUTF8? bytes with
  | none =>
    (← IO.getStderr).putStr (asLine ("Error: " ++ notTextReason))
    return inputCode.toUInt32
  | some line =>
    let (s, complaint) := answer s line
    let ⟨store, sink⟩ := s.machine
    out.write sink.written
    out.flush
    (← IO.getStderr).putStr complaint
    converse ⟨store, .unlimited⟩

/-- An argument that begins with a hyphen names an option. The hyphen alone does not. -/
def isOption (arg : String) : Bool := arg.startsWith "-" && arg != "-"

/-- The options and the operands behind the name of a command. Behind `--` there are operands
only, so that is where a program or a path that begins with a hyphen has to stand. -/
def sortArguments : List String → List String × List String
  | [] => ([], [])
  | "--" :: operands => ([], operands)
  | arg :: rest =>
    let (options, operands) := sortArguments rest
    if isOption arg then (arg :: options, operands) else (options, arg :: operands)

def usage : String :=
  "usage: tokenize FILE | parse [--json] FILE | run FILE | eval SOURCE | repl\n"

/-- The exit code for arguments that name no command, or an option that it does not have. -/
def usageCode : UInt32 := 2

/-- Runs the command that the arguments name. -/
def dispatch (args : List String) : IO UInt32 := do
  match args.head?, sortArguments args.tail with
  | some "tokenize", ([], [path]) => publish (onFile .tokenize path (← load path))
  | some "parse", (["--json"], [path]) => publish (onFile (.parse true) path (← load path))
  | some "parse", ([], [path]) => publish (onFile (.parse false) path (← load path))
  | some "run", ([], [path]) => publish (onFile .run path (← load path))
  | some "eval", ([], [source]) => publish (run source)
  | some "repl", ([], []) => converse (Session.new .unlimited)
  | _, _ =>
    (← IO.getStderr).putStr usage
    return usageCode

end CalcScript.CommandLine

def main (args : List String) : IO UInt32 :=
  CalcScript.CommandLine.dispatch args
