/-
`CommandLine.lean` -- the commands, as functions from what they are given to what
they write.

`tokenize` lists the tokens of a program, `parse` shows its tree, `run` and
`eval` evaluate it, and `repl` evaluates its input line by line in one session.
A malformed program ends a command with code 65, a failing evaluation with 70,
and input that cannot be had at all with 1.
-/
import CalcScript.Expr.Json
import CalcScript.Expr.PrefixForm
import CalcScript.Session
import CalcScript.Token.Text

set_option autoImplicit false

namespace CalcScript

/-! ## 1. Reports -/

/-- What a command leaves behind. -/
structure Report where
  code : Nat
  stdout : ByteArray
  stderr : String

/-- A text with the end of its line. -/
def asLine (text : String) : String := text ++ "\n"

namespace CommandLine

/-- The exit code for an error of a session. -/
def exitCode : Error → Nat
  | .parse .. => 65
  | _ => 70

/-- The exit code for input that cannot be had. -/
def inputCode : Nat := 1

/-! ## 2. Input -/

/-- Why a file gives no program text. -/
inductive FileFault where
  | unopened (reason : String)
  | notText
deriving DecidableEq, Repr

def notTextReason : String := "stream did not contain valid UTF-8"

/-- The message about a file, with its cause below it. -/
def FileFault.text (path : String) (fault : FileFault) : String :=
  let (verb, reason) :=
    match fault with
    | .unopened reason => ("open", reason)
    | .notText => ("read", notTextReason)
  "Error: Failed to " ++ verb ++ " file " ++ Text.quoted path ++ "\n\nCaused by:\n    " ++ reason
    ++ "\n"

/-- The text that the bytes of a file spell. -/
def decode (bytes : ByteArray) : Except FileFault String :=
  match String.fromUTF8? bytes with
  | some text => .ok text
  | none => .error .notText

/-! ## 3. Commands on a program -/

/-- Lists the tokens. Malformed ones go to the error output, with an excerpt. -/
def tokenize (source : String) : Report :=
  let tokens := (scan source).all
  let listing (t : Token) : Option String :=
    match t.kind with
    | .malformed _ => none
    | _ => some (asLine t.text)
  let complaint (t : Token) : Option String :=
    match t.kind with
    | .malformed m =>
      some (asLine (t.pos.text ++ ": " ++ m.message) ++ asLine (Text.excerpt source t.pos))
    | _ => none
  let complaints := tokens.filterMap complaint
  { code := if complaints.isEmpty then 0 else 65
    stdout := (String.join (tokens.filterMap listing)).toUTF8
    stderr := String.join complaints }

/-- Shows the tree, in prefix form or as JSON. -/
def parse (asJson : Bool) (source : String) : Report :=
  match Expr.parse source with
  | .ok e =>
    let shown := if asJson then e.json.pretty else e.prefixForm
    ⟨0, (asLine shown).toUTF8, ""⟩
  | .error e => ⟨65, .empty, asLine (e.text source)⟩

/-- Writes to the output of a session. -/
def write (s : Session) (text : String) : Session :=
  let ⟨store, sink⟩ := s.machine
  ⟨store, (sink.write text).2⟩

/-- Writes the value of a program, unless it is null. -/
def writeValue (s : Session) (value : Value) : Session :=
  match value with
  | .null => s
  | value => write s (asLine (s.machine.store.text value))

/-- Evaluates a program and shows its value. -/
def run (source : String) : Report :=
  match (Session.new .unlimited).evaluate source with
  | (.ok value, s) => ⟨0, (writeValue s value).machine.sink.written, ""⟩
  | (.error e, s) => ⟨exitCode e, s.machine.sink.written, asLine e.text⟩

/-! ## 4. Line by line -/

def prompt : String := "> "

/-- Evaluates one line of a dialogue; gives the session after it and what goes to
the error output. Nothing happens on a blank line. -/
def answer (s : Session) (line : String) : Session × String :=
  if (Text.trim line.toList).isEmpty then (s, "")
  else
    match s.evaluate line with
    | (.ok value, s) => (writeValue s value, "")
    | (.error e, s) => (s, asLine e.text)

/-- The lines of an input, each with its newline. -/
def inputLines : List UInt8 → List (List UInt8)
  | [] => []
  | b :: bs =>
    if b = 10 then [b] :: inputLines bs
    else
      match inputLines bs with
      | [] => [[b]]
      | line :: lines => (b :: line) :: lines

/-- A dialogue over the given lines. It ends early at a line that is no text. -/
def dialogue (s : Session) (stderr : String) : List (List UInt8) → Report
  | [] => ⟨0, (write s (prompt ++ "\n")).machine.sink.written, stderr⟩
  | bytes :: lines =>
    let s := write s prompt
    match String.fromUTF8? ⟨bytes.toArray⟩ with
    | none =>
      ⟨inputCode, s.machine.sink.written, stderr ++ asLine ("Error: " ++ notTextReason)⟩
    | some line =>
      let (s, complaint) := answer s line
      dialogue s (stderr ++ complaint) lines

/-- Evaluates an input line by line. -/
def repl (input : ByteArray) : Report :=
  dialogue (Session.new .unlimited) "" (inputLines input.toList)

/-! ## 5. The commands -/

/-- What to do with the program in a file. -/
inductive FileCommand where
  | tokenize
  | parse (asJson : Bool)
  | run
deriving DecidableEq, Repr

/-- Runs a command on a file, given what reading the file has come to. -/
def onFile (command : FileCommand) (path : String) (content : Except FileFault String) : Report :=
  match content with
  | .error fault => ⟨inputCode, .empty, fault.text path⟩
  | .ok source =>
    match command with
    | .tokenize => tokenize source
    | .parse asJson => parse asJson source
    | .run => run source

end CommandLine

end CalcScript
