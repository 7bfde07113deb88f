import Lox.CommandLine.Arguments
import Lox.CommandLine.Files
import Lox.Session

/-!
# The command line

`lox COMMAND FILE` lists the tokens of a file, prints the tree of its expression, evaluates it as an
expression or runs it as a program. What is printed, what is reported and the exit status are
computed here; how a file is read is a parameter.
-/
namespace Lox.CommandLine

/-- What a process leaves behind. -/
structure Exit where
  status : Nat
  stdout : String
  stderr : String
  deriving Repr, DecidableEq

/-- A process exits, or breaks off on a file that is no text, a path that holds a null character, no
path at all, or an abort. -/
inductive Outcome where
  | exited (exit : Exit)
  | invalidText
  | invalidPath
  | noPath
  | aborted (abort : Abort)
  deriving Repr, DecidableEq

def usage : String := "usage: lox [-h] \x7btokenize,parse,evaluate,run\x7d file\n"

def help : String :=
  usage ++ "\nTree-walking interpreter for the Lox scripting language\n" ++
  "\npositional arguments:\n  \x7btokenize,parse,evaluate,run\x7d\n" ++
  "                        What to do with the source file\n" ++
  "  file                  Source file\n" ++
  "\noptions:\n  -h, --help            show this help message and exit\n"

/-- The status of a process that could not begin its work. -/
def misuseStatus : Nat := 1

/-- Each text on a line of its own. -/
def lines (texts : List String) : String := String.join (texts.map (· ++ "\n"))

/-- The exit of a process that printed these texts and ends with these diagnostics. -/
def exitWith (printed : List String) (d : Diagnostics) : Outcome :=
  .exited ⟨d.exitStatus, lines printed, lines d.texts⟩

def tokenize (source : String) : Outcome :=
  let scanned := Token.scan source
  exitWith (scanned.tokens.map Token.listed)
    (Diagnostics.empty.addAll (Code.scanDiagnostics scanned))

/-- The tree is printed only if there is nothing to report. -/
def parse (limits : Limits) (source : String) : Outcome :=
  match Code.ofSource? .expression limits.room 0 source with
  | none => .aborted .missingToken
  | some r =>
    let d := Diagnostics.empty.addAll r.diagnostics
    if d.hasStatic then exitWith [] d
    else
      match r.code.print? limits.room with
      | some texts => exitWith texts d
      | none => .aborted .stackExhausted

/-- Reads and executes a source text in a new session. -/
def perform (limits : Limits) (clock : Clock) (mode : Mode) (source : String) : Outcome :=
  match Session.perform limits mode source (Session.start clock []) with
  | .ok _ s => exitWith s.machine.printed s.diagnostics
  | .error (.abort a) _ => .aborted a
  | .error (.error e) s => exitWith s.machine.printed (s.diagnostics.add e.diagnostic)

def execute (limits : Limits) (clock : Clock) (command : Command) (source : String) : Outcome :=
  match command with
  | .tokenize => tokenize source
  | .parse => parse limits source
  | .evaluate => perform limits clock .expression source
  | .run => perform limits clock .program source

/-- What a process started with these arguments does. -/
def respond (limits : Limits) (clock : Clock) (arguments : List String)
    (read : String → Except FileFault ByteArray) : Outcome :=
  match Request.ofArguments arguments with
  | .help => .exited ⟨0, help, ""⟩
  | .misuse fault => .exited ⟨misuseStatus, "", usage ++ "lox: error: " ++ fault.message ++ "\n"⟩
  | .execute command path =>
    if path = Request.mark then .noPath
    else if path.toList.contains '\x00' then .invalidPath
    else
      match read path with
      | .error fault =>
        .exited ⟨misuseStatus, "", "Error reading file: " ++ fault.message path ++ "\n"⟩
      | .ok bytes =>
        match textOf? bytes with
        | none => .invalidText
        | some source => execute limits clock command source

end Lox.CommandLine
