import Lox.Text.Decimal
import Lox.Text.Quoted

/-!
# Command line arguments

The command line has two operands, a command and a file, and one option that asks for help, which
may be abbreviated. Operands and options may be mixed; everything behind `--` is an operand. The
arguments are taken in order, so that of several mistakes the first one counts, and help counts
where it stands. What is missing or left over is known only at the end.
-/
namespace Lox.CommandLine

inductive Command where
  | tokenize | parse | evaluate | run
  deriving Repr, DecidableEq

namespace Command

def all : List Command := [tokenize, parse, evaluate, run]

def name : Command → String
  | tokenize => "tokenize"
  | parse => "parse"
  | evaluate => "evaluate"
  | run => "run"

def ofName? (name : String) : Option Command := all.find? (·.name = name)

end Command

/-- What is wrong with the arguments. -/
inductive UsageFault where
  | invalidChoice (given : String)
  /-- The option for help was given a value. -/
  | ignoredValue (value : String)
  | missing (operands : List String)
  | unrecognized (arguments : List String)
  deriving Repr, DecidableEq

def UsageFault.message : UsageFault → String
  | .invalidChoice given =>
    "argument command: invalid choice: " ++ Text.quoted given ++ " (choose from " ++
      ", ".intercalate (Command.all.map fun c => Text.quoted c.name) ++ ")"
  | .ignoredValue value => "argument -h/--help: ignored explicit argument " ++ Text.quoted value
  | .missing operands => "the following arguments are required: " ++ ", ".intercalate operands
  | .unrecognized arguments => "unrecognized arguments: " ++ " ".intercalate arguments

/-- What the arguments ask for. -/
inductive Request where
  | help
  | execute (command : Command) (file : String)
  | misuse (fault : UsageFault)
  deriving Repr, DecidableEq

/-- Everything behind this argument is an operand. It is no file itself. -/
def Request.mark : String := "--"

/-- What an argument in front of the mark is. -/
inductive Shape where
  | operand
  | help
  | helpWithValue (value : String)
  | unknownOption
  deriving Repr, DecidableEq

/-- A minus sign and a number, with or without a fraction; a newline may follow. -/
def isNegativeNumber : List Char → Bool
  | '-' :: cs =>
    let number := if cs.getLast? = some '\n' then cs.dropLast else cs
    match number.dropWhile Text.isDecimal with
    | [] => !number.isEmpty
    | '.' :: fraction => !fraction.isEmpty && fraction.all Text.isDecimal
    | _ => false
  | _ => false

/-- What follows `-h` in the same argument, where the letter may be repeated; anything else is
refused as a value that help does not take. -/
def shapeOfShort : List Char → Shape
  | [] => .help
  | 'h' :: rest => shapeOfShort rest
  | value => .helpWithValue (String.ofList value)

/-- What is no known option: an operand if it looks like a number or holds a blank. -/
def shapeOfOther (cs : List Char) : Shape :=
  if isNegativeNumber cs || cs.contains ' ' then .operand else .unknownOption

/-- What an option with two minus signs is; the word may be cut short. -/
def shapeOfLong (cs : List Char) : Shape :=
  let word := cs.takeWhile (· ≠ '=')
  if word.isPrefixOf "--help".toList then
    match cs.dropWhile (· ≠ '=') with
    | [] => .help
    | _ :: value => .helpWithValue (String.ofList value)
  else shapeOfOther cs

def shape (argument : String) : Shape :=
  match argument.toList with
  | ['-'] => .operand
  | '-' :: '-' :: rest => shapeOfLong ('-' :: '-' :: rest)
  | ['-', 'h', '='] => .helpWithValue ""
  | '-' :: 'h' :: '=' :: value => shapeOfShort value
  | '-' :: 'h' :: rest => shapeOfShort rest
  | '-' :: rest => shapeOfOther ('-' :: rest)
  | _ => .operand

/-- The operands found so far, what is left over with the newest first, whether the last argument
became an operand, and whether the mark was read. -/
structure Progress where
  command : Option Command
  file : Option String
  extras : List String
  justTaken : Bool
  onlyOperands : Bool

namespace Progress

def start : Progress := ⟨none, none, [], false, false⟩

def complete (p : Progress) : Bool := p.command.isSome && p.file.isSome

def skip (p : Progress) (argument : String) : Progress :=
  { p with extras := argument :: p.extras, justTaken := false }

/-- The first operand has to name a command. -/
def take (p : Progress) (argument : String) : Except UsageFault Progress :=
  match p.command, p.file with
  | none, _ =>
    match Command.ofName? argument with
    | some c => .ok { p with command := some c, justTaken := true }
    | none => .error (.invalidChoice argument)
  | some _, none => .ok { p with file := some argument, justTaken := true }
  | some _, some _ => .ok (p.skip argument)

/-- The mark belongs to the operand in front of it or behind it, and is left over without one. -/
def mark (p : Progress) (atEnd : Bool) : Progress :=
  let p' := { p with onlyOperands := true }
  if p.justTaken || (!p.complete && !atEnd) then { p' with justTaken := false }
  else p'.skip Request.mark

def finish (p : Progress) : Request :=
  match p.command, p.file with
  | some c, some f =>
    if p.extras.isEmpty then .execute c f else .misuse (.unrecognized p.extras.reverse)
  | none, _ => .misuse (.missing ["command", "file"])
  | some _, none => .misuse (.missing ["file"])

end Progress

def readFrom (p : Progress) : List String → Request
  | [] => p.finish
  | a :: rest =>
    if a = Request.mark ∧ p.onlyOperands = false then readFrom (p.mark rest.isEmpty) rest
    else
      match if p.onlyOperands then Shape.operand else shape a with
      | .operand =>
        match p.take a with
        | .ok p => readFrom p rest
        | .error fault => .misuse fault
      | .help => .help
      | .helpWithValue value => .misuse (.ignoredValue value)
      | .unknownOption => readFrom (p.skip a) rest

/-- What a list of arguments asks for. -/
def Request.ofArguments (arguments : List String) : Request := readFrom .start arguments

end Lox.CommandLine
