import Lox.CommandLine

/-!
# The program

Reads the file that the arguments name, hands everything to the command line and writes what it
answers.
-/
namespace Lox.Main

/-- The fault that an error of the operating system stands for. -/
def fileFault : IO.Error → CommandLine.FileFault
  | .noFileOrDirectory _ _ _ => .notFound
  | .permissionDenied _ _ _ => .noPermission
  | .inappropriateType _ code _ =>
    if code.toNat = CommandLine.FileFault.isAFolder.reason.1 then .isAFolder else .notAFolder
  | .invalidArgument _ _ _ => .nameTooLong
  | _ => .isAFolder

/-- The bytes of the file that the arguments name, if they name one. -/
def readSource (arguments : List String) : IO (Except CommandLine.FileFault ByteArray) := do
  match CommandLine.Request.ofArguments arguments with
  | .execute _ path =>
    match ← (IO.FS.readBinFile path).toBaseIO with
    | .ok bytes => pure (.ok bytes)
    | .error e => pure (.error (fileFault e))
  | _ => pure (.error .notFound)

/-- The seconds since the epoch, as the file system dates what was written last. -/
def secondsSinceEpoch : IO Float :=
  IO.FS.withTempFile fun handle path => do
    handle.putStr " "
    handle.flush
    let written := (← path.metadata).modified
    pure (written.sec.toNat.toFloat + written.nsec.toNat.toFloat / 1000000000)

/-- What is written when a run breaks off. -/
def breakOffText : CommandLine.Outcome → String
  | .invalidText => "lox: the file is not encoded in UTF-8\n"
  | .invalidPath => "lox: the path holds a null character\n"
  | .noPath => "lox: a mark stands in the place of the file\n"
  | .aborted .stackExhausted => "lox: the nesting is too deep\n"
  | _ => "lox: the run was broken off\n"

end Lox.Main

def main (arguments : List String) : IO UInt32 := do
  let source ← Lox.Main.readSource arguments
  let clock := Lox.Clock.steady (← Lox.Main.secondsSinceEpoch)
  match Lox.CommandLine.respond .standard clock arguments (fun _ => source) with
  | .exited exit =>
    (← IO.getStdout).putStr exit.stdout
    (← IO.getStderr).putStr exit.stderr
    pure exit.status.toUInt32
  | outcome =>
    (← IO.getStderr).putStr (Lox.Main.breakOffText outcome)
    pure 1
