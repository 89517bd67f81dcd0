import FieldML.CommandLine
import FieldML.Text.Graphemes

/-!
# The program

Reads what the command line asks for, prints the answer, and ends with status one on failure.
-/

namespace FieldML

/-- The text for the number of a fault of the system, if it is one that reading a file leads to. -/
def systemText? : Nat → Option String
  | 2 => "No such file or directory"
  | 5 => "Input/output error"
  | 13 => "Permission denied"
  | 20 => "Not a directory"
  | 21 => "Is a directory"
  | 36 => "File name too long"
  | 40 => "Too many levels of symbolic links"
  | _ => none

/-- A fault of the system in words. Its number may be reported with the opposite sign. -/
def systemFault (code : UInt32) (details : String) : String :=
  let number := code.toInt32.toInt.natAbs
  let text := (systemText? number).getD details
  s!"{text} (os error {number})"

/-- Why the system refused to read, in words. -/
def systemMessage (e : IO.Error) : String :=
  match e with
  | .noFileOrDirectory _ code details | .permissionDenied _ code details
  | .inappropriateType _ code details | .invalidArgument _ code details
  | .resourceExhausted _ code details | .noSuchThing _ code details
  | .interrupted _ code details | .alreadyExists _ code details => systemFault code details
  | .otherError code details | .resourceBusy code details | .resourceVanished code details
  | .unsupportedOperation code details | .hardwareFault code details
  | .unsatisfiedConstraints code details | .illegalOperation code details
  | .protocolError code details | .timeExpired code details => systemFault code details
  | .unexpectedEof => "unexpected end of file"
  | .userError message => message

/-- Reads a whole text. -/
def readText (bytes : IO ByteArray) : IO Reading := do
  match ← bytes.toBaseIO with
  | .error e => return .error (systemMessage e)
  | .ok bytes =>
      match String.fromUTF8? bytes with
      | some text => return .ok text
      | none => return .error "stream did not contain valid UTF-8"

/-- Reads what the arguments ask for. -/
def readWorld (args : List String) : IO World := do
  let configPath ← IO.getEnv CommandLine.configVariable
  let job := (CommandLine.request configPath args).toOption.bind CommandLine.Request.job?
  let paths := (job.map CommandLine.Job.files).getD []
  let files ← paths.mapM fun (path : String) => return (path, ← readText (IO.FS.readBinFile path))
  let readsInput := (job.map CommandLine.Job.readsInput).getD false
  let input ← if readsInput then readText (← IO.getStdin).readBinToEnd else pure (.ok "")
  return {
    args := args
    configPath := configPath
    file := fun path => (files.lookup path).getD (.error "not read")
    input := input }

end FieldML

/-- Runs the program. -/
def main (args : List String) : IO UInt32 := do
  let printed := FieldML.CommandLine.main (← FieldML.readWorld args)
  IO.print printed.output
  IO.eprint printed.errors
  return if printed.succeeds then 0 else 1
