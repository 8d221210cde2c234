import SchemaForms.CommandLine.Run
import Std.Time.Format

/-!
The program: runs the command line over the files of the system and its clock.
-/

namespace SchemaForms.CommandLine

/-- The system's reason for a failure, with its number where it has one. -/
def systemReason : IO.Error → String
  | .noFileOrDirectory _ _ _ => "No such file or directory (os error 2)"
  | .permissionDenied _ code details
  | .inappropriateType _ code details | .alreadyExists _ code details
  | .invalidArgument _ code details => details ++ " (os error " ++ toString code ++ ")"
  | e => toString e

/-- What an action gives, or the reason why it fails. -/
def attempt {α : Type} (action : IO α) : IO (Except String α) := do
  match ← action.toBaseIO with
  | .ok a => return .ok a
  | .error e => return .error (systemReason e)

/-- The files of the system and its clock, which is read in universal time. -/
def system : Surroundings IO where
  read path := attempt do return (← IO.FS.readBinFile path).toList
  write path text := attempt (IO.FS.writeFile path text)
  time := do
    let now := Std.Time.DateTime.ofTimestampWithZone (← Std.Time.Timestamp.now) .UTC
    return now.format "uuuu-MM-dd'T'HH:mm:ss'Z'"

end SchemaForms.CommandLine

def main (args : List String) : IO UInt32 := do
  let report ← SchemaForms.CommandLine.run SchemaForms.CommandLine.system args
  for message in report.messages do
    IO.eprintln message
  IO.print report.output
  return report.code.toUInt32
