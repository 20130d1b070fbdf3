import PrefixVM.Command

/-!
The program: the command line on the files, the standard input and the standard output of the computer
it is started on.
-/
namespace PrefixVM.Main

def pathError : IO.Error → PathError
  | .noFileOrDirectory .. => .notFound
  | .inappropriateType _ code details | .permissionDenied _ code details
  | .invalidArgument _ code details | .resourceExhausted _ code details =>
    .other s!"{details} (os error {code})"
  | e => .other (toString e)

def files : Files IO where
  read path := do
    match ← (IO.FS.readBinFile path).toBaseIO with
    | .ok content => return .ok content.toList
    | .error e => return .error (pathError e)
  write path content := do
    match ← (IO.FS.writeBinFile path content.toByteArray).toBaseIO with
    | .ok () => return .ok ()
    | .error e => return .error (pathError e)
  slot path := do
    match ← (IO.FS.readBinFile path).toBaseIO with
    | .ok content => return .regular content.toList
    | .error (.noFileOrDirectory ..) => return .absent
    | .error e => return .blocked (pathError e).reason
  limit := some Directory.fileLimit

partial def readAll (input : IO.FS.Stream) (start : ByteArray) : IO ByteArray := do
  let piece ← input.read 65536
  if piece.isEmpty then return start else readAll input (start ++ piece)

/-- The number of steps after which a run is cut short. -/
def fuel : Nat := 1000000000000

end PrefixVM.Main

def main (args : List String) : IO UInt32 := do
  let request := PrefixVM.Request.parse args
  let stdin ← if request.readsInput then PrefixVM.Main.readAll (← IO.getStdin) .empty
    else pure .empty
  let report ← request.execute PrefixVM.Main.files PrefixVM.Main.fuel stdin.toList
  (← IO.getStdout).putStr report.stdout
  (← IO.getStderr).putStr report.stderr
  return report.status.toUInt32
