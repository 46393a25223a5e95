import DdlBridge.Command.Run

/-!
# The program

Connects the commands to the files, the standard streams and the environment of the machine.
-/

namespace DdlBridge.Command

/-- The fault behind an input or output error. -/
def faultOf : IO.Error → FileFault
  | .noFileOrDirectory .. | .noSuchThing .. => .notFound
  | .inappropriateType _ code _ =>
    if code = 21 then .isDirectory else .notDirectory
  | .permissionDenied .. => .other "Permission denied (os error 13)"
  | e => .other (toString e)

def attempt {α : Type} (action : IO α) : IO (Except FileFault α) := do
  try return .ok (← action)
  catch e => return .error (faultOf e)

/-- All bytes of a stream. -/
partial def readAll (stream : IO.FS.Stream) (bytes : ByteArray) : IO ByteArray := do
  let chunk ← stream.read 65536
  if chunk.isEmpty then return bytes else readAll stream (bytes ++ chunk)

/-- Where programs keep their configuration; only an absolute path counts. -/
def configDirectory : IO (Option String) := do
  match (← IO.getEnv "XDG_CONFIG_HOME").filter (·.startsWith "/") with
  | some dir => return some dir
  | none => return (← IO.getEnv "HOME").map (· ++ "/.config")

def machine : IO (Host IO) := do
  return {
    contents := fun path => attempt (return (← IO.FS.readBinFile path).toList)
    store := fun path text => attempt (IO.FS.writeFile path text)
    readInput := return (← readAll (← IO.getStdin) .empty).toList
    present := fun path => do
      match ← attempt (IO.FS.readBinFile path) with
      | .ok _ => return true
      | .error fault => return fault != .notFound
    defaultConfig := (← configDirectory).map (· ++ "/" ++ programName ++ "/config.toml")
    parallelism := 1 }

def runMachine (args : List String) : IO Outcome := do
  run (← machine) (← IO.getEnv "SQLPORTER_CONFIG") args

end DdlBridge.Command

def main (args : List String) : IO UInt32 := do
  let outcome ← DdlBridge.Command.runMachine args
  IO.print outcome.output
  IO.eprint outcome.errors
  return UInt32.ofNat outcome.code
