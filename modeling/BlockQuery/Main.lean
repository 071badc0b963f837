import BlockQuery.CommandLine.Run
import BlockQuery.CommandLine.Usage
import Std.Time

/-!
# The program

Reads the files that a command names, runs the command on them, and prints what
it printed and what it logged.
-/

namespace BlockQuery.CommandLine

/-- The disk with a file of the surroundings in it.  A file that cannot be read
is taken to be missing, unless there is a directory in its place, or a file in
the place of a directory above it, which then is read instead. -/
partial def loadFile (disk : Disk) (path : String) : IO Disk := do
  match ← (IO.FS.readBinFile path).toBaseIO with
  | .ok content => return (disk.store path content.data.toList).toOption.getD disk
  | .error (.inappropriateType _ code _) =>
    if code = 21 then return (disk.createDirectories path).2
    else loadFile disk (path.dropEnd 1).toString
  | .error _ => return disk

/-- The present time, in milliseconds and at Greenwich. -/
def presentTime : IO String := do
  return (Std.Time.DateTime.ofTimestamp (← Std.Time.Timestamp.now) .UTC).format
    "uuuu-MM-dd'T'HH:mm:ss.SSS'Z'"

/-- A host whose disk holds the files of a command. -/
def hostFor (command : Command) : IO Host := do
  let disk ← command.files.foldlM loadFile Disk.empty
  let seed ← IO.getRandomBytes 16
  return ⟨disk, Log.start .info ⟨← presentTime, "0"⟩, .zero,
    seed.data.toList.foldl (fun n byte => n * 256 + byte.toNat) 0⟩

/-- Runs a command and tells whether it was done. -/
def perform (command : Command) : IO Bool := do
  let outcome := command.run (← hostFor command)
  outcome.host.log.out.forM IO.println
  IO.print outcome.printed
  outcome.host.log.err.forM IO.eprintln
  match outcome.result with
  | .ok _ => return true
  | .error e =>
    IO.eprintln e.display
    return false

end BlockQuery.CommandLine

open BlockQuery.CommandLine in
def main (args : List String) : IO UInt32 := do
  match Command.parse args with
  | .ok command => return if ← perform command then 0 else 1
  | .error e =>
    if e.isRequest then
      IO.print e.message
      return 0
    else
      IO.eprint e.message
      return 2
