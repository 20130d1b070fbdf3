import PrefixVM.DataFile

/-!
Settings of a process.
-/
namespace PrefixVM

/-- Settings of a process; times are in milliseconds. -/
structure Settings where
  dataFile : Option String := none
  /-- The limit that the system sets to the length of the data file. -/
  fileLimit : Option FileLimit := none
  /-- Values to read from the console; the standard input is read if there are none. -/
  input : Option (List Int64) := none
  captureOutput : Bool := false
  /-- The longest time a sleeping thread goes without looking at its switch. -/
  sleepSlice : Nat := 100
  /-- The longest time a thread waits for a lock without looking at its switch. -/
  lockPoll : Nat := 10
  /-- The pause of a thread that has released its last lock. -/
  unlockPause : Nat := 50
  deriving DecidableEq, Repr

namespace Settings

def captured (input : List Int64) : Settings :=
  { input := some input, captureOutput := true }

end Settings

end PrefixVM
