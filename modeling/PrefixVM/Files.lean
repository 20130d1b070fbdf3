import PrefixVM.Directory

/-!
Access to files by path. Commands are written against this interface, so that the same command works on
a `Directory` and on the files of the computer it is started on.
-/
namespace PrefixVM

/-- Access to files in a monad. -/
structure Files (m : Type → Type) where
  read : String → m (Except PathError Bytes)
  /-- Replaces the content of a file, which is created if it is missing. -/
  write : String → Bytes → m (Except PathError Unit)
  slot : String → m FileSlot
  /-- The limit that is set to the length of a file. -/
  limit : Option FileLimit := none

def Files.ofDirectory : Files (StateM Directory) where
  read path := return (← get).read path
  write path content := do
    match (← get).write path content with
    | .ok d =>
      set d
      return .ok ()
    | .error e => return .error e
  slot path := return (← get).slot path
  limit := some Directory.fileLimit

end PrefixVM
