import PrefixVM.Fault

/-!
Locks. A lock is named by a number that the program chooses, comes into being when it is first taken,
and is never removed. Taking and releasing are split into the steps that happen at once: looking a lock
up, creating it if it is still missing, and one look at its owner. A lock is released by whoever asks
for it, and its owner must not take it again.
-/
namespace PrefixVM

/-- The locks of a process, each with the index of the thread that owns it. -/
structure LockTable where
  entries : List (Int64 × Option Nat) := []
  deriving DecidableEq, Repr

inductive LockStage where
  | look
  /-- The lock was missing and is to be created. -/
  | create
  /-- The lock exists and its owner is to be looked at. -/
  | wait
  deriving DecidableEq, Repr

inductive LockOutcome where
  | acquired (created : Bool)
  /-- The caller was stopped while another thread owned the lock. -/
  | abandoned
  | reentrant
  | pending (stage : LockStage)
  deriving DecidableEq, Repr

inductive UnlockStage where
  | look
  | clear
  deriving DecidableEq, Repr

inductive UnlockOutcome where
  /-- The release is over; it tells whether the lock was owned. -/
  | done (released : Bool)
  | pending
  deriving DecidableEq, Repr

namespace LockTable

def size (t : LockTable) : Nat :=
  t.entries.length

/-- The entry of a lock: `none` if it does not exist. -/
def entry? (t : LockTable) (lock : Int64) : Option (Option Nat) :=
  t.entries.lookup lock

def owner? (t : LockTable) (lock : Int64) : Option Nat :=
  (t.entry? lock).join

def holdsAny (t : LockTable) (thread : Nat) : Bool :=
  t.entries.any fun entry => entry.2 == some thread

def insert (t : LockTable) (lock : Int64) (owner : Option Nat) : LockTable :=
  ⟨t.entries ++ [(lock, owner)]⟩

def setOwner (t : LockTable) (lock : Int64) (owner : Option Nat) : LockTable :=
  ⟨t.entries.map fun entry => if entry.1 = lock then (lock, owner) else entry⟩

/-- One step of an attempt of `thread` to take a lock; `mayRun` tells whether the thread may still
wait. -/
def lockStep (t : LockTable) (lock : Int64) (thread : Nat) (mayRun : Bool) :
    LockStage → LockOutcome × LockTable
  | .look =>
    match t.entry? lock with
    | some _ => (.pending .wait, t)
    | none => (.pending .create, t)
  | .create =>
    -- another thread may have created the lock since it was looked up
    match t.entry? lock with
    | some _ => (.pending .wait, t)
    | none => (.acquired true, t.insert lock (some thread))
  | .wait =>
    match t.owner? lock with
    | none => (.acquired false, t.setOwner lock (some thread))
    | some owner =>
      if owner = thread then (.reentrant, t)
      else if mayRun then (.pending .wait, t)
      else (.abandoned, t)

def unlockStep (t : LockTable) (lock : Int64) : UnlockStage → UnlockOutcome × LockTable
  | .look =>
    match t.entry? lock with
    | some _ => (.pending, t)
    | none => (.done false, t)
  | .clear =>
    -- the caller need not be the owner
    match t.owner? lock with
    | some _ => (.done true, t.setOwner lock none)
    | none => (.done false, t)

/-- An attempt to take a lock without other threads in between, up to its end or to the point where
another thread has to release the lock. -/
def attempt (t : LockTable) (lock : Int64) (thread : Nat) (mayRun : Bool) :
    LockOutcome × LockTable :=
  match t.lockStep lock thread mayRun .look with
  | (.pending stage, t) =>
    match t.lockStep lock thread mayRun stage with
    | (.pending stage, t) => t.lockStep lock thread mayRun stage
    | result => result
  | result => result

def retry (t : LockTable) (lock : Int64) (thread : Nat) (mayRun : Bool) :
    LockOutcome → LockOutcome × LockTable
  | .pending stage => t.lockStep lock thread mayRun stage
  | outcome => (outcome, t)

def unlock (t : LockTable) (lock : Int64) : Bool × LockTable :=
  match t.unlockStep lock .look with
  | (.pending, t) =>
    match t.unlockStep lock .clear with
    | (.done released, t) => (released, t)
    | (.pending, t) => (false, t)
  | (.done released, t) => (released, t)

end LockTable

end PrefixVM
