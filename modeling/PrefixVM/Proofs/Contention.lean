import Mathlib.Logic.Function.Basic
import PrefixVM.Proofs.LockOwners
import PrefixVM.Switch

/-!
Threads that take and release locks. Every thread makes one call after the other; calls are cut into the
steps that happen at once, the steps of all threads are interleaved in any order, and a thread can be stopped
at any time. The calls that have returned are kept in a history, and what the table shows is read off from
this history.
-/
namespace PrefixVM

inductive LockCall where
  | idle
  | locking (lock : Int64) (stage : LockStage)
  | unlocking (lock : Int64) (stage : UnlockStage)
  deriving DecidableEq

inductive LockResult where
  | locked (created : Bool)
  | abandoned
  | reentrant
  | unlocked (released : Bool)
  deriving DecidableEq

structure LockReturn where
  thread : Nat
  lock : Int64
  result : LockResult
  deriving DecidableEq

namespace LockReturn

/-- The owner that the call has given to a lock, unless it left this lock alone. -/
def newOwner? (lock : Int64) (r : LockReturn) : Option (Option Nat) :=
  if r.lock = lock then
    match r.result with
    | .locked _ => some (some r.thread)
    | .unlocked true => some none
    | _ => none
  else none

def creates (lock : Int64) (r : LockReturn) : Bool :=
  r.lock == lock && r.result == .locked true

end LockReturn

/-- Any number of threads with a common lock table. -/
structure Contention where
  table : LockTable := {}
  calls : Nat → LockCall := fun _ => .idle
  switches : Nat → Switch := fun _ => {}
  /-- The calls that have returned, the first one first. -/
  history : List LockReturn := []

inductive LockMove where
  | lock (thread : Nat) (lock : Int64)
  | unlock (thread : Nat) (lock : Int64)
  /-- A thread takes the next step of its call. -/
  | advance (thread : Nat)
  | stop (thread : Nat)

namespace Contention

/-- A thread begins a call, unless it is in the middle of one. -/
def start (s : Contention) (thread : Nat) (call : LockCall) : Contention :=
  if s.calls thread = .idle then { s with calls := Function.update s.calls thread call } else s

def resume (s : Contention) (thread : Nat) (call : LockCall) : Contention :=
  { s with calls := Function.update s.calls thread call }

def finish (s : Contention) (thread : Nat) (lock : Int64) (result : LockResult) (table : LockTable) :
    Contention :=
  { s with
    table
    calls := Function.update s.calls thread .idle
    history := s.history ++ [⟨thread, lock, result⟩] }

def advance (s : Contention) (thread : Nat) : Contention :=
  match s.calls thread with
  | .idle => s
  | .locking lock stage =>
    match s.table.lockStep lock thread (s.switches thread).mayRun stage with
    | (.acquired created, table) => s.finish thread lock (.locked created) table
    | (.abandoned, table) => s.finish thread lock .abandoned table
    | (.reentrant, table) => s.finish thread lock .reentrant table
    | (.pending stage, table) => { s with table }.resume thread (.locking lock stage)
  | .unlocking lock stage =>
    match s.table.unlockStep lock stage with
    | (.done released, table) => s.finish thread lock (.unlocked released) table
    | (.pending, table) => { s with table }.resume thread (.unlocking lock .clear)

def step (s : Contention) : LockMove → Contention
  | .lock thread lock => s.start thread (.locking lock .look)
  | .unlock thread lock => s.start thread (.unlocking lock .look)
  | .advance thread => s.advance thread
  | .stop thread =>
    { s with switches := Function.update s.switches thread (s.switches thread).stop.2 }

def run (s : Contention) (moves : List LockMove) : Contention :=
  moves.foldl step s

/-- The owners that a lock was given so far, in order: a thread for each acquisition, and none for each
effective release. -/
def owners (s : Contention) (lock : Int64) : List (Option Nat) :=
  s.history.filterMap (LockReturn.newOwner? lock)

end Contention

/-- What the last step of a call can find, return and leave behind. -/
inductive LockEffect (t : LockTable) (thread : Nat) (lock : Int64) : LockResult → LockTable → Prop
  | created (h : t.entry? lock = none) :
    LockEffect t thread lock (.locked true) (t.insert lock (some thread))
  | acquired (h : t.entry? lock = some none) :
    LockEffect t thread lock (.locked false) (t.setOwner lock (some thread))
  | abandoned (owner : Nat) (h : t.owner? lock = some owner) : LockEffect t thread lock .abandoned t
  | reentrant (h : t.owner? lock = some thread) : LockEffect t thread lock .reentrant t
  | released (owner : Nat) (h : t.owner? lock = some owner) :
    LockEffect t thread lock (.unlocked true) (t.setOwner lock none)
  | free (h : t.owner? lock = none) : LockEffect t thread lock (.unlocked false) t

namespace LockEffect

variable {t t' : LockTable} {thread : Nat} {lock : Int64} {r : LockResult}

theorem owner? (h : LockEffect t thread lock r t') (other : Int64) :
    t'.owner? other =
      (LockReturn.newOwner? other ⟨thread, lock, r⟩).getD (t.owner? other) := by
  by_cases hother : lock = other
  · subst hother
    cases h with
    | created h => simp [LockReturn.newOwner?, LockTable.owner?_insert _ _ _ _ h]
    | acquired h =>
      have hsome : (t.entry? lock).isSome = true := by rw [h]; rfl
      simp [LockReturn.newOwner?, LockTable.owner?_setOwner _ _ _ _ hsome]
    | released owner h =>
      have hsome := LockTable.isSome_entry?_of_owner? h
      simp [LockReturn.newOwner?, LockTable.owner?_setOwner _ _ _ _ hsome]
    | abandoned | reentrant | free => simp [LockReturn.newOwner?]
  · have hne : other ≠ lock := fun heq => hother heq.symm
    simp only [LockReturn.newOwner?, hother, if_false, Option.getD_none]
    cases h with
    | created h => rw [LockTable.owner?_insert _ _ _ _ h, if_neg hne]
    | acquired h =>
      have hsome : (t.entry? lock).isSome = true := by rw [h]; rfl
      rw [LockTable.owner?_setOwner _ _ _ _ hsome, if_neg hne]
    | released owner h =>
      rw [LockTable.owner?_setOwner _ _ _ _ (LockTable.isSome_entry?_of_owner? h), if_neg hne]
    | abandoned | reentrant | free => rfl

/-- An acquisition finds the lock without an owner, and an effective release finds it with one. -/
theorem isSome_newOwner (h : LockEffect t thread lock r t') {other : Int64} {owner : Option Nat}
    (hr : LockReturn.newOwner? other ⟨thread, lock, r⟩ = some owner) :
    owner.isSome = !(t.owner? other).isSome := by
  unfold LockReturn.newOwner? at hr
  split at hr
  next heq =>
    obtain rfl : lock = other := heq
    cases h with
    | created h =>
      obtain rfl := Option.some.inj hr
      simp [LockTable.owner?, h]
    | acquired h =>
      obtain rfl := Option.some.inj hr
      simp [LockTable.owner?, h]
    | released owner h =>
      obtain rfl := Option.some.inj hr
      simp [h]
    | abandoned | reentrant | free => cases hr
  next => cases hr

/-- Locks are only added, and the call that adds one says so. -/
theorem locks_eq (h : LockEffect t thread lock r t') :
    t'.locks = t.locks ++ (if r = .locked true then [lock] else []) := by
  cases h <;> simp

theorem not_mem_of_created (h : LockEffect t thread lock (.locked true) t') : lock ∉ t.locks := by
  cases h with
  | created h =>
    rw [← LockTable.isSome_entry?_iff, h]
    decide

end LockEffect

namespace Contention

variable {s : Contention}

/-- A thread waits only for locks that exist. -/
def WaitsForExisting (s : Contention) : Prop :=
  ∀ thread lock, s.calls thread = .locking lock .wait → lock ∈ s.table.locks

/-- A move that lets no call return: the table is left alone, a thread begins to wait only for a lock that
it has found, and a release that is under way was so before or has just been called for. -/
structure Quiet (s : Contention) (m : LockMove) (s' : Contention) : Prop where
  table : s'.table = s.table
  history : s'.history = s.history
  waiting : ∀ thread lock, s'.calls thread = .locking lock .wait →
    s.calls thread = .locking lock .wait ∨ lock ∈ s.table.locks
  unlocking : ∀ thread lock stage, s'.calls thread = .unlocking lock stage →
    (m = .unlock thread lock ∧ s.calls thread = .idle) ∨
      ∃ stage', s.calls thread = .unlocking lock stage'

/-- A move that lets the call of a thread return. -/
def Returns (s : Contention) (m : LockMove) (s' : Contention) : Prop :=
  ∃ thread lock r table, m = .advance thread ∧ s' = s.finish thread lock r table ∧
    LockEffect s.table thread lock r table ∧
      ∀ released, r = .unlocked released → ∃ stage, s.calls thread = .unlocking lock stage

theorem calls_resume (s : Contention) (thread u : Nat) (call : LockCall) :
    (s.resume thread call).calls u = if u = thread then call else s.calls u :=
  Function.update_apply s.calls thread call u

theorem calls_finish (s : Contention) (thread u : Nat) (lock : Int64) (r : LockResult)
    (table : LockTable) :
    (s.finish thread lock r table).calls u = if u = thread then .idle else s.calls u :=
  Function.update_apply s.calls thread .idle u

theorem quiet_self (s : Contention) (m : LockMove) : s.Quiet m s :=
  ⟨rfl, rfl, fun _ _ h => .inl h, fun _ _ stage h => .inr ⟨stage, h⟩⟩

theorem quiet_resume {thread : Nat} {call : LockCall} {m : LockMove}
    (hwait : ∀ lock, call = .locking lock .wait → lock ∈ s.table.locks)
    (hunlock : ∀ lock stage, call = .unlocking lock stage →
      (m = .unlock thread lock ∧ s.calls thread = .idle) ∨
        ∃ stage', s.calls thread = .unlocking lock stage') :
    s.Quiet m (s.resume thread call) := by
  refine ⟨rfl, rfl, ?_, ?_⟩
  · intro u lock h
    rw [calls_resume] at h
    split at h
    · exact .inr (hwait lock h)
    · exact .inl h
  · intro u lock stage h
    rw [calls_resume] at h
    split at h
    next hu =>
      rw [hu]
      exact hunlock lock stage h
    next => exact .inr ⟨stage, h⟩

theorem quiet_wait {thread : Nat} {lock : Int64} {m : LockMove} (hmem : lock ∈ s.table.locks) :
    s.Quiet m (s.resume thread (.locking lock .wait)) := by
  apply quiet_resume
  · intro other h
    rwa [← (LockCall.locking.inj h).1]
  · intro other stage h
    cases h

theorem quiet_start {thread : Nat} {call : LockCall} {m : LockMove}
    (hwait : ∀ lock, call ≠ .locking lock .wait)
    (hunlock : ∀ lock stage, call = .unlocking lock stage → m = .unlock thread lock) :
    s.Quiet m (s.start thread call) := by
  unfold start
  split
  next hidle =>
    apply quiet_resume
    · intro lock h
      exact absurd h (hwait lock)
    · intro lock stage h
      exact .inl ⟨hunlock lock stage h, hidle⟩
  next => exact quiet_self s m

theorem advance_locking_cases (hw : s.WaitsForExisting) {thread : Nat} {lock : Int64}
    {stage : LockStage} (hcall : s.calls thread = .locking lock stage) :
    s.Quiet (.advance thread) (s.advance thread) ∨ s.Returns (.advance thread) (s.advance thread) := by
  unfold advance
  rw [hcall]
  cases stage with
  | look =>
    cases hentry : s.table.entry? lock with
    | none =>
      simp only [LockTable.lockStep, hentry]
      exact .inl (quiet_resume (by simp) (by simp))
    | some o =>
      simp only [LockTable.lockStep, hentry]
      exact .inl (quiet_wait (LockTable.mem_locks_of_entry? hentry))
  | create =>
    -- the lock may have been created since it was found missing
    cases hentry : s.table.entry? lock with
    | none =>
      simp only [LockTable.lockStep, hentry]
      exact .inr ⟨thread, lock, _, _, rfl, rfl, .created hentry, by simp⟩
    | some o =>
      simp only [LockTable.lockStep, hentry]
      exact .inl (quiet_wait (LockTable.mem_locks_of_entry? hentry))
  | wait =>
    have hmem := hw thread lock hcall
    cases howner : s.table.owner? lock with
    | none =>
      have hentry := LockTable.entry?_of_owner?_eq_none hmem howner
      simp only [LockTable.lockStep, howner]
      exact .inr ⟨thread, lock, _, _, rfl, rfl, .acquired hentry, by simp⟩
    | some owner =>
      simp only [LockTable.lockStep, howner]
      by_cases hself : owner = thread
      · rw [if_pos hself]
        exact .inr ⟨thread, lock, _, _, rfl, rfl, .reentrant (hself ▸ howner), by simp⟩
      · rw [if_neg hself]
        by_cases hrun : (s.switches thread).mayRun = true
        · rw [if_pos hrun]
          exact .inl (quiet_wait hmem)
        · rw [if_neg hrun]
          exact .inr ⟨thread, lock, _, _, rfl, rfl, .abandoned owner howner, by simp⟩

theorem advance_unlocking_cases {thread : Nat} {lock : Int64} {stage : UnlockStage}
    (hcall : s.calls thread = .unlocking lock stage) :
    s.Quiet (.advance thread) (s.advance thread) ∨ s.Returns (.advance thread) (s.advance thread) := by
  unfold advance
  rw [hcall]
  cases stage with
  | look =>
    cases hentry : s.table.entry? lock with
    | none =>
      have howner : s.table.owner? lock = none := by
        rw [LockTable.owner?, hentry]
        rfl
      simp only [LockTable.unlockStep, hentry]
      exact .inr ⟨thread, lock, _, _, rfl, rfl, .free howner, fun _ _ => ⟨_, hcall⟩⟩
    | some o =>
      simp only [LockTable.unlockStep, hentry]
      apply Or.inl
      apply quiet_resume
      · intro other h
        cases h
      · intro other stage h
        rw [← (LockCall.unlocking.inj h).1]
        exact .inr ⟨.look, hcall⟩
  | clear =>
    cases howner : s.table.owner? lock with
    | none =>
      simp only [LockTable.unlockStep, howner]
      exact .inr ⟨thread, lock, _, _, rfl, rfl, .free howner, fun _ _ => ⟨_, hcall⟩⟩
    | some owner =>
      simp only [LockTable.unlockStep, howner]
      exact .inr ⟨thread, lock, _, _, rfl, rfl, .released owner howner, fun _ _ => ⟨_, hcall⟩⟩

theorem step_cases (hw : s.WaitsForExisting) (m : LockMove) :
    s.Quiet m (s.step m) ∨ s.Returns m (s.step m) := by
  cases m with
  | lock thread lock => exact .inl (quiet_start (by simp) (by simp))
  | unlock thread lock =>
    refine .inl (quiet_start (by simp) ?_)
    intro other stage h
    rw [(LockCall.unlocking.inj h).1]
  | advance thread =>
    cases hcall : s.calls thread with
    | idle =>
      have hself : s.step (.advance thread) = s := by
        change s.advance thread = s
        rw [advance, hcall]
      rw [hself]
      exact .inl (quiet_self s _)
    | locking lock stage => exact advance_locking_cases hw hcall
    | unlocking lock stage => exact advance_unlocking_cases hcall
  | stop thread => exact .inl ⟨rfl, rfl, fun _ _ h => .inl h, fun _ _ stage h => .inr ⟨stage, h⟩⟩

theorem locks_prefix_step (hw : s.WaitsForExisting) (m : LockMove) :
    s.table.locks <+: (s.step m).table.locks := by
  rcases step_cases hw m with hquiet | ⟨thread, lock, r, table, -, heq, heffect, -⟩
  · exact ⟨[], by rw [hquiet.table, List.append_nil]⟩
  · rw [heq]
    change s.table.locks <+: table.locks
    rw [heffect.locks_eq]
    exact List.prefix_append _ _

theorem waitsForExisting_step (hw : s.WaitsForExisting) (m : LockMove) :
    (s.step m).WaitsForExisting := by
  intro thread lock h
  apply (locks_prefix_step hw m).subset
  rcases step_cases hw m with hquiet | ⟨u, lock', r, table, -, heq, -, -⟩
  · rcases hquiet.waiting thread lock h with hold | hmem
    · exact hw thread lock hold
    · exact hmem
  · rw [heq, calls_finish] at h
    split at h
    · cases h
    · exact hw thread lock h

end Contention

end PrefixVM
