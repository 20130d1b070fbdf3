import Mathlib.Data.List.Nodup
import PrefixVM.Proofs.Contention

/-!
The history of a lock under any interleaving. A lock is created at most once and stays; its acquisitions and
effective releases alternate, and the last of them tells who owns it. If threads release only locks that they
own, then a lock is held by one thread at a time.
-/
namespace PrefixVM.Contention

variable {s : Contention}

/-- Acquisitions and releases take turns, an acquisition first. -/
def Alternates (owners : List (Option Nat)) : Prop :=
  ∀ (k : Nat) (owner : Option Nat), owners[k]? = some owner → (owner.isSome = true ↔ k % 2 = 0)

theorem Alternates.isSome_last {owners : List (Option Nat)} (h : Alternates owners) :
    owners.getLast?.join.isSome = true ↔ owners.length % 2 = 1 := by
  cases hlast : owners.getLast? with
  | none =>
    rw [List.getLast?_eq_none_iff.mp hlast]
    decide
  | some owner =>
    have hpos : 0 < owners.length := List.length_pos_of_mem (List.mem_of_getLast? hlast)
    rw [List.getLast?_eq_getElem?] at hlast
    rw [Option.join_some, h _ owner hlast]
    omega

theorem Alternates.concat {owners : List (Option Nat)} (h : Alternates owners) {owner : Option Nat}
    (howner : owner.isSome = !owners.getLast?.join.isSome) : Alternates (owners ++ [owner]) := by
  intro k o hk
  rcases Nat.lt_trichotomy k owners.length with hlt | heq | hgt
  · rw [List.getElem?_append_left hlt] at hk
    exact h k o hk
  · -- the parity of the length tells whether the lock was owned before
    have hlast := h.isSome_last
    rw [heq, List.getElem?_concat_length] at hk
    obtain rfl := Option.some.inj hk
    rw [howner, heq, Bool.not_eq_true', ← Bool.not_eq_true, hlast]
    omega
  · rw [List.getElem?_eq_none (by rw [List.length_append, List.length_singleton]; omega)] at hk
    cases hk

/-- What the history tells about the table. -/
structure Lawful (s : Contention) : Prop where
  waiting : s.WaitsForExisting
  distinct : s.table.locks.Nodup
  created : ∀ lock, s.history.countP (LockReturn.creates lock) = s.table.locks.count lock
  alternates : ∀ lock, Alternates (s.owners lock)
  owner : ∀ lock, s.table.owner? lock = (s.owners lock).getLast?.join

theorem owners_finish (s : Contention) (thread : Nat) (lock other : Int64) (r : LockResult)
    (table : LockTable) :
    (s.finish thread lock r table).owners other =
      s.owners other ++ (LockReturn.newOwner? other ⟨thread, lock, r⟩).toList := by
  simp only [owners, finish, List.filterMap_append, List.filterMap_cons, List.filterMap_nil]
  cases LockReturn.newOwner? other ⟨thread, lock, r⟩ <;> rfl

theorem Lawful.quiet (hs : s.Lawful) {m : LockMove} {s' : Contention} (hwaiting : s'.WaitsForExisting)
    (h : s.Quiet m s') : s'.Lawful := by
  have howners (lock : Int64) : s'.owners lock = s.owners lock := by
    rw [owners, owners, h.history]
  refine ⟨hwaiting, ?_, ?_, ?_, ?_⟩
  · rw [h.table]
    exact hs.distinct
  · intro lock
    rw [h.history, h.table]
    exact hs.created lock
  · intro lock
    rw [howners]
    exact hs.alternates lock
  · intro lock
    rw [howners, h.table]
    exact hs.owner lock

theorem distinct_of_effect (hs : s.Lawful) {thread : Nat} {lock : Int64} {r : LockResult}
    {table : LockTable} (h : LockEffect s.table thread lock r table) : table.locks.Nodup := by
  rw [h.locks_eq]
  split
  next hr =>
    have hnew := (hr ▸ h).not_mem_of_created
    rw [← List.concat_eq_append]
    exact hs.distinct.concat hnew
  next =>
    rw [List.append_nil]
    exact hs.distinct

theorem Lawful.finish (hs : s.Lawful) {thread : Nat} {lock : Int64} {r : LockResult} {table : LockTable}
    (hwaiting : (s.finish thread lock r table).WaitsForExisting)
    (h : LockEffect s.table thread lock r table) : (s.finish thread lock r table).Lawful := by
  refine ⟨hwaiting, distinct_of_effect hs h, ?_, ?_, ?_⟩
  · intro other
    change (s.history ++ [LockReturn.mk thread lock r]).countP (LockReturn.creates other) =
      table.locks.count other
    rw [h.locks_eq, List.countP_append, List.count_append, hs.created]
    by_cases hr : r = .locked true <;> by_cases hlock : lock = other <;>
      simp [LockReturn.creates, hr, hlock]
  · intro other
    rw [owners_finish]
    cases hnew : LockReturn.newOwner? other ⟨thread, lock, r⟩ with
    | none =>
      rw [Option.toList_none, List.append_nil]
      exact hs.alternates other
    | some owner =>
      -- the table decides whether this can be an acquisition, and it shows the last change
      have hturn := h.isSome_newOwner hnew
      rw [hs.owner other] at hturn
      exact (hs.alternates other).concat hturn
  · intro other
    change table.owner? other = _
    rw [owners_finish, h.owner? other]
    cases LockReturn.newOwner? other ⟨thread, lock, r⟩ with
    | none =>
      rw [Option.toList_none, List.append_nil]
      exact hs.owner other
    | some owner => rw [Option.toList_some, List.getLast?_concat, Option.getD_some, Option.join_some]

theorem Lawful.step (hs : s.Lawful) (m : LockMove) : (s.step m).Lawful := by
  have hwaiting := waitsForExisting_step hs.waiting m
  rcases step_cases hs.waiting m with hquiet | ⟨thread, lock, r, table, -, heq, heffect, -⟩
  · exact hs.quiet hwaiting hquiet
  · rw [heq] at hwaiting ⊢
    exact hs.finish hwaiting heffect

theorem lawful_empty : Lawful {} where
  waiting _ _ h := by cases h
  distinct := List.nodup_nil
  created _ := rfl
  alternates _ _ _ h := by cases h
  owner _ := rfl

theorem Lawful.run (hs : s.Lawful) (moves : List LockMove) : (s.run moves).Lawful := by
  induction moves generalizing s with
  | nil => exact hs
  | cons m rest ih => exact ih (hs.step m)

theorem locks_prefix_run (hs : s.Lawful) (moves : List LockMove) :
    s.table.locks <+: (s.run moves).table.locks := by
  induction moves generalizing s with
  | nil => exact List.prefix_refl _
  | cons m rest ih => exact (locks_prefix_step hs.waiting m).trans (ih (hs.step m))

/-- The table changes only in the step in which a call takes or releases a lock. -/
theorem table_step (hs : s.Lawful) (m : LockMove) :
    (s.step m).table = s.table ∨ ∃ r, m = .advance r.thread ∧ (s.step m).history = s.history ++ [r] ∧
      ((∃ created, r.result = .locked created) ∨ r.result = .unlocked true) := by
  rcases step_cases hs.waiting m with hquiet | ⟨thread, lock, r, table, hm, heq, heffect, -⟩
  · exact .inl hquiet.table
  · rw [heq]
    cases heffect with
    | created => exact .inr ⟨⟨thread, lock, _⟩, hm, rfl, .inl ⟨_, rfl⟩⟩
    | acquired => exact .inr ⟨⟨thread, lock, _⟩, hm, rfl, .inl ⟨_, rfl⟩⟩
    | released => exact .inr ⟨⟨thread, lock, _⟩, hm, rfl, .inr rfl⟩
    | abandoned | reentrant | free => exact .inl rfl

def held (thread : Nat) (lock : Int64) (before : Bool) (r : LockReturn) : Bool :=
  if r.thread = thread ∧ r.lock = lock then
    match r.result with
    | .locked _ => true
    | .unlocked _ => false
    | _ => before
  else before

/-- Whether a thread holds a lock: its last call that took or released the lock has taken it. -/
def holds (s : Contention) (thread : Nat) (lock : Int64) : Bool :=
  s.history.foldl (held thread lock) false

/-- A thread that calls to release a lock owns it. -/
def Permits (s : Contention) : LockMove → Prop
  | .unlock thread lock => s.calls thread = .idle → s.table.owner? lock = some thread
  | _ => True

/-- Moves among which every call to release a lock comes from its owner. -/
def Disciplined : Contention → List LockMove → Prop
  | _, [] => True
  | s, m :: rest => s.Permits m ∧ Disciplined (s.step m) rest

/-- What discipline keeps: releases under way are those of owners, and threads hold what they own. -/
structure Orderly (s : Contention) : Prop where
  lawful : s.Lawful
  unlocking : ∀ thread lock stage, s.calls thread = .unlocking lock stage →
    s.table.owner? lock = some thread
  holds : ∀ thread lock, s.holds thread lock = true ↔ s.table.owner? lock = some thread

theorem holds_finish (s : Contention) (u thread : Nat) (other lock : Int64) (r : LockResult)
    (table : LockTable) :
    (s.finish thread lock r table).holds u other =
      held u other (s.holds u other) ⟨thread, lock, r⟩ := by
  rw [holds, finish, List.foldl_append, List.foldl_cons, List.foldl_nil, holds]

theorem Orderly.unlocking_finish (hs : s.Orderly) {thread : Nat} {lock : Int64} {r : LockResult}
    {table : LockTable} (heffect : LockEffect s.table thread lock r table)
    (hown : ∀ released, r = .unlocked released → s.table.owner? lock = some thread)
    {u : Nat} {other : Int64} {stage : UnlockStage}
    (h : (s.finish thread lock r table).calls u = .unlocking other stage) :
    table.owner? other = some u := by
  rw [calls_finish] at h
  split at h
  · cases h
  next hne =>
    have hu := hs.unlocking u other stage h
    rw [heffect.owner? other]
    cases hnew : LockReturn.newOwner? other ⟨thread, lock, r⟩ with
    | none => exact hu
    | some owner =>
      -- the call would be a release by the owner, and this is the other thread
      have hturn := heffect.isSome_newOwner hnew
      rw [hu] at hturn
      unfold LockReturn.newOwner? at hnew
      split at hnew
      next heq =>
        obtain rfl : lock = other := heq
        cases r with
        | locked created =>
          obtain rfl := Option.some.inj hnew
          cases hturn
        | unlocked released =>
          rw [hown released rfl] at hu
          exact absurd (Option.some.inj hu).symm hne
        | abandoned | reentrant => cases hnew
      next => cases hnew

theorem Orderly.holds_iff_finish (hs : s.Orderly) {thread : Nat} {lock : Int64} {r : LockResult}
    {table : LockTable} (heffect : LockEffect s.table thread lock r table)
    (hown : ∀ released, r = .unlocked released → s.table.owner? lock = some thread)
    (u : Nat) (other : Int64) :
    (s.finish thread lock r table).holds u other = true ↔ table.owner? other = some u := by
  have hu := hs.holds u other
  rw [holds_finish, heffect.owner? other]
  by_cases hlock : lock = other
  · subst hlock
    cases r with
    | locked created =>
      have hnew : LockReturn.newOwner? lock ⟨thread, lock, .locked created⟩ = some (some thread) := by
        simp [LockReturn.newOwner?]
      have hfree : s.table.owner? lock = none := by
        simpa using heffect.isSome_newOwner hnew
      rw [hfree] at hu
      rw [hnew]
      by_cases hthread : thread = u <;> simp [held, hthread, hu]
    | unlocked released =>
      have howner := hown released rfl
      have hreleased : released = true := by
        cases heffect with
        | released => rfl
        | free h =>
          rw [howner] at h
          cases h
      rw [howner] at hu
      by_cases hthread : thread = u <;> simp_all [held, LockReturn.newOwner?]
    | abandoned | reentrant => simpa [held, LockReturn.newOwner?] using hu
  · simpa [held, LockReturn.newOwner?, hlock] using hu

theorem Orderly.step (hs : s.Orderly) {m : LockMove} (hm : s.Permits m) : (s.step m).Orderly := by
  have hlawful := hs.lawful.step m
  rcases step_cases hs.lawful.waiting m with hquiet | ⟨thread, lock, r, table, -, heq, heffect, hcall⟩
  · refine ⟨hlawful, ?_, ?_⟩
    · intro u other stage h
      rw [hquiet.table]
      rcases hquiet.unlocking u other stage h with ⟨rfl, hidle⟩ | ⟨stage', hold⟩
      · exact hm hidle
      · exact hs.unlocking u other stage' hold
    · intro u other
      rw [hquiet.table, Contention.holds, hquiet.history]
      exact hs.holds u other
  · have hown (released : Bool) (hr : r = .unlocked released) : s.table.owner? lock = some thread := by
      obtain ⟨stage, hstage⟩ := hcall released hr
      exact hs.unlocking thread lock stage hstage
    rw [heq] at hlawful ⊢
    exact ⟨hlawful, fun _ _ _ h => hs.unlocking_finish heffect hown h,
      hs.holds_iff_finish heffect hown⟩

theorem Orderly.run (hs : s.Orderly) {moves : List LockMove} (hmoves : s.Disciplined moves) :
    (s.run moves).Orderly := by
  induction moves generalizing s with
  | nil => exact hs
  | cons m rest ih => exact ih (hs.step hmoves.1) hmoves.2

theorem orderly_empty : Orderly {} where
  lawful := lawful_empty
  unlocking _ _ _ h := by cases h
  holds _ _ := ⟨fun h => (by cases h), fun h => (by cases h)⟩

/-- Locks under any interleaving. Every lock is created at most once, and is there ever after at the same
place of the table; its acquisitions and effective releases alternate, beginning with an acquisition; its
owner is the thread of the last acquisition unless a release followed; and calls that neither take nor
release a lock change nothing. If threads release only locks that they own, no two of them hold the same
lock at once. -/
theorem run_lawful (moves : List LockMove) :
    let s := Contention.run {} moves
    (∀ lock, s.history.countP (LockReturn.creates lock) ≤ 1 ∧ s.table.locks.count lock ≤ 1) ∧
      (∀ more, s.table.locks <+: (s.run more).table.locks) ∧
      (∀ lock, Alternates (s.owners lock)) ∧
      (∀ lock, s.table.owner? lock = (s.owners lock).getLast?.join) ∧
      (∀ m, (s.step m).table = s.table ∨ ∃ r, m = .advance r.thread ∧
        (s.step m).history = s.history ++ [r] ∧
          ((∃ created, r.result = .locked created) ∨ r.result = .unlocked true)) ∧
      (Disciplined {} moves → ∀ lock t u, s.holds t lock = true → s.holds u lock = true → t = u) := by
  intro s
  have hs : s.Lawful := lawful_empty.run moves
  refine ⟨?_, locks_prefix_run hs, hs.alternates, hs.owner, table_step hs, ?_⟩
  · intro lock
    have hcount : s.table.locks.count lock ≤ 1 := List.nodup_iff_count_le_one.mp hs.distinct lock
    exact ⟨hs.created lock ▸ hcount, hcount⟩
  · intro hmoves lock t u ht hu
    have horder : s.Orderly := orderly_empty.run hmoves
    rw [horder.holds] at ht hu
    rw [ht] at hu
    exact Option.some.inj hu

/-- Two threads find a lock missing at the same time: one creates it, and the other waits for it. -/
theorem run_lawful_race :
    let moves := [.lock 0 7, .lock 1 7, .advance 0, .advance 1, .advance 1, .advance 0, .advance 0,
      .unlock 1 7, .advance 1, .advance 1, .advance 0]
    Disciplined {} moves ∧ (Contention.run {} moves).table.locks = [7] ∧
      (Contention.run {} moves).owners 7 = [some 1, none, some 0] ∧
      ∀ u, (Contention.run {} moves).holds u 7 = true → 0 = u := by
  intro moves
  have hmoves : Disciplined {} moves :=
    ⟨trivial, trivial, trivial, trivial, trivial, trivial, trivial, fun _ => rfl, trivial, trivial, trivial,
      trivial⟩
  obtain ⟨-, -, -, -, -, hexclusive⟩ := run_lawful moves
  exact ⟨hmoves, rfl, rfl, fun u hu => hexclusive hmoves 7 0 u rfl hu⟩

end PrefixVM.Contention
