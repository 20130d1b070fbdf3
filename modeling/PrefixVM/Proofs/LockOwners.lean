import Mathlib.Data.List.Basic
import PrefixVM.LockTable

/-!
What the operations of a lock table do to its entries. Locks are only ever added, at the end of the table;
changing an owner touches one entry, and all other entries stay as they are.
-/
namespace PrefixVM.LockTable

/-- The locks of a table, in the order of their creation. -/
def locks (t : LockTable) : List Int64 :=
  t.entries.map Prod.fst

theorem isSome_entry?_iff (t : LockTable) (lock : Int64) :
    (t.entry? lock).isSome = true ↔ lock ∈ t.locks := by
  unfold entry? locks
  induction t.entries with
  | nil => simp
  | cons e rest ih =>
    rw [List.lookup_cons, List.map_cons, List.mem_cons]
    by_cases h : lock = e.1
    · simp [h]
    · rw [beq_eq_false_iff_ne.mpr h]
      simp [h, ih]

theorem mem_locks_of_entry? {t : LockTable} {lock : Int64} {owner : Option Nat}
    (h : t.entry? lock = some owner) : lock ∈ t.locks := by
  rw [← isSome_entry?_iff, h]
  rfl

@[simp] theorem locks_insert (t : LockTable) (lock : Int64) (owner : Option Nat) :
    (t.insert lock owner).locks = t.locks ++ [lock] := by
  simp [insert, locks]

@[simp] theorem locks_setOwner (t : LockTable) (lock : Int64) (owner : Option Nat) :
    (t.setOwner lock owner).locks = t.locks := by
  simp only [setOwner, locks, List.map_map]
  apply List.map_congr_left
  intro e _
  by_cases h : e.1 = lock <;> simp [h]

theorem entry?_insert (t : LockTable) (lock other : Int64) (owner : Option Nat)
    (h : t.entry? lock = none) :
    entry? (t.insert lock owner) other = if other = lock then some owner else t.entry? other := by
  unfold entry? at h ⊢
  rw [insert, List.lookup_append]
  by_cases heq : other = lock
  · rw [heq, h, if_pos rfl]
    simp
  · rw [if_neg heq, List.lookup_cons, beq_eq_false_iff_ne.mpr heq]
    simp

theorem entry?_setOwner (t : LockTable) (lock other : Int64) (owner : Option Nat) :
    entry? (t.setOwner lock owner) other =
      if other = lock then (t.entry? other).map fun _ => owner else t.entry? other := by
  unfold entry? setOwner
  induction t.entries with
  | nil => simp
  | cons e rest ih =>
    have hkey : (if e.1 = lock then (lock, owner) else e).1 = e.1 := by
      split
      next h => exact h.symm
      next => rfl
    rw [List.map_cons, List.lookup_cons, List.lookup_cons, hkey, ih]
    by_cases hother : other = e.1
    · rw [hother, beq_self_eq_true]
      by_cases hlock : e.1 = lock <;> simp [hlock]
    · rw [beq_eq_false_iff_ne.mpr hother]

theorem owner?_insert (t : LockTable) (lock other : Int64) (owner : Option Nat)
    (h : t.entry? lock = none) :
    (t.insert lock owner).owner? other = if other = lock then owner else t.owner? other := by
  rw [owner?, entry?_insert t lock other owner h]
  split <;> rfl

theorem owner?_setOwner (t : LockTable) (lock other : Int64) (owner : Option Nat)
    (h : (t.entry? lock).isSome = true) :
    (t.setOwner lock owner).owner? other = if other = lock then owner else t.owner? other := by
  rw [owner?, entry?_setOwner]
  split
  next heq =>
    obtain ⟨o, ho⟩ := Option.isSome_iff_exists.mp h
    rw [heq, ho]
    rfl
  next => rfl

theorem isSome_entry?_of_owner? {t : LockTable} {lock : Int64} {thread : Nat}
    (h : t.owner? lock = some thread) : (t.entry? lock).isSome = true := by
  unfold owner? at h
  cases hentry : t.entry? lock with
  | none =>
    rw [hentry] at h
    cases h
  | some o => rfl

theorem entry?_of_owner?_eq_none {t : LockTable} {lock : Int64} (hmem : lock ∈ t.locks)
    (h : t.owner? lock = none) : t.entry? lock = some none := by
  obtain ⟨o, ho⟩ := Option.isSome_iff_exists.mp ((isSome_entry?_iff t lock).mpr hmem)
  rw [owner?, ho] at h
  rw [ho, show o = none from h]

end PrefixVM.LockTable
