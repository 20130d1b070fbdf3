import Mathlib
import PrefixVM.Proofs.Offsets

/-!
The two passes over a list of items. While the items are written one after the other, the writer is at every
item as long as the instructions in front of it are together, whatever their operations, targets and operands
may be. So the place that the first pass notes for a label is the one at which the second pass meets it, and
the address written for a reference is the place of the last definition of its label, be that in front of the
reference or behind it.
-/
namespace PrefixVM

/-- A loop that succeeds goes through a state at every position of its list. -/
theorem Except.exists_states_of_foldlM {ε σ α : Type} {f : σ → α → Except ε σ} {xs : List α} {s s' : σ}
    (h : xs.foldlM f s = .ok s') :
    ∃ state : Nat → σ, state 0 = s ∧
      (∀ k x, xs[k]? = some x → f (state k) x = .ok (state (k + 1))) ∧ state xs.length = s' := by
  induction xs generalizing s with
  | nil =>
    rw [List.foldlM_nil, Except.pure_eq_ok_iff] at h
    exact ⟨fun _ => s, rfl, by simp, h⟩
  | cons x xs ih =>
    rw [List.foldlM_cons, Except.bind_eq_ok_iff] at h
    obtain ⟨s₁, hhead, htail⟩ := h
    obtain ⟨state, hstart, hstep, hfinish⟩ := ih htail
    -- the states of the tail, one position later
    refine ⟨fun k => k.casesOn s state, rfl, ?_, hfinish⟩
    intro k y hy
    cases k with
    | zero =>
      obtain rfl := Option.some.inj hy
      exact hhead.trans (congrArg Except.ok hstart.symm)
    | succ k => exact hstep k y hy

namespace Asm

/-- The writers that encoding goes through: at position `k` of the items it holds `w k`. -/
structure WritingPass (items : List Item) (code : Bytes) (w : Nat → Writer) : Prop where
  start : w 0 = {}
  step : ∀ k item, items[k]? = some item →
    writeItem (Labels.ofItems 0 items) (w k) item = .ok (w (k + 1))
  finish : (w items.length).toBytes = code

/-- The last definition of a name among the items is the one at position `j`. -/
structure LastDefinition (items : List Item) (name : String) (j : Nat) : Prop where
  defined : ∃ line, items[j]? = some (.label line name)
  last : ∀ k line, items[k]? = some (.label line name) → k ≤ j

theorem LastDefinition.unique {items : List Item} {name : String} {j k : Nat}
    (hj : LastDefinition items name j) (hk : LastDefinition items name k) : j = k := by
  obtain ⟨line, hdefined⟩ := hj.defined
  obtain ⟨line', hdefined'⟩ := hk.defined
  exact Nat.le_antisymm (hk.last j line hdefined) (hj.last k line' hdefined')

/-- The number in the address field of an instruction that stands at bit `position`. -/
def addressField (bits : Bits) (position : Nat) (op : Opcode) : Nat :=
  Bits.value ((bits.drop (position + op.codeword.length)).take Bits.addressWidth)

def Item.length : Item → Nat
  | .label _ _ => 0
  | .instruction i => i.length

/-- One round of the first pass: behind an item the position is higher by its length. -/
theorem totalLength_take_succ {items : List Item} {k : Nat} {item : Item} (h : items[k]? = some item) :
    totalLength (instructions (items.take (k + 1))) =
      totalLength (instructions (items.take k)) + item.length := by
  rw [List.take_add_one, h, Option.toList_some, instructions_append, totalLength_append]
  cases item with
  | label line name => rfl
  | instruction i => rfl

/-- One round of the second pass: as many bits are appended as the item is long. -/
theorem writeItem_eq_ok {labels : Labels} {w w' : Writer} {item : Item}
    (h : writeItem labels w item = .ok w') : ∃ bits : Bits, bits.length = item.length ∧ w' = w.append bits := by
  cases item with
  | label line name =>
    obtain rfl := Except.ok.inj h
    exact ⟨[], rfl, rfl⟩
  | instruction i =>
    obtain ⟨address, -, h⟩ := (Except.bind_eq_ok_iff _ _ _).mp h
    exact ⟨_, length_ofInstruction i address, ((Except.pure_eq_ok_iff _ _).mp h).symm⟩

theorem exists_writingPass {items : List Item} {code : Bytes} (h : encode items = .ok code) :
    ∃ w, WritingPass items code w := by
  obtain ⟨last, hloop, hcode⟩ := (Except.bind_eq_ok_iff _ _ _).mp h
  obtain ⟨w, hstart, hstep, hfinish⟩ := Except.exists_states_of_foldlM hloop
  exact ⟨w, hstart, hstep, by rw [hfinish]; exact (Except.pure_eq_ok_iff _ _).mp hcode⟩

namespace WritingPass

variable {items : List Item} {code : Bytes} {w : Nat → Writer}

/-- Both passes stand at the same place when they reach an item. -/
theorem length_eq (hw : WritingPass items code w) {k : Nat} (hk : k ≤ items.length) :
    (w k).length = totalLength (instructions (items.take k)) := by
  induction k with
  | zero => rw [hw.start]; rfl
  | succ k ih =>
    have hitem : items[k]? = some items[k] := List.getElem?_eq_getElem hk
    obtain ⟨bits, hlength, hnext⟩ := writeItem_eq_ok (hw.step k _ hitem)
    calc (w (k + 1)).length
        = (w k).length + bits.length := by rw [hnext, Writer.length_append]
      _ = totalLength (instructions (items.take k)) + items[k].length := by
          rw [ih (Nat.le_of_lt hk), hlength]
      _ = totalLength (instructions (items.take (k + 1))) := (totalLength_take_succ hitem).symm

/-- What is written stays. -/
theorem bits_prefix (hw : WritingPass items code w) {k l : Nat} (hkl : k ≤ l) (hl : l ≤ items.length) :
    (w k).bits.toList <+: (w l).bits.toList := by
  induction l, hkl using Nat.le_induction with
  | base => exact List.prefix_refl _
  | succ l hkl ih =>
    obtain ⟨bits, -, hnext⟩ := writeItem_eq_ok (hw.step l _ (List.getElem?_eq_getElem hl))
    apply (ih (Nat.le_of_lt hl)).trans
    rw [hnext, Writer.toList_append]
    exact List.prefix_append _ _

/-- An instruction that has an address carries, behind its codeword, the one that was found for it. -/
theorem addressField_eq (hw : WritingPass items code w) {k : Nat} {i : Instruction}
    (hk : items[k]? = some (.instruction i)) (hop : i.opcode.hasAddress = true) :
    ∃ address, i.resolve (Labels.ofItems 0 items) = .ok address ∧
      addressField (w items.length).bits.toList (w k).length i.opcode = address.toNat := by
  obtain ⟨address, hresolve, hstep⟩ := (Except.bind_eq_ok_iff _ _ _).mp (hw.step k _ hk)
  have hlt : k < items.length := (List.getElem?_eq_some_iff.mp hk).1
  obtain ⟨rest, hrest⟩ := hw.bits_prefix (Nat.succ_le_of_lt hlt) (Nat.le_refl _)
  refine ⟨address, hresolve, ?_⟩
  -- in front of the field stand the earlier items and the codeword, behind it the rest of the instruction
  have hbits : (w items.length).bits.toList =
      ((w k).bits.toList ++ i.opcode.codeword) ++ (Bits.ofAddress address ++
        (Bits.constantPart i.opcode (i.operands address).constant ++ i.args.flatMap Bits.ofOperand ++
          rest)) := by
    rw [← hrest, ← (Except.pure_eq_ok_iff _ _).mp hstep, Writer.toList_append, Bits.ofInstruction_eq,
      Bits.body, Bits.addressPart, if_pos hop]
    simp only [List.append_assoc]
    rfl
  have hfront : ((w k).bits.toList ++ i.opcode.codeword).length =
      (w k).length + i.opcode.codeword.length := List.length_append
  rw [addressField, hbits, List.drop_left' hfront, Bits.ofAddress, List.take_left' (Bits.length_field _ _),
    Bits.value_field]
  exact Nat.mod_eq_of_lt address.toNat_lt

end WritingPass

/-- The place noted for a name is that of its last definition. -/
theorem Labels.lastDefinition_of_find? {items : List Item} {name : String} {address : UInt32}
    (h : find? (ofItems 0 items) name = some address) :
    ∃ j, LastDefinition items name j ∧
      address = UInt32.ofNat (totalLength (instructions (items.take j))) := by
  obtain ⟨before, line, after, rfl, hlast, rfl⟩ := find?_ofItems_eq_some 0 items name address h
  refine ⟨before.length, ⟨⟨line, by simp⟩, ?_⟩, by rw [List.take_left, Nat.zero_add]⟩
  intro k line' hk
  by_contra hlt
  apply hlast
  rw [List.getElem?_append_right (by omega), List.getElem?_cons, if_neg (by omega)] at hk
  exact List.mem_filterMap.mpr ⟨_, List.mem_of_getElem? hk, rfl⟩

/-- The two passes over the items agree. When encoding succeeds, the writer is at every item as long as the
instructions in front of it are together. So, if all of them fit into positions of 32 bits, every address
written for a label is the length that the writer has at the last definition of that label, whether it has
been reached by then or not. -/
theorem passes_agree (items : List Item) (code : Bytes) (h : encode items = .ok code) :
    ∃ w, WritingPass items code w ∧
      (∀ k ≤ items.length, (w k).length = totalLength (instructions (items.take k))) ∧
      (totalLength (instructions items) ≤ 2 ^ 32 - 1 →
        ∀ k i name, items[k]? = some (.instruction i) → i.opcode.hasAddress = true →
          i.target = some (.label name) →
          ∃ j, LastDefinition items name j ∧
            addressField (w items.length).bits.toList (w k).length i.opcode = (w j).length) := by
  obtain ⟨w, hw⟩ := exists_writingPass h
  refine ⟨w, hw, fun k hk => hw.length_eq hk, ?_⟩
  intro hsize k i name hk hop htarget
  obtain ⟨address, hresolve, hfield⟩ := hw.addressField_eq hk hop
  obtain ⟨j, hj, rfl⟩ := Labels.lastDefinition_of_find? (Instruction.find?_of_resolve hop htarget hresolve)
  obtain ⟨line, hdefined⟩ := hj.defined
  have hlt : j < items.length := (List.getElem?_eq_some_iff.mp hdefined).1
  refine ⟨j, hj, ?_⟩
  rw [hfield, hw.length_eq (Nat.le_of_lt hlt)]
  -- the place of the label is no higher than the end of the code
  have hsplit := congrArg (fun is => totalLength (instructions is)) (List.take_append_drop j items)
  simp only [instructions_append, totalLength_append] at hsplit
  exact UInt32.toNat_ofNat_of_lt' (show _ < 4294967296 by omega)

/-- A forward reference, a name that is defined twice, and a call with an operand that no call has. -/
def twiceDefined : List Item :=
  [.instruction ⟨1, .jump, some (.label "end"), 0, []⟩, .label 2 "top", .instruction ⟨3, .ret, none, 0, []⟩,
    .label 4 "top", .instruction ⟨5, .call, some (.label "top"), 0, [.register 200]⟩, .label 6 "end"]

theorem passes_agree_twiceDefined :
    encode twiceDefined = .ok [106, 80, 0, 0, 6, 228, 160, 0, 0, 0, 64] ∧
      totalLength (instructions twiceDefined) = 82 ∧
      ∃ w, WritingPass twiceDefined [106, 80, 0, 0, 6, 228, 160, 0, 0, 0, 64] w ∧
        (w 3).length = 41 ∧ (w 5).length = 82 ∧
        addressField (w 6).bits.toList 0 .jump = 82 ∧ addressField (w 6).bits.toList 41 .call = 41 := by
  have hcode : encode twiceDefined = .ok [106, 80, 0, 0, 6, 228, 160, 0, 0, 0, 64] := by cbv
  have htop : LastDefinition twiceDefined "top" 3 := ⟨⟨4, rfl⟩, by
    intro k line hk
    by_contra hlt
    have hsix : k < 6 := (List.getElem?_eq_some_iff.mp hk).1
    obtain rfl | rfl : k = 4 ∨ k = 5 := by omega
    all_goals simp [twiceDefined] at hk⟩
  have hend : LastDefinition twiceDefined "end" 5 := ⟨⟨6, rfl⟩, by
    intro k line hk
    have hsix : k < 6 := (List.getElem?_eq_some_iff.mp hk).1
    omega⟩
  obtain ⟨w, hw, hlength, haddress⟩ := passes_agree _ _ hcode
  have hthree : (w 3).length = 41 := hlength 3 (by decide)
  have hfive : (w 5).length = 82 := hlength 5 (by decide)
  refine ⟨hcode, rfl, w, hw, hthree, hfive, ?_, ?_⟩
  · obtain ⟨j, hj, hfield⟩ := haddress (by decide) 0 _ _ rfl rfl rfl
    obtain rfl := hj.unique hend
    rw [hlength 0 (Nat.zero_le _)] at hfield
    exact hfield.trans hfive
  · obtain ⟨j, hj, hfield⟩ := haddress (by decide) 4 _ _ rfl rfl rfl
    obtain rfl := hj.unique htop
    rw [hlength 4 (by decide)] at hfield
    exact hfield.trans hthree

end Asm

end PrefixVM
