import Mathlib
import PrefixVM.Proofs.Offsets
import PrefixVM.Proofs.Rendering
import PrefixVM.Proofs.Tiling

/-!
Disassembling and assembling again. A listing without unassigned codewords is a source: assembling its lines
gives code of the same size with the same instructions, and zeros behind them. The padding of the original
may hold one set bit, right behind the last instruction, and this is the only bit that can be lost.
-/
namespace PrefixVM

namespace Asm

def itemsFrom : (number : Nat) → List Entry → List Item
  | _, [] => []
  | number, e :: rest => .instruction (.written number e.opcode e.operands) :: itemsFrom (number + 1) rest

def entryTokens (e : Entry) : List Token :=
  writtenTokens e.opcode e.operands

theorem foldlM_linesFrom (number : Nat) (entries : List Entry) (hsound : ∀ e ∈ entries, e.Sound)
    (p : Progress) (hp : p.current = .code) :
    (linesFrom number (entries.map entryTokens)).foldlM Progress.line p =
      .ok (p.addCode (itemsFrom number entries)) := by
  induction entries generalizing number p with
  | nil =>
    rw [itemsFrom, Progress.addCode, List.append_nil]
    rfl
  | cons e rest ih =>
    obtain ⟨he, hrest⟩ := List.forall_mem_cons.mp hsound
    have hline := p.line_writtenTokens he.opcode he.known he.fits hp number
    have hrun := ih (number + 1) hrest
      (p.addCode [.instruction (.written number e.opcode e.operands)]) hp
    rw [Progress.addCode, Progress.addCode, List.append_assoc] at hrun
    rw [List.map_cons, linesFrom, List.foldlM_cons, entryTokens, hline]
    exact hrun

theorem parse_listing (entries : List Entry) (hsound : ∀ e ∈ entries, e.Sound) :
    Source.parse (String.intercalate "\n" (entries.map Entry.text)) =
      .ok { code := itemsFrom 1 entries } := by
  have hspells : List.Forall₂ Spells ((entries.map Entry.text).map String.toList)
      (entries.map entryTokens) := by
    rw [List.map_map, List.forall₂_map_left_iff, List.forall₂_map_right_iff, List.forall₂_same]
    exact fun e he => spells_instructionText (hsound e he).opcode (hsound e he).known e.operands
  have hlines : ∀ tokens ∈ entries.map entryTokens, tokens ≠ [] := by
    intro tokens htokens
    obtain ⟨e, -, rfl⟩ := List.mem_map.mp htokens
    exact List.cons_ne_nil _ _
  have hscan : tokenize (String.intercalate "\n" (entries.map Entry.text)) =
      .ok (linesFrom 1 (entries.map entryTokens)) := by
    rw [tokenize, String.toList_intercalate]
    exact scan_intercalate 1 hspells hlines
  rw [Source.parse, hscan]
  change (do
    let p ← (linesFrom 1 (entries.map entryTokens)).foldlM Progress.line {}
    return p.source : Except Error Source) = _
  rw [foldlM_linesFrom 1 entries hsound _ rfl]
  rfl

theorem resolve_written (number : Nat) (e : Entry) (he : e.Sound) (labels : Labels) :
    (Instruction.written number e.opcode e.operands).resolve labels = .ok e.operands.address := by
  unfold Instruction.resolve
  cases hop : e.opcode.hasAddress with
  | true => simp only [Instruction.written, hop, if_true]
  | false => simp only [Instruction.written, hop, he.fits.address hop]

theorem resolved_written (number : Nat) (e : Entry) (he : e.Sound) (labels : Labels) :
    (Instruction.written number e.opcode e.operands).resolved labels = e.operands := by
  have hconstant : (if e.opcode.hasConstant then e.operands.constant else 0) = e.operands.constant := by
    cases hop : e.opcode.hasConstant with
    | true => rfl
    | false => exact (he.fits.constant hop).symm
  rw [Instruction.resolved, resolve_written number e he labels]
  exact congrArg (fun c => (⟨e.operands.address, c, e.operands.args⟩ : Operands)) hconstant

theorem codeBits_itemsFrom (labels : Labels) (number : Nat) (entries : List Entry)
    (hsound : ∀ e ∈ entries, e.Sound) :
    codeBits labels (instructions (itemsFrom number entries)) = entries.flatMap Entry.bits := by
  induction entries generalizing number with
  | nil => rfl
  | cons e rest ih =>
    obtain ⟨he, hrest⟩ := List.forall_mem_cons.mp hsound
    rw [itemsFrom, instructions_instruction, codeBits, List.flatMap_cons,
      resolved_written number e he labels, List.flatMap_cons]
    exact congrArg (e.bits ++ ·) (ih (number + 1) hrest)

theorem resolve_itemsFrom (labels : Labels) (number : Nat) (entries : List Entry)
    (hsound : ∀ e ∈ entries, e.Sound) :
    ∀ i ∈ instructions (itemsFrom number entries), ∃ address, i.resolve labels = .ok address := by
  induction entries generalizing number with
  | nil => exact List.forall_mem_nil _
  | cons e rest ih =>
    obtain ⟨he, hrest⟩ := List.forall_mem_cons.mp hsound
    rw [itemsFrom, instructions_instruction]
    exact List.forall_mem_cons.mpr ⟨⟨_, resolve_written number e he labels⟩, ih (number + 1) hrest⟩

/-- Assembling the lines of a listing packs the bits of its instructions. -/
theorem assemble_listing (entries : List Entry) (hsound : ∀ e ∈ entries, e.Sound) :
    assemble (String.intercalate "\n" (entries.map Entry.text)) =
      .ok { image := Image.make (Bits.pack (entries.flatMap Entry.bits)) [] 0 } := by
  have hencode : encode (itemsFrom 1 entries) = .ok (Bits.pack (entries.flatMap Entry.bits)) := by
    rw [encode_eq_ok_iff, codeBits_itemsFrom _ _ _ hsound]
    exact ⟨resolve_itemsFrom _ _ _ hsound, rfl⟩
  rw [assemble, parse_listing entries hsound]
  change (do
    let code ← encode (itemsFrom 1 entries)
    return { image := Image.make code [] 0 } : Except Error Assembly) = _
  rw [hencode]
  rfl

end Asm

namespace Listing

/-- The place where the last entry of a listing ends. -/
def finish (entries : List Entry) : Nat :=
  match entries.getLast? with
  | none => 0
  | some e => e.offset.toNat + e.bits.length

theorem finish_eq_span {entries : List Entry} (h : Tiles 0 entries) : finish entries = span entries := by
  -- a listing that starts anywhere, so that the entries behind the first one are such a listing
  have hlast (start : Nat) (e : Entry) (rest : List Entry) (h : Tiles start (e :: rest)) :
      finish (e :: rest) = start + span (e :: rest) := by
    induction rest generalizing start e with
    | nil =>
      rw [span_cons, span_nil, Nat.add_zero, ← h.1]
      rfl
    | cons e' rest ih =>
      rw [span_cons, ← Nat.add_assoc, ← ih _ e' h.2, finish, List.getLast?_cons_cons]
      rfl
  cases entries with
  | nil => rfl
  | cons e rest => rw [hlast 0 e rest h, Nat.zero_add]

end Listing

namespace Code

/-- Padding is as long as it takes to fill up the last byte. -/
theorem slack_of_isPadding {bytes : Bytes} {position : Nat} (hle : position ≤ (ofBytes bytes).length)
    (h : (ofBytes bytes).isPadding position = true) :
    bytes.length * 8 = position + Bits.slack position := by
  rw [isPadding, Bool.and_eq_true_iff, decide_eq_true_iff, decide_eq_true_iff] at h
  have hlen : (ofBytes bytes).length = bytes.length * 8 := Stream.length_ofCode bytes
  have hwindow : paddingWindow = 8 := rfl
  rw [Bits.slack]
  omega

theorem bit?_of_isPadding {c : Code} {position k : Nat} (h : c.isPadding position = true)
    (hk : position < k) : c.bit? k ≠ some true := by
  intro hset
  rw [isPadding, Bool.and_eq_true_iff, decide_eq_true_iff] at h
  rw [bit?_eq_getElem?] at hset
  have := le_paddingStart c k hset
  omega

/-- The last set bit is the first bit of the padding exactly if this bit is set. -/
theorem lastSet?_of_isPadding {c : Code} {position : Nat} (h : c.isPadding position = true) :
    c.stream.lastSet? = some position ↔ c.bit? position = some true := by
  rw [Stream.lastSet?_eq_some_iff]
  exact ⟨fun hlast => hlast.1, fun hset => ⟨hset, fun k hk => bit?_of_isPadding h hk⟩⟩

theorem eq_of_bit?_eq {a b : Bytes} (h : ∀ k, (ofBytes a).bit? k = (ofBytes b).bit? k) : a = b := by
  have hbits : (Stream.ofCode a).toBits = (Stream.ofCode b).toBits := by
    apply List.ext_getElem?
    intro k
    rw [Stream.getElem?_toBits, Stream.getElem?_toBits]
    exact h k
  rw [← Stream.pack_toBits_ofCode a, hbits, Stream.pack_toBits_ofCode]

/-- Packing the bits in front of the padding clears the padding. -/
theorem bit?_pack {bytes : Bytes} {bits : Bits} (hpre : bits <+: (ofBytes bytes).bits)
    (hlen : bytes.length * 8 = bits.length + Bits.slack bits.length) (k : Nat) :
    (ofBytes (Bits.pack bits)).bit? k =
      if k < bits.length then (ofBytes bytes).bit? k
      else ((ofBytes bytes).bit? k).map fun _ => false := by
  have hvalue : (ofBytes (Bits.pack bits)).bit? k = _ := Stream.bit?_ofCode_pack bits k
  -- both codes are as many bytes long
  have hsame : (Stream.ofCode (Bits.pack bits)).length = (ofBytes bytes).stream.length := by
    have hbytes : (ofBytes bytes).stream.length = bytes.length * 8 := Stream.length_ofCode bytes
    rw [Stream.length_ofCode, Stream.length_pack, hbytes, hlen]
  rw [hvalue]
  by_cases hk : k < bits.length
  · obtain ⟨tail, htail⟩ := hpre
    rw [dif_pos hk, if_pos hk, bit?_eq_getElem?, ← htail, List.getElem?_append_left hk,
      List.getElem?_eq_getElem hk]
  · rw [dif_neg hk, if_neg hk, hsame, bit?, Stream.bit?]
    split <;> rfl

/-- Packing the bits in front of the padding gives the code back unless the padding starts with a set bit,
which is then the last one of the stream. -/
theorem pack_eq_iff {bytes : Bytes} {bits : Bits} (hpre : bits <+: (ofBytes bytes).bits)
    (hpad : (ofBytes bytes).isPadding bits.length = true) :
    Bits.pack bits = bytes ↔ (ofBytes bytes).stream.lastSet? ≠ some bits.length := by
  have hle : bits.length ≤ (ofBytes bytes).length := by
    rw [← length_bits]
    exact hpre.length_le
  have hbit := bit?_pack hpre (slack_of_isPadding hle hpad)
  rw [ne_eq, lastSet?_of_isPadding hpad]
  constructor
  · -- a set bit behind the instructions would be cleared
    intro heq hset
    have hclear := hbit bits.length
    rw [heq, if_neg (Nat.lt_irrefl _), hset] at hclear
    cases hclear
  · intro hclear
    apply eq_of_bit?_eq
    intro k
    rw [hbit k]
    split
    · rfl
    next hk =>
      -- what is cleared was zero before
      have hzero : (ofBytes bytes).bit? k ≠ some true := by
        by_cases heq : k = bits.length
        · rw [heq]
          exact hclear
        · exact bit?_of_isPadding hpad (by omega)
      cases hvalue : (ofBytes bytes).bit? k with
      | none => rfl
      | some b =>
        cases b with
        | false => rfl
        | true => exact absurd hvalue hzero

end Code

/-- Disassembling a code and assembling the lines again gives as many bytes; the bits of the instructions
are kept and the bits behind them are cleared. Nothing changes unless the last set bit of the stream is the
first one behind the instructions. -/
theorem Asm.assemble_decode (image : Image) (entries : List Entry) (hdecode : image.decode = .ok entries)
    (hknown : ∀ e ∈ entries, e.opcode.isUnknown = false) :
    ∃ a, assemble (String.intercalate "\n" (entries.map Entry.text)) = .ok a ∧
      a.image.code.length = image.code.length ∧
      (∀ k, a.image.machineCode.bit? k =
        if k < Listing.finish entries then image.machineCode.bit? k
        else (image.machineCode.bit? k).map fun _ => false) ∧
      (a.image.code = image.code ↔ image.stream.lastSet? ≠ some (Listing.finish entries)) := by
  obtain ⟨hsound, htiles, hpre, -, hpad⟩ := (Listing.decode_eq_ok_iff _ _ hknown).mp hdecode
  have hspan : (entries.flatMap Entry.bits).length = Listing.span entries := rfl
  have hle : Listing.span entries ≤ image.machineCode.length := by
    rw [← hspan, ← Code.length_bits]
    exact hpre.length_le
  have hlen := Code.slack_of_isPadding hle hpad
  have hbit := Code.bit?_pack hpre (hspan ▸ hlen)
  refine ⟨_, assemble_listing entries hsound, ?_, ?_, ?_⟩
  · have hpack := Stream.length_pack (entries.flatMap Entry.bits)
    change (Bits.pack (entries.flatMap Entry.bits)).length = image.code.length
    rw [hspan] at hpack
    omega
  · rw [Listing.finish_eq_span htiles]
    exact hbit
  · rw [Listing.finish_eq_span htiles]
    exact Code.pack_eq_iff hpre hpad

/-- A return with a set bit behind it: the bit is padding, and it is lost. -/
theorem Asm.assemble_decode_lost_bit :
    (Image.make [216] [] 0).decode = .ok [⟨0, .ret, {}⟩] ∧
      ∃ a, assemble "ret" = .ok a ∧ a.image.code.length = 1 ∧
        a.image.machineCode.bit? 4 = some false ∧ a.image.code ≠ [216] := by
  have hdecode : (Image.make [216] [] 0).decode = .ok [⟨0, .ret, {}⟩] := by cbv
  obtain ⟨a, hasm, hlen, hbit, hsame⟩ := assemble_decode _ _ hdecode (by decide)
  have hlast : (Image.make [216] [] 0).stream.lastSet? = some 4 := by cbv
  exact ⟨hdecode, a, hasm, hlen, hbit 4, fun heq => hsame.mp heq hlast⟩

end PrefixVM
