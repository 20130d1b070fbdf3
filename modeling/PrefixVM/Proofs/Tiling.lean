import PrefixVM.Listing
import PrefixVM.Proofs.Decoding
import PrefixVM.Proofs.Grammar

/-!
Listings and the bits they come from. The entries of a listing tile the stream: each starts where the one
before it ends, and the bits of all of them together are the bits of the stream up to the padding. A listing
without unassigned codewords is determined by this, so that the statement holds in both directions.
-/
namespace PrefixVM

namespace Entry

def bits (e : Entry) : Bits :=
  Bits.ofInstruction e.opcode e.operands

/-- An entry that a decoder can have read and whose operation is assigned. -/
structure Sound (e : Entry) : Prop where
  opcode : e.opcode ∈ Opcode.encoded
  known : e.opcode.isUnknown = false
  fits : e.operands.Fits e.opcode

end Entry

namespace Listing

/-- Each entry stands where the one before it ends, the first at `start`. -/
def Tiles : (start : Nat) → List Entry → Prop
  | _, [] => True
  | start, e :: rest => e.offset.toNat = start ∧ Tiles (start + e.bits.length) rest

def span (entries : List Entry) : Nat :=
  (entries.flatMap Entry.bits).length

@[simp] theorem span_nil : span [] = 0 := rfl

@[simp] theorem span_cons (e : Entry) (rest : List Entry) :
    span (e :: rest) = e.bits.length + span rest := by
  rw [span, List.flatMap_cons, List.length_append, span]

/-- One round of decoding whose fetch answers an operation. -/
theorem decodeFrom_of_fetch {d d' : Decoder} {offset : UInt32} {op : Opcode}
    (haddr : d.address = .ok offset) (hfetch : d.fetch = (.ok op, d')) (fuel : Nat) :
    decodeFrom (fuel + 1) d =
      if op = .padding then .ok []
      else if op.isUnknown = true then .ok [⟨offset, op, d'.record⟩]
      else (decodeFrom fuel d').map (⟨offset, op, d'.record⟩ :: ·) := by
  rw [decodeFrom, haddr, hfetch]
  rfl

theorem decodeFrom_succ_eq_ok_iff (fuel : Nat) (d : Decoder) (entries : List Entry) :
    decodeFrom (fuel + 1) d = .ok entries ↔
      d.cursor < UInt32.size ∧
        ((d.code.isPadding d.cursor = true ∧ entries = []) ∨
          ∃ op ∈ Opcode.encoded, ∃ o : Operands, o.Fits op ∧ Bits.ofInstruction op o <+: d.rest ∧
            ((op.isUnknown = true ∧ entries = [⟨UInt32.ofNat d.cursor, op, o⟩]) ∨
              (op.isUnknown = false ∧ ∃ more,
                decodeFrom fuel ((d.skip (Bits.ofInstruction op o).length).withRecord o) = .ok more ∧
                  entries = ⟨UInt32.ofNat d.cursor, op, o⟩ :: more))) := by
  by_cases hcursor : d.cursor < UInt32.size
  · have haddr : d.address = .ok (UInt32.ofNat d.cursor) := by rw [Decoder.address, if_pos hcursor]
    simp only [hcursor, true_and]
    constructor
    · intro h
      -- when the fetch fails, there is no listing
      obtain ⟨op, hop⟩ : ∃ op, d.fetch.1 = .ok op := by
        rw [decodeFrom] at h
        obtain ⟨_, -, h⟩ := (Except.bind_eq_ok_iff _ _ _).mp h
        obtain ⟨op, hop, -⟩ := (Except.bind_eq_ok_iff _ _ _).mp h
        exact ⟨op, hop⟩
      have hfetch : d.fetch = (.ok op, d.fetch.2) := by rw [← hop]
      rw [decodeFrom_of_fetch haddr hfetch] at h
      rw [Decoder.fetch_eq_iff, Reading.instruction_run_eq_ok] at hfetch
      rcases hfetch with ⟨hpad, rfl, -⟩ | ⟨-, hmem, o, hfits, hpre, hd⟩
      · rw [if_pos rfl] at h
        exact .inl ⟨hpad, (Except.ok.inj h).symm⟩
      · rw [if_neg (Opcode.ne_padding_of_mem_encoded hmem), hd] at h
        refine .inr ⟨op, hmem, o, hfits, hpre, ?_⟩
        split at h
        next hunknown => exact .inl ⟨hunknown, (Except.ok.inj h).symm⟩
        next hknown =>
          obtain ⟨more, hmore, rfl⟩ := (Except.map_eq_ok_iff _ _ _).mp h
          exact .inr ⟨Bool.eq_false_iff.mpr hknown, more, hmore, rfl⟩
    · rintro (⟨hpad, rfl⟩ | ⟨op, hmem, o, hfits, hpre, h⟩)
      · rw [decodeFrom_of_fetch haddr (Decoder.fetch_of_isPadding d hpad), if_pos rfl]
      · rw [decodeFrom_of_fetch haddr (Decoder.fetch_of_prefix d op o hmem hfits hpre),
          if_neg (Opcode.ne_padding_of_mem_encoded hmem)]
        rcases h with ⟨hunknown, rfl⟩ | ⟨hknown, more, hmore, rfl⟩
        · exact if_pos hunknown
        · rw [if_neg (Bool.eq_false_iff.mp hknown), hmore]
          rfl
  · simp [decodeFrom, Decoder.address, hcursor, bind, Except.bind]

/-- A listing without unassigned codewords: its entries tile the stream from the cursor on, their bits
stand there, and what follows is padding. -/
theorem decodeFrom_eq_ok_iff (fuel : Nat) (d : Decoder) (entries : List Entry)
    (hfuel : d.rest.length < fuel) (hknown : ∀ e ∈ entries, e.opcode.isUnknown = false) :
    decodeFrom fuel d = .ok entries ↔
      (∀ e ∈ entries, e.Sound) ∧ Tiles d.cursor entries ∧ entries.flatMap Entry.bits <+: d.rest ∧
        d.cursor + span entries < UInt32.size ∧
        d.code.isPadding (d.cursor + span entries) = true := by
  induction fuel generalizing d entries with
  | zero => omega
  | succ fuel ih =>
    -- behind an entry the rest is shorter, so that the fuel still suffices
    have hnext (op : Opcode) (o : Operands) (hmem : op ∈ Opcode.encoded)
        (hpre : Bits.ofInstruction op o <+: d.rest) :
        ((d.skip (Bits.ofInstruction op o).length).withRecord o).rest.length < fuel := by
      have hpos := Bits.length_ofInstruction_pos op o hmem
      have hle := hpre.length_le
      rw [Decoder.withRecord_rest, Decoder.rest_skip, List.length_drop]
      omega
    rw [decodeFrom_succ_eq_ok_iff]
    constructor
    · rintro ⟨hcursor, ⟨hpad, rfl⟩ | ⟨op, hmem, o, hfits, hpre, h⟩⟩
      · exact ⟨by simp, trivial, List.nil_prefix, hcursor, hpad⟩
      · rcases h with ⟨hunknown, rfl⟩ | ⟨hop, more, hmore, rfl⟩
        · have hfalse := hknown ⟨UInt32.ofNat d.cursor, op, o⟩ (List.mem_singleton.mpr rfl)
          exact absurd (hunknown.symm.trans hfalse) (by decide)
        · rw [ih _ _ (hnext op o hmem hpre) fun e he => hknown e (List.mem_cons_of_mem _ he)] at hmore
          obtain ⟨hsound, htiles, hrest, hend, hpad⟩ := hmore
          refine ⟨?_, ⟨UInt32.toNat_ofNat_of_lt' hcursor, htiles⟩, ?_, ?_, ?_⟩
          · exact List.forall_mem_cons.mpr ⟨⟨hmem, hop, hfits⟩, hsound⟩
          · rw [Decoder.withRecord_rest, Decoder.rest_skip] at hrest
            rw [List.flatMap_cons, Bits.append_prefix_iff]
            exact ⟨hpre, hrest⟩
          · rw [span_cons, ← Nat.add_assoc]
            exact hend
          · rw [span_cons, ← Nat.add_assoc]
            exact hpad
    · rintro ⟨hsound, htiles, hpre, hend, hpad⟩
      cases entries with
      | nil => exact ⟨hend, .inl ⟨hpad, rfl⟩⟩
      | cons e rest =>
        obtain ⟨he, hrest⟩ := List.forall_mem_cons.mp hsound
        rw [List.flatMap_cons, Bits.append_prefix_iff] at hpre
        rw [span_cons, ← Nat.add_assoc] at hend hpad
        have hoffset : UInt32.ofNat d.cursor = e.offset := by
          rw [← htiles.1, UInt32.ofNat_toNat]
        refine ⟨by omega, .inr ⟨e.opcode, he.opcode, e.operands, he.fits, hpre.1, .inr
          ⟨he.known, rest, ?_, by rw [hoffset]⟩⟩⟩
        rw [ih _ _ (hnext _ _ he.opcode hpre.1) fun e' he' => (hrest e' he').known]
        rw [Decoder.withRecord_rest, Decoder.rest_skip]
        exact ⟨hrest, htiles.2, hpre.2, hend, hpad⟩

theorem decode_eq_ok_iff (code : Code) (entries : List Entry)
    (hknown : ∀ e ∈ entries, e.opcode.isUnknown = false) :
    decode code = .ok entries ↔
      (∀ e ∈ entries, e.Sound) ∧ Tiles 0 entries ∧ entries.flatMap Entry.bits <+: code.bits ∧
        span entries < UInt32.size ∧ code.isPadding (span entries) = true := by
  have hrest : (Decoder.start code).rest = code.bits := rfl
  have hlen : (Decoder.start code).rest.length < code.length + 1 := by
    rw [hrest, Code.length_bits]
    exact Nat.lt_succ_self _
  rw [decode, decodeFrom_eq_ok_iff _ _ _ hlen hknown, hrest]
  change (_ ∧ Tiles 0 entries ∧ _ ∧ 0 + span entries < _ ∧
    code.isPadding (0 + span entries) = true) ↔ _
  rw [Nat.zero_add]

end Listing

end PrefixVM
