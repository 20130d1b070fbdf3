import Mathlib
import PrefixVM.Proofs.Fetching
import PrefixVM.Proofs.Reassembly

/-!
The decoding loop on arbitrary code. Every instruction takes four bits or more, so the loop ends, however the
bits are set. It ends in one of three ways: the code stops inside an instruction, an unassigned codeword is
met, or what is left is padding. In the last two cases the entries tile the stream from its first bit on.
-/
namespace PrefixVM

namespace Bits

theorem four_le_length_ofInstruction {op : Opcode} {o : Operands} (hop : op ∈ Opcode.encoded)
    (hfits : o.Fits op) : 4 ≤ (ofInstruction op o).length := by
  have htable : ∀ op ∈ Opcode.encoded,
      4 ≤ op.codeword.length + (if op.hasAddress then addressWidth else 0) +
        (if op.hasConstant then constantWidth else 0) + 5 * op.operandCount := by
    decide
  exact (htable op hop).trans (length_ofInstruction_ge op o hfits)

end Bits

namespace Decoder

/-- The next fetch starts where this one ends, four bits further on at least. -/
structure Advances (d d' : Decoder) : Prop where
  next : d' = d.fetch.2
  four_le : d.cursor + 4 ≤ d'.cursor

end Decoder

namespace Listing

open Decoder (Within Advances)

/-- The decoding loop, whose rounds nothing bounds: from the decoder `d` on it fetches at the decoders `ds`,
one after the other, and answers `r`. -/
inductive Loop : (d : Decoder) → (ds : List Decoder) → (r : Except DecodeError (List Entry)) → Prop
  | tooFar {d e} (haddr : d.address = .error e) : Loop d [] (.error e)
  | failed {d d' offset e} (haddr : d.address = .ok offset) (hfetch : d.fetch = (.error e, d')) :
    Loop d [d] (.error e)
  | padding {d d' offset} (haddr : d.address = .ok offset) (hfetch : d.fetch = (.ok .padding, d')) :
    Loop d [d] (.ok [])
  | unknown {d d' offset op} (haddr : d.address = .ok offset) (hfetch : d.fetch = (.ok op, d'))
    (hop : op.isUnknown = true) : Loop d [d] (.ok [⟨offset, op, d'.record⟩])
  | next {d d' offset op ds r} (haddr : d.address = .ok offset) (hfetch : d.fetch = (.ok op, d'))
    (hpadding : op ≠ .padding) (hknown : op.isUnknown = false) (rest : Loop d' ds r) :
    Loop d (d :: ds) (r.map (⟨offset, op, d'.record⟩ :: ·))

/-- The entries stand in a code from `start` on, each where the one before it ends. Only the last one may be
unassigned, and if it is not, what follows is padding. -/
structure TilesFrom (code : Code) (start : Nat) (entries : List Entry) : Prop where
  tiles : Tiles start entries
  bits : entries.flatMap Entry.bits <+: code.bits.drop start
  known : ∀ e ∈ entries.dropLast, e.opcode.isUnknown = false
  complete : (∀ e ∈ entries, e.opcode.isUnknown = false) →
    code.isPadding (start + span entries) = true

theorem TilesFrom.cons {code : Code} {start : Nat} {entries : List Entry} {e : Entry}
    (h : TilesFrom code (start + e.bits.length) entries) (hknown : e.opcode.isUnknown = false)
    (hoffset : e.offset.toNat = start) (hpre : e.bits <+: code.bits.drop start) :
    TilesFrom code start (e :: entries) where
  tiles := ⟨hoffset, h.tiles⟩
  bits := by
    rw [List.flatMap_cons, Bits.append_prefix_iff, List.drop_drop]
    exact ⟨hpre, h.bits⟩
  known := by
    intro e' hmem
    cases entries with
    | nil => cases hmem
    | cons e₂ rest =>
      rw [List.dropLast_cons_cons, List.mem_cons] at hmem
      rcases hmem with rfl | hmem
      · exact hknown
      · exact h.known e' hmem
  complete hall := by
    rw [span_cons, ← Nat.add_assoc]
    exact h.complete (List.forall_mem_cons.mp hall).2

section Inside

variable {code : Code} {d : Decoder} {ds : List Decoder} {r : Except DecodeError (List Entry)}

theorem within_of_fetch {result : Except DecodeError Opcode} {d' : Decoder} (hd : d.Within code)
    (hfetch : d.fetch = (result, d')) : d'.Within code := by
  have hnext := hd.fetch
  rwa [hfetch] at hnext

/-- A fetch that answers an instruction has read it: its entry stands at the cursor, and the decoder moves
behind it. -/
theorem entry_of_fetch (hd : d.Within code) (hcode : code.length < UInt32.size) {offset : UInt32}
    {op : Opcode} {d' : Decoder} (haddr : d.address = .ok offset) (hfetch : d.fetch = (.ok op, d'))
    (hpadding : op ≠ .padding) :
    offset.toNat = d.cursor ∧ Bits.ofInstruction op d'.record <+: d.rest ∧
      d'.rest = d.rest.drop (Bits.ofInstruction op d'.record).length ∧
      d'.cursor = d.cursor + (Bits.ofInstruction op d'.record).length ∧
      4 ≤ (Bits.ofInstruction op d'.record).length := by
  rw [hd.address hcode] at haddr
  obtain rfl := Except.ok.inj haddr
  have hoffset : (UInt32.ofNat d.cursor).toNat = d.cursor :=
    UInt32.toNat_ofNat_of_lt' (Nat.lt_of_le_of_lt hd.cursor_le hcode)
  rcases hd.fetch_cases with ⟨-, h⟩ | ⟨op', o, hstart, h⟩ | ⟨o, h⟩
  · -- the answer would be padding
    rw [hfetch] at h
    exact absurd (Except.ok.inj (congrArg Prod.fst h)) hpadding
  · rw [hfetch] at h
    obtain rfl := Except.ok.inj (congrArg Prod.fst h)
    obtain rfl : d' = _ := congrArg Prod.snd h
    exact ⟨hoffset, hstart.code, by simp, rfl, Bits.four_le_length_ofInstruction hstart.opcode hstart.fits⟩
  · rw [hfetch] at h
    cases congrArg Prod.fst h

theorem ne_padding_of_isUnknown {op : Opcode} (hop : op.isUnknown = true) : op ≠ .padding := by
  rintro rfl
  cases hop

/-- A decoder of the loop is followed by the one behind its fetch. -/
theorem Loop.head?_eq (h : Loop d ds r) : ∀ d' ∈ ds.head?, d' = d := by
  intro d' hmem
  cases h with
  | tooFar haddr => cases hmem
  | failed => exact (Option.some.inj hmem).symm
  | padding => exact (Option.some.inj hmem).symm
  | unknown => exact (Option.some.inj hmem).symm
  | next => exact (Option.some.inj hmem).symm

/-- Each round that is not the last one moves the cursor by four bits at least. -/
theorem Loop.isChain (h : Loop d ds r) (hd : d.Within code) (hcode : code.length < UInt32.size) :
    ds.IsChain Advances := by
  induction h with
  | tooFar => exact List.isChain_nil
  | failed => exact List.isChain_singleton _
  | padding => exact List.isChain_singleton _
  | unknown => exact List.isChain_singleton _
  | next haddr hfetch hpadding hknown rest ih =>
    obtain ⟨-, -, -, hcursor, hfour⟩ := entry_of_fetch hd hcode haddr hfetch hpadding
    rw [List.isChain_cons]
    refine ⟨?_, ih (within_of_fetch hd hfetch)⟩
    intro d' hmem
    obtain rfl := rest.head?_eq d' hmem
    exact ⟨by rw [hfetch], by omega⟩

/-- So there are at most as many rounds as the code has room for. -/
theorem Loop.length_le (h : Loop d ds r) (hd : d.Within code) (hcode : code.length < UInt32.size) :
    d.cursor + 4 * ds.length ≤ code.length + 4 := by
  induction h with
  | tooFar haddr => exact Nat.le_add_right_of_le hd.cursor_le
  | failed => exact Nat.add_le_add_right hd.cursor_le 4
  | padding => exact Nat.add_le_add_right hd.cursor_le 4
  | unknown => exact Nat.add_le_add_right hd.cursor_le 4
  | next haddr hfetch hpadding hknown rest ih =>
    obtain ⟨-, -, -, hcursor, hfour⟩ := entry_of_fetch hd hcode haddr hfetch hpadding
    have hrest := ih (within_of_fetch hd hfetch)
    rw [List.length_cons]
    omega

/-- Decoding is the loop, if it is allowed as many rounds as the loop takes. -/
theorem Loop.decodeFrom_eq (h : Loop d ds r) (hd : d.Within code) (hcode : code.length < UInt32.size)
    {fuel : Nat} (hfuel : ds.length ≤ fuel) : decodeFrom fuel d = r := by
  induction h generalizing fuel with
  | tooFar haddr =>
    rw [hd.address hcode] at haddr
    cases haddr
  | failed haddr hfetch =>
    obtain ⟨fuel, rfl⟩ := Nat.exists_eq_succ_of_ne_zero (Nat.ne_of_gt hfuel)
    rw [decodeFrom, haddr, hfetch]
    rfl
  | padding haddr hfetch =>
    obtain ⟨fuel, rfl⟩ := Nat.exists_eq_succ_of_ne_zero (Nat.ne_of_gt hfuel)
    rw [decodeFrom_of_fetch haddr hfetch, if_pos rfl]
  | unknown haddr hfetch hop =>
    obtain ⟨fuel, rfl⟩ := Nat.exists_eq_succ_of_ne_zero (Nat.ne_of_gt hfuel)
    rw [decodeFrom_of_fetch haddr hfetch, if_neg (ne_padding_of_isUnknown hop), if_pos hop]
  | next haddr hfetch hpadding hknown rest ih =>
    rw [List.length_cons] at hfuel
    obtain ⟨fuel, rfl⟩ := Nat.exists_eq_add_of_le' (Nat.le_of_add_left_le hfuel)
    have hrest := ih (within_of_fetch hd hfetch) (Nat.le_of_succ_le_succ hfuel)
    rw [decodeFrom_of_fetch haddr hfetch, if_neg hpadding, if_neg (Bool.eq_false_iff.mp hknown), hrest]

/-- Every answer of the loop is one of these: the code stops inside an instruction, or the entries tile it from
the cursor on. -/
theorem Loop.answer (h : Loop d ds r) (hd : d.Within code) (hcode : code.length < UInt32.size) :
    r = .error (.streamExhausted code.length) ∨
      ∃ entries, r = .ok entries ∧ TilesFrom code d.cursor entries := by
  induction h with
  | tooFar haddr =>
    rw [hd.address hcode] at haddr
    cases haddr
  | failed haddr hfetch =>
    left
    rcases hd.fetch_cases with ⟨-, h⟩ | ⟨op, o, -, h⟩ | ⟨o, h⟩
    · rw [hfetch] at h
      cases congrArg Prod.fst h
    · rw [hfetch] at h
      cases congrArg Prod.fst h
    · rw [hfetch] at h
      exact congrArg Except.error (Except.error.inj (congrArg Prod.fst h))
  | padding haddr hfetch =>
    refine .inr ⟨[], rfl, trivial, List.nil_prefix, by simp, fun _ => ?_⟩
    rw [Decoder.fetch_eq_iff, Reading.instruction_run_eq_ok, hd.code_eq] at hfetch
    rcases hfetch with ⟨hpad, -⟩ | ⟨-, hmem, -⟩
    · exact hpad
    · exact absurd rfl (Opcode.ne_padding_of_mem_encoded hmem)
  | unknown haddr hfetch hop =>
    obtain ⟨hoffset, hpre, -⟩ := entry_of_fetch hd hcode haddr hfetch (ne_padding_of_isUnknown hop)
    rw [Decoder.rest, hd.code_eq] at hpre
    refine .inr ⟨_, rfl, ⟨hoffset, trivial⟩, ?_, by simp, ?_⟩
    · rw [List.flatMap_singleton]
      exact hpre
    · intro hknown
      have hfalse := hknown _ List.mem_cons_self
      rw [hop] at hfalse
      cases hfalse
  | next haddr hfetch hpadding hknown rest ih =>
    obtain ⟨hoffset, hpre, hrest, hcursor, -⟩ := entry_of_fetch hd hcode haddr hfetch hpadding
    have hnext := within_of_fetch hd hfetch
    rcases ih hnext with rfl | ⟨entries, rfl, h⟩
    · exact .inl rfl
    · rw [hcursor] at h
      rw [Decoder.rest, hd.code_eq] at hpre
      exact .inr ⟨_, rfl, TilesFrom.cons h hknown hoffset hpre⟩

/-- The loop ends from everywhere inside a code. -/
theorem exists_loop (hd : d.Within code) (hcode : code.length < UInt32.size) : ∃ ds r, Loop d ds r := by
  -- each round leaves fewer bits
  induction hn : code.length - d.cursor using Nat.strongRecOn generalizing d with
  | _ n ih =>
    have haddr := hd.address hcode
    rcases hd.fetch_cases with ⟨-, hfetch⟩ | ⟨op, o, hstart, hfetch⟩ | ⟨o, hfetch⟩
    · exact ⟨_, _, .padding haddr hfetch⟩
    · have hpadding := Opcode.ne_padding_of_mem_encoded hstart.opcode
      cases hunknown : op.isUnknown with
      | true => exact ⟨_, _, .unknown haddr hfetch hunknown⟩
      | false =>
        obtain ⟨-, -, -, hcursor, hfour⟩ := entry_of_fetch hd hcode haddr hfetch hpadding
        have hnext := within_of_fetch hd hfetch
        have hle := hnext.cursor_le
        obtain ⟨ds, r, hrest⟩ := ih _ (by omega) hnext rfl
        exact ⟨_, _, .next haddr hfetch hpadding hunknown hrest⟩
    · exact ⟨_, _, .failed haddr hfetch⟩

end Inside

end Listing

namespace Image

open Listing (Loop Tiles finish)

/-- Decoding ends on every code that has positions of 32 bits, whatever its bytes are. The loop takes finitely
many rounds, and all but the last one move the cursor by four bits at least. Either the code stops inside an
instruction, and the whole of it has been read; or the entries tile the stream from its first bit on, the last
one alone may be unassigned, and if it is not, then fewer than eight bits are left, of which the first one
alone may be set. -/
theorem decode_terminates (image : Image) (hsize : image.code.length ≤ Header.maxCodeSize.toNat) :
    (∃ ds r, Loop (.start image.machineCode) ds r) ∧
      ∀ ds r, Loop (.start image.machineCode) ds r →
        image.decode = r ∧ ds.length ≤ 2 * image.code.length + 1 ∧ ds.IsChain Decoder.Advances ∧
          (r = .error (.streamExhausted (8 * image.code.length)) ∨
            ∃ entries, r = .ok entries ∧ Tiles 0 entries ∧
              entries.flatMap Entry.bits <+: image.machineCode.bits ∧
              finish entries ≤ 8 * image.code.length ∧
              (∀ e ∈ entries.dropLast, e.opcode.isUnknown = false) ∧
              ((∀ e ∈ entries, e.opcode.isUnknown = false) →
                8 * image.code.length < finish entries + 8 ∧
                  ∀ i, finish entries < i → image.machineCode.bit? i ≠ some true)) := by
  have hlength : image.machineCode.length = 8 * image.code.length := by
    rw [Nat.mul_comm]
    exact Stream.length_ofCode image.code
  have hmax : Header.maxCodeSize.toNat = 536870911 := rfl
  have hcode : image.machineCode.length < UInt32.size := by
    change _ < 4294967296
    omega
  have hstart := Decoder.within_start image.machineCode
  refine ⟨Listing.exists_loop hstart hcode, ?_⟩
  intro ds r hloop
  -- there are fewer rounds than bits, so the bound that decoding has is never reached
  have hrounds : 0 + 4 * ds.length ≤ image.machineCode.length + 4 := hloop.length_le hstart hcode
  have hdecode : image.decode = r := hloop.decodeFrom_eq hstart hcode (by omega)
  refine ⟨hdecode, by omega, hloop.isChain hstart hcode, ?_⟩
  rw [← hlength]
  rcases hloop.answer hstart hcode with hr | ⟨entries, hr, htiles, hbits, hknown, hcomplete⟩
  · exact .inl hr
  · have hspan : finish entries = Listing.span entries := Listing.finish_eq_span htiles
    have hend : Listing.span entries ≤ image.machineCode.length := by
      rw [← Code.length_bits]
      exact hbits.length_le
    refine .inr ⟨entries, hr, htiles, hbits, by omega, hknown, ?_⟩
    intro hall
    have hpad : image.machineCode.isPadding (finish entries) = true := by
      rw [hspan, ← Nat.zero_add (Listing.span entries)]
      exact hcomplete hall
    refine ⟨?_, fun i hi => Code.bit?_of_isPadding hpad hi⟩
    rw [Code.isPadding, Bool.and_eq_true_iff, decide_eq_true_iff, decide_eq_true_iff] at hpad
    have hwindow : Code.paddingWindow = 8 := rfl
    omega

/-- A return and an unassigned codeword with seven bits behind it. -/
theorem decode_terminates_unassigned :
    (Image.make [213, 128] [] 0).code.length ≤ Header.maxCodeSize.toNat ∧
      ∃ ds, Loop (.start (Image.make [213, 128] [] 0).machineCode) ds
          (.ok [⟨0, .ret, {}⟩, ⟨4, .unknown01011, {}⟩]) ∧
        ds.length ≤ 5 ∧ finish [⟨0, .ret, {}⟩, ⟨4, .unknown01011, {}⟩] = 9 := by
  have hsize : (Image.make [213, 128] [] 0).code.length ≤ Header.maxCodeSize.toNat := by decide
  have hdecode : (Image.make [213, 128] [] 0).decode =
      .ok [⟨0, .ret, {}⟩, ⟨4, .unknown01011, {}⟩] := by
    cbv
  obtain ⟨⟨ds, r, hloop⟩, hall⟩ := decode_terminates _ hsize
  obtain ⟨hr, hrounds, -⟩ := hall ds r hloop
  rw [hdecode] at hr
  rw [← hr] at hloop
  exact ⟨hsize, ds, hloop, hrounds, rfl⟩

end Image

end PrefixVM
