import Mathlib
import PrefixVM.Proofs.Offsets

/-!
The format of images. A byte string is read as an image exactly if it passes five checks, and the first one
that fails is reported. What is read is the image that was written: an image can be read back if the sizes
in its header are those of its parts and it passes the checks on the header, and no other byte string is read
as that image.
-/
namespace PrefixVM

namespace Bytes

/-- Bytes are the digits of the number they hold. -/
theorem ofNatLE_toNatLE (b : Bytes) : ofNatLE b.length (toNatLE b) = b := by
  induction b with
  | nil => rfl
  | cons x rest ih =>
    have hx : x.toNat < 256 := x.toNat_lt
    have hlow : UInt8.ofNat (x.toNat + 256 * toNatLE rest) = x := by
      apply UInt8.toNat_inj.mp
      rw [UInt8.toNat_ofNat']
      omega
    have hhigh : (x.toNat + 256 * toNatLE rest) / 256 = toNatLE rest := by omega
    rw [toNatLE, List.length_cons, ofNatLE, hlow, hhigh, ih]

theorem toNatLE_lt_size (b : Bytes) (h : b.length ≤ 4) : toNatLE b < UInt32.size := by
  calc toNatLE b < 256 ^ b.length := toNatLE_lt b
    _ ≤ 256 ^ 4 := Nat.pow_le_pow_right (by decide) h
    _ = UInt32.size := by decide

end Bytes

namespace Header

/-- The number in the four bytes from `offset` on, lowest byte first. -/
def sizeAt (b : Bytes) (offset : Nat) : Nat :=
  Bytes.toNatLE ((b.drop offset).take 4)

theorem toNat_word (b : Bytes) (offset : Nat) : (word b offset).toNat = sizeAt b offset := by
  apply UInt32.toNat_ofNat_of_lt'
  apply Bytes.toNatLE_lt_size
  rw [List.length_take]
  omega

/-- A size is stored in the four bytes it is read from. -/
theorem ofNatLE_word (b : Bytes) (offset : Nat) (h : offset + 4 ≤ b.length) :
    Bytes.ofNatLE 4 (word b offset).toNat = (b.drop offset).take 4 := by
  have hlen : ((b.drop offset).take 4).length = 4 := by
    rw [List.length_take, List.length_drop]
    omega
  have hdigits := Bytes.ofNatLE_toNatLE ((b.drop offset).take 4)
  rw [hlen] at hdigits
  rw [toNat_word, sizeAt, hdigits]

theorem word_append (front rest : Bytes) (n : UInt32) {offset : Nat} (h : front.length = offset) :
    word (front ++ (Bytes.ofNatLE 4 n.toNat ++ rest)) offset = n := by
  have hn : n.toNat < 256 ^ 4 := n.toNat_lt
  have htake : ((front ++ (Bytes.ofNatLE 4 n.toNat ++ rest)).drop offset).take 4 =
      Bytes.ofNatLE 4 n.toNat := by
    rw [← h, List.drop_left, List.take_left' (Bytes.length_ofNatLE 4 _)]
  rw [word, htake, Bytes.toNatLE_ofNatLE, Nat.mod_eq_of_lt hn, UInt32.ofNat_toNat]

theorem length_toBytes (h : Header) : h.toBytes.length = size := by
  simp [toBytes, size]

theorem toBytes_of_ofBytes {b : Bytes} {h : Header} (hb : ofBytes b = .ok h) :
    size ≤ b.length ∧ h.toBytes = b.take size := by
  unfold ofBytes at hb
  split at hb
  · cases hb
  next hlen =>
    obtain rfl := Except.ok.inj hb
    simp only [size, Nat.not_lt] at hlen
    have hsplit (k n : Nat) : b.take (k + n) = b.take k ++ (b.drop k).take n := List.take_add
    refine ⟨hlen, ?_⟩
    rw [size, hsplit 16 4, hsplit 12 4, hsplit 8 4]
    simp only [toBytes, ofNatLE_word b _ (show 8 + 4 ≤ b.length by omega),
      ofNatLE_word b _ (show 12 + 4 ≤ b.length by omega),
      ofNatLE_word b _ (show 16 + 4 ≤ b.length by omega)]
    rfl

theorem fields_of_ofBytes {b : Bytes} {h : Header} (hb : ofBytes b = .ok h) :
    h.magic = Vector.ofFn (fun i => b.getD i 0) ∧ h.magic.toList = b.take 8 ∧ h.codeSize = word b 8 ∧
      h.dataSize = word b 12 ∧ h.initialDataSize = word b 16 := by
  unfold ofBytes at hb
  split at hb
  · cases hb
  next hlen =>
    obtain rfl := Except.ok.inj hb
    simp only [size, Nat.not_lt] at hlen
    refine ⟨?_, rfl, rfl, rfl, rfl⟩
    apply Vector.ext
    intro i hi
    have hib : i < b.length := by omega
    simp [List.getElem?_eq_getElem hib]

theorem ofBytes_append (h : Header) (rest : Bytes) : ofBytes (h.toBytes ++ rest) = .ok h := by
  have hmagic : h.magic.toList.length = 8 := by simp
  have hlen : ¬ (h.toBytes ++ rest).length < size := by
    rw [List.length_append, length_toBytes]
    omega
  -- the three sizes stand behind the tag, each behind the one before it
  have hcode : word (h.toBytes ++ rest) 8 = h.codeSize := by
    rw [toBytes]
    simp only [List.append_assoc]
    exact word_append _ _ _ hmagic
  have hdata : word (h.toBytes ++ rest) 12 = h.dataSize := by
    rw [toBytes, List.append_assoc, List.append_assoc]
    exact word_append _ _ _ (by simp)
  have hinitial : word (h.toBytes ++ rest) 16 = h.initialDataSize := by
    rw [toBytes, List.append_assoc]
    exact word_append _ _ _ (by simp)
  have htag : (h.toBytes ++ rest).take 8 = h.magic.toList := by
    rw [toBytes]
    simp only [List.append_assoc]
    exact List.take_left' hmagic
  rw [ofBytes, dif_neg hlen]
  simp only [htag, hcode, hdata, hinitial]
  rfl

/-- A header is read from the bytes that it is written as, whatever stands behind them. -/
theorem ofBytes_eq_ok_iff {b : Bytes} {h : Header} : ofBytes b = .ok h ↔ h.toBytes <+: b := by
  constructor
  · intro hb
    rw [(toBytes_of_ofBytes hb).2]
    exact List.take_prefix _ _
  · rintro ⟨rest, rfl⟩
    exact ofBytes_append h rest

theorem validate_eq_ok_iff (h : Header) : h.validate = .ok () ↔
    h.initialDataSize ≤ h.dataSize ∧ h.magic = tag ∧ h.codeSize ≤ maxCodeSize := by
  unfold validate
  split
  next hdata =>
    constructor
    · intro hok
      cases hok
    · rintro ⟨hle, -⟩
      exact absurd hdata (UInt32.not_lt.mpr hle)
  next hdata =>
    split
    next hmagic => simp [hmagic]
    next hmagic =>
      have htag : h.magic = tag := Classical.not_not.mp hmagic
      split
      next hcode => simp [htag, UInt32.not_le.mpr hcode]
      next hcode => simp [htag, UInt32.not_lt.mp hdata, UInt32.not_lt.mp hcode]

end Header

namespace Image

/-- The sizes in the header are those of the parts, and the header is as it has to be. -/
structure Loadable (image : Image) : Prop where
  header : image.header.validate = .ok ()
  code : image.code.length = image.header.codeSize.toNat
  data : image.data.length = image.header.initialDataSize.toNat

theorem length_toBytes (image : Image) :
    image.toBytes.length = Header.size + image.code.length + image.data.length := by
  rw [toBytes, List.length_append, List.length_append, Header.length_toBytes]

theorem header_toBytes (image : Image) : Header.ofBytes image.toBytes = .ok image.header := by
  rw [toBytes, List.append_assoc]
  exact Header.ofBytes_append _ _

/-- The image with the given header and the given bytes behind it. -/
def cut (h : Header) (body : Bytes) : Image :=
  { header := h, code := body.take h.codeSize.toNat, data := body.drop h.codeSize.toNat }

/-- What becomes of a byte string once its header is read. -/
theorem ofBytes_of_header {b : Bytes} {h : Header} (hb : Header.ofBytes b = .ok h) :
    ofBytes b = match h.validate with
      | .error e => .error e
      | .ok () =>
        if b.length = h.imageSize then .ok (cut h (b.drop Header.size))
        else .error (.invalidFileSize h.imageSize b.length) := by
  unfold ofBytes
  rw [hb]
  change Except.bind h.validate _ = _
  cases h.validate with
  | error e => rfl
  | ok u =>
    change (if _ then _ else _) = _
    by_cases hlen : b.length = h.imageSize
    · rw [if_neg (not_not.mpr hlen)]
      dsimp only
      rw [if_pos hlen]
      rfl
    · rw [if_pos hlen]
      dsimp only
      rw [if_neg hlen]
      rfl

/-- Reading accepts exactly what writing makes of the images that can be loaded. -/
theorem ofBytes_eq_ok_iff {b : Bytes} {image : Image} :
    ofBytes b = .ok image ↔ image.Loadable ∧ image.toBytes = b := by
  constructor
  · intro hb
    cases hheader : Header.ofBytes b with
    | error e =>
      rw [ofBytes, hheader] at hb
      cases hb
    | ok h =>
      obtain ⟨hle, hbytes⟩ := Header.toBytes_of_ofBytes hheader
      rw [ofBytes_of_header hheader] at hb
      split at hb
      · cases hb
      next hvalid =>
        split at hb
        next hlen =>
          obtain rfl := Except.ok.inj hb
          rw [Header.imageSize] at hlen
          refine ⟨⟨hvalid, ?_, ?_⟩, ?_⟩
          · simp only [cut, List.length_take, List.length_drop]
            omega
          · simp only [cut, List.length_drop]
            omega
          · rw [toBytes, cut, hbytes, List.append_assoc, List.take_append_drop, List.take_append_drop]
        next => cases hb
  · rintro ⟨hload, rfl⟩
    have hlen : image.toBytes.length = image.header.imageSize := by
      rw [length_toBytes, hload.code, hload.data, Header.imageSize]
    have hbody : image.toBytes.drop Header.size = image.code ++ image.data := by
      rw [toBytes, List.append_assoc, List.drop_left' (Header.length_toBytes _)]
    rw [ofBytes_of_header (header_toBytes image), hload.header]
    dsimp only
    rw [if_pos hlen, hbody, cut, List.take_left' hload.code, List.drop_left' hload.code]

/-- An image whose sizes fit into the header is refused only for its code. -/
theorem validate_make (code data : Bytes) (dataSize : UInt32) :
    (make code data dataSize).header.validate =
      if Header.maxCodeSize < UInt32.ofNat code.length then
        .error (.codeTooLarge (UInt32.ofNat code.length) Header.maxCodeSize)
      else .ok () := by
  have hdata : ¬ max dataSize (UInt32.ofNat data.length) < UInt32.ofNat data.length := by
    change ¬ (if dataSize ≤ UInt32.ofNat data.length then _ else _) < UInt32.ofNat data.length
    split
    next => exact UInt32.lt_irrefl _
    next hsmall =>
      intro hlt
      exact hsmall (UInt32.le_of_lt hlt)
  simp only [make, Header.make, Header.validate, if_neg hdata, ne_eq, not_true, if_false, gt_iff_lt]

theorem loadable_make (code data : Bytes) (dataSize : UInt32) (hdata : data.length < UInt32.size)
    (hcode : code.length ≤ Header.maxCodeSize.toNat) : (make code data dataSize).Loadable := by
  have hlt : code.length < UInt32.size := Nat.lt_of_le_of_lt hcode (by decide)
  refine ⟨?_, ?_, ?_⟩
  · rw [validate_make, if_neg]
    rw [UInt32.lt_iff_toNat_lt, UInt32.toNat_ofNat_of_lt' hlt]
    exact Nat.not_lt.mpr hcode
  · exact (UInt32.toNat_ofNat_of_lt' hlt).symm
  · exact (UInt32.toNat_ofNat_of_lt' hdata).symm

theorem ofBytes_toBytes_make_of_large (code data : Bytes) (dataSize : UInt32)
    (hlt : code.length < UInt32.size) (hcode : Header.maxCodeSize.toNat < code.length) :
    ofBytes (make code data dataSize).toBytes =
      .error (.codeTooLarge (UInt32.ofNat code.length) Header.maxCodeSize) := by
  have hlarge : Header.maxCodeSize < UInt32.ofNat code.length := by
    rw [UInt32.lt_iff_toNat_lt, UInt32.toNat_ofNat_of_lt' hlt]
    exact hcode
  rw [ofBytes_of_header (header_toBytes _), validate_make, if_pos hlarge]

/-- The data of an image stands at the end of its bytes. -/
theorem Loadable.drop_toBytes {image : Image} (h : image.Loadable) :
    image.toBytes.drop (image.toBytes.length - image.header.initialDataSize.toNat) = image.data := by
  have hlen : (image.header.toBytes ++ image.code).length =
      image.toBytes.length - image.header.initialDataSize.toNat := by
    have hsum : image.toBytes.length = (image.header.toBytes ++ image.code).length + image.data.length :=
      List.length_append
    rw [hsum, h.data, Nat.add_sub_cancel]
  rw [← hlen, toBytes, List.drop_left]

/-- Memory starts with the initial data and goes on with zeros. -/
theorem Loadable.toList_memoryCells {image : Image} (h : image.Loadable) :
    image.memoryCells.toList = image.data ++
      List.replicate (image.header.dataSize.toNat - image.header.initialDataSize.toNat) 0 := by
  have hle := UInt32.le_iff_toNat_le.mp ((Header.validate_eq_ok_iff _).mp h.header).1
  have htake : image.data.take image.header.dataSize.toNat = image.data := by
    apply List.take_of_length_le
    rw [h.data]
    exact hle
  simp only [memoryCells, htake, h.data, Array.toList_append, Array.toList_replicate]

theorem Loadable.size_memoryCells {image : Image} (h : image.Loadable) :
    image.memoryCells.size = image.header.dataSize.toNat := by
  have hle := UInt32.le_iff_toNat_le.mp ((Header.validate_eq_ok_iff _).mp h.header).1
  have hdata := h.data
  rw [← Array.length_toList, h.toList_memoryCells, List.length_append, List.length_replicate]
  omega

end Image

/-- A condition on the bytes of an image, and what is reported when it is the first one to fail. -/
structure Check where
  passes : Bool
  failure : ImageError

namespace Image

/-- The conditions on the bytes of an image, in the order in which they are looked at: there is a header, the
memory holds its initial contents, the tag, the size of the code, and the length of the whole. -/
def checks (b : Bytes) : List Check :=
  let codeSize := Header.sizeAt b 8
  let dataSize := Header.sizeAt b 12
  let initialDataSize := Header.sizeAt b 16
  [{ passes := Header.size ≤ b.length
     failure := .tooShort Header.size b.length },
    { passes := initialDataSize ≤ dataSize
      failure := .invalidDataSize (UInt32.ofNat dataSize) (UInt32.ofNat initialDataSize) },
    { passes := b.take 8 = "ESET-VM2".toList.map fun c => UInt8.ofNat c.toNat
      failure := .badMagic (Vector.ofFn fun i => b.getD i 0) },
    { passes := codeSize ≤ Header.maxCodeSize.toNat
      failure := .codeTooLarge (UInt32.ofNat codeSize) Header.maxCodeSize },
    { passes := b.length = Header.size + codeSize + initialDataSize
      failure := .invalidFileSize (Header.size + codeSize + initialDataSize) b.length }]

def firstFailure (b : Bytes) : Option ImageError :=
  ((checks b).find? fun c => !c.passes).map Check.failure

theorem magic_eq_tag_iff (magic : Vector UInt8 8) :
    magic = Header.tag ↔ magic.toList = "ESET-VM2".toList.map fun c => UInt8.ofNat c.toNat := by
  have htag : Header.tag.toList = "ESET-VM2".toList.map fun c => UInt8.ofNat c.toNat := by decide
  rw [← htag]
  constructor
  · rintro rfl
    rfl
  · intro h
    exact Vector.toArray_inj.mp (Array.toList_inj.mp h)

theorem firstFailure_of_header {b : Bytes} {h : Header} (hb : Header.ofBytes b = .ok h) :
    firstFailure b = match h.validate with
      | .error e => some e
      | .ok () =>
        if b.length = h.imageSize then none else some (.invalidFileSize h.imageSize b.length) := by
  have hlen := (Header.toBytes_of_ofBytes hb).1
  obtain ⟨hvector, hlist, hcode, hdata, hinitial⟩ := Header.fields_of_ofBytes hb
  simp only [firstFailure, checks, ← Header.toNat_word, ← hcode, ← hdata, ← hinitial, ← hvector, ← hlist,
    ← magic_eq_tag_iff, UInt32.ofNat_toNat, ← UInt32.le_iff_toNat_le, hlen, decide_true, Bool.not_true,
    List.find?_cons_of_neg, Bool.false_eq_true, not_false_eq_true, Header.validate, Header.imageSize]
  -- both sides look at the same four conditions in the same order
  by_cases hsizes : h.initialDataSize ≤ h.dataSize
  · by_cases htag : h.magic = Header.tag
    · by_cases hmax : h.codeSize ≤ Header.maxCodeSize
      · by_cases hall : b.length = Header.size + h.codeSize.toNat + h.initialDataSize.toNat
        · simp [UInt32.not_lt.mpr hsizes, htag, UInt32.not_lt.mpr hmax, hall]
        · simp [UInt32.not_lt.mpr hsizes, hsizes, htag, UInt32.not_lt.mpr hmax, hmax, hall]
      · simp [UInt32.not_lt.mpr hsizes, hsizes, htag, UInt32.not_le.mp hmax, hmax]
    · simp [UInt32.not_lt.mpr hsizes, hsizes, htag]
  · simp [UInt32.not_le.mp hsizes, hsizes]

/-- The first check that fails is what reading reports, and it reports nothing else. -/
theorem ofBytes_eq_error_iff {b : Bytes} {e : ImageError} :
    ofBytes b = .error e ↔ firstFailure b = some e := by
  cases hb : Header.ofBytes b with
  | error cause =>
    have hshort : ¬ Header.size ≤ b.length := by
      intro hle
      rw [Header.ofBytes, dif_neg (Nat.not_lt.mpr hle)] at hb
      cases hb
    have hcause : cause = .tooShort Header.size b.length := by
      rw [Header.ofBytes, dif_pos (Nat.not_le.mp hshort)] at hb
      exact (Except.error.inj hb).symm
    have hread : ofBytes b = .error cause := by rw [ofBytes, hb]; rfl
    have hfirst : firstFailure b = some cause := by simp [firstFailure, checks, hshort, hcause]
    rw [hread, hfirst, Except.error.injEq, Option.some.injEq]
  | ok h =>
    rw [ofBytes_of_header hb, firstFailure_of_header hb]
    cases h.validate with
    | error cause => rw [Except.error.injEq, Option.some.injEq]
    | ok u =>
      dsimp only
      split
      · simp
      · rw [Except.error.injEq, Option.some.injEq]

theorem firstFailure_eq_none_iff {b : Bytes} :
    firstFailure b = none ↔ ∀ c ∈ checks b, c.passes = true := by
  rw [firstFailure, Option.map_eq_none_iff, List.find?_eq_none]
  simp

end Image

namespace Asm

/-- An assembled image is made of its code, its data and a size of memory. -/
theorem assemble_eq_make {text : String} {a : Assembly} (h : assemble text = .ok a) :
    ∃ dataSize, a.image = Image.make a.image.code a.image.data dataSize := by
  unfold assemble at h
  obtain ⟨source, -, h⟩ := (Except.bind_eq_ok_iff _ _ _).mp h
  obtain ⟨code, -, h⟩ := (Except.bind_eq_ok_iff _ _ _).mp h
  split at h
  next declared _ =>
    dsimp only at h
    split at h
    · obtain rfl := (Except.pure_eq_ok_iff _ _).mp h
      exact ⟨_, rfl⟩
    · obtain rfl := (Except.pure_eq_ok_iff _ _).mp h
      exact ⟨_, rfl⟩
  next =>
    obtain rfl := (Except.pure_eq_ok_iff _ _).mp h
    exact ⟨_, rfl⟩

end Asm

namespace Image

/-- The format of images, in both directions. A byte string is accepted if and only if it passes all checks,
and otherwise the first check that fails is reported. Writing what was read gives the same bytes, and the
memory starts with the last bytes of the string, the initial data, followed by zeros. An image that is made
from code and data of less than 2^32 bytes each is read back unchanged unless its code is too large, which is
then what is reported; so assembled images are read back. -/
theorem ofBytes_exact :
    (∀ b : Bytes, ((∃ image, ofBytes b = .ok image) ↔ ∀ c ∈ checks b, c.passes = true) ∧
      ∀ e, ofBytes b = .error e ↔ firstFailure b = some e) ∧
    (∀ (b : Bytes) (image : Image), ofBytes b = .ok image →
      image.toBytes = b ∧ image.memoryCells.size = Header.sizeAt b 12 ∧
        image.memoryCells.toList = b.drop (b.length - Header.sizeAt b 16) ++
          List.replicate (Header.sizeAt b 12 - Header.sizeAt b 16) 0) ∧
    (∀ (code data : Bytes) (dataSize : UInt32), code.length < UInt32.size → data.length < UInt32.size →
      ofBytes (make code data dataSize).toBytes =
        if code.length ≤ Header.maxCodeSize.toNat then .ok (make code data dataSize)
        else .error (.codeTooLarge (UInt32.ofNat code.length) Header.maxCodeSize)) ∧
    ∀ (text : String) (a : Asm.Assembly), Asm.assemble text = .ok a →
      a.image.code.length ≤ Header.maxCodeSize.toNat → a.image.data.length < UInt32.size →
      ofBytes a.image.toBytes = .ok a.image := by
  refine ⟨fun b => ⟨?_, fun e => ofBytes_eq_error_iff⟩, ?_, ?_, ?_⟩
  · rw [← firstFailure_eq_none_iff]
    cases hread : ofBytes b with
    | error e => simp [ofBytes_eq_error_iff.mp hread]
    | ok image =>
      refine ⟨fun _ => ?_, fun _ => ⟨image, rfl⟩⟩
      cases hfirst : firstFailure b with
      | none => rfl
      | some e =>
        rw [ofBytes_eq_error_iff.mpr hfirst] at hread
        cases hread
  · intro b image hread
    obtain ⟨hload, rfl⟩ := ofBytes_eq_ok_iff.mp hread
    obtain ⟨-, -, -, hdata, hinitial⟩ := Header.fields_of_ofBytes (header_toBytes image)
    rw [← Header.toNat_word, ← Header.toNat_word, ← hdata, ← hinitial, hload.drop_toBytes]
    exact ⟨rfl, hload.size_memoryCells, hload.toList_memoryCells⟩
  · intro code data dataSize hcode hdata
    split
    next hle => exact ofBytes_eq_ok_iff.mpr ⟨loadable_make code data dataSize hdata hle, rfl⟩
    next hlarge =>
      exact ofBytes_toBytes_make_of_large code data dataSize hcode (Nat.not_le.mp hlarge)
  · intro text a h hcode hdata
    obtain ⟨dataSize, hmake⟩ := Asm.assemble_eq_make h
    have hload := loadable_make a.image.code a.image.data dataSize hdata hcode
    rw [← hmake] at hload
    exact ofBytes_eq_ok_iff.mpr ⟨hload, rfl⟩

/-- An assembled image with more memory than data, and the header of an image in which both the sizes of the
memory and the tag are wrong: the sizes are looked at first. -/
theorem ofBytes_exact_assembled :
    (∃ a, Asm.assemble "hlt\n.dataSize 3\n.data\n07" = .ok a ∧
      a.image.code.length ≤ Header.maxCodeSize.toNat ∧ a.image.data.length < UInt32.size ∧
      ofBytes a.image.toBytes = .ok a.image ∧ a.image.memoryCells.toList = [7, 0, 0]) ∧
    ofBytes (List.replicate 16 0 ++ [1, 0, 0, 0]) = .error (.invalidDataSize 0 1) := by
  have hasm : Asm.assemble "hlt\n.dataSize 3\n.data\n07" = .ok { image := make [0xb0] [7] 3 } := by
    cbv
  obtain ⟨hchecks, hread, -, hassembled⟩ := ofBytes_exact
  have hload := hassembled _ _ hasm (by decide) (by decide)
  have hmemory := (hread _ _ hload).2.2
  refine ⟨⟨_, hasm, by decide, by decide, hload, hmemory.trans (by decide)⟩, ?_⟩
  exact ((hchecks _).2 _).mpr (by decide)

end Image

end PrefixVM
