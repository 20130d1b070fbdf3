import Mathlib
import PrefixVM.Text.Utf8

/-!
Texts as UTF-8. The bytes of a text are read back as its characters, one piece for each, and the byte of a
line feed stands for nothing else; so cutting the bytes behind a line feed cuts the text there.
-/
namespace PrefixVM.Utf8

/-- The UTF-8 bytes of a text. -/
def encode (text : List Char) : Bytes :=
  text.flatMap String.utf8EncodeChar

theorem toUTF8_eq_encode (text : String) : text.toUTF8.data.toList = encode text.toList := by
  have h : (String.ofList text.toList).toUTF8 = text.toList.utf8Encode := by
    rw [String.toUTF8_eq_toByteArray, String.toByteArray_ofList]
  rw [String.ofList_toList] at h
  rw [h, List.utf8Encode, List.data_toByteArray, encode]

theorem encode_append (a b : List Char) : encode (a ++ b) = encode a ++ encode b :=
  List.flatMap_append

theorem encode_cons (c : Char) (text : List Char) :
    encode (c :: text) = String.utf8EncodeChar c ++ encode text :=
  List.flatMap_cons

section Piece

theorem between_iff (low high b : UInt8) :
    (decide (low ≤ b) && decide (b ≤ high)) = true ↔ low.toNat ≤ b.toNat ∧ b.toNat ≤ high.toNat := by
  rw [Bool.and_eq_true_iff, decide_eq_true_iff, decide_eq_true_iff, UInt8.le_iff_toNat_le,
    UInt8.le_iff_toNat_le]

variable {lead x y z : UInt8} {n : Nat} (rest : Bytes)

theorem isTail_of_toNat (hx : x.toNat = n % 64 + 128) : isTail x = true := by
  rw [isTail, between_iff, hx]
  change 128 ≤ _ ∧ _ ≤ 191
  omega

theorem payload_of_toNat (hx : x.toNat = n % 64 + 128) : payload x = n % 64 := by
  rw [payload, hx]
  omega

/-- A second byte of three keeps out numbers that two bytes could hold, and the surrogates. -/
theorem isSecondOfThree_of_toNat (hlead : lead.toNat = n / 4096 + 224) (hx : x.toNat = n / 64 % 64 + 128)
    (hlow : 2048 ≤ n) (hscalar : n < 55296 ∨ 57343 < n) : isSecondOfThree lead x = true := by
  unfold isSecondOfThree
  split
  next h =>
    have hzero : n / 4096 + 224 = 224 := by rw [← hlead, h]; rfl
    rw [between_iff, hx]
    change 160 ≤ _ ∧ _ ≤ 191
    omega
  next =>
    split
    next h =>
      have hthirteen : n / 4096 + 224 = 237 := by rw [← hlead, h]; rfl
      rw [between_iff, hx]
      change 128 ≤ _ ∧ _ ≤ 159
      omega
    next => exact isTail_of_toNat hx

/-- A second byte of four keeps out numbers that three bytes could hold, and those behind the last character. -/
theorem isSecondOfFour_of_toNat (hlead : lead.toNat = n / 262144 + 240)
    (hx : x.toNat = n / 4096 % 64 + 128) (hlow : 65536 ≤ n) (hhigh : n < 1114112) :
    isSecondOfFour lead x = true := by
  unfold isSecondOfFour
  split
  next h =>
    have hzero : n / 262144 + 240 = 240 := by rw [← hlead, h]; rfl
    rw [between_iff, hx]
    change 144 ≤ _ ∧ _ ≤ 191
    omega
  next =>
    split
    next h =>
      have hfour : n / 262144 + 240 = 244 := by rw [← hlead, h]; rfl
      rw [between_iff, hx]
      change 128 ≤ _ ∧ _ ≤ 143
      omega
    next => exact isTail_of_toNat hx

theorem piece_one (hlead : lead.toNat = n) (hhigh : n < 128) :
    piece lead rest = (some (Char.ofNat n), 0) := by
  have hone : lead < 0x80 := UInt8.lt_iff_toNat_lt.mpr (by rw [hlead]; exact hhigh)
  rw [piece.eq_def, if_pos hone, hlead]

theorem not_lt_of_le_toNat (h : 128 ≤ lead.toNat) : ¬ lead < 0x80 := by
  rw [UInt8.lt_iff_toNat_lt]
  change ¬ _ < 128
  omega

theorem piece_two (hlead : lead.toNat = n / 64 + 192) (hx : x.toNat = n % 64 + 128) (hlow : 128 ≤ n)
    (hhigh : n < 2048) : piece lead (x :: rest) = (some (Char.ofNat n), 1) := by
  have htwo : (0xC2 ≤ lead && lead ≤ 0xDF) = true := by
    rw [between_iff, hlead]
    change 194 ≤ _ ∧ _ ≤ 223
    omega
  have hvalue : lead.toNat % 32 * 64 + payload x = n := by
    rw [hlead, payload_of_toNat hx]
    omega
  rw [piece.eq_def, if_neg (not_lt_of_le_toNat (by omega)), if_pos htwo]
  simp only [isTail_of_toNat hx, if_true, hvalue]

theorem piece_three (hlead : lead.toNat = n / 4096 + 224) (hx : x.toNat = n / 64 % 64 + 128)
    (hy : y.toNat = n % 64 + 128) (hlow : 2048 ≤ n) (hhigh : n < 65536)
    (hscalar : n < 55296 ∨ 57343 < n) : piece lead (x :: y :: rest) = (some (Char.ofNat n), 2) := by
  have htwo : ¬ (0xC2 ≤ lead && lead ≤ 0xDF) = true := by
    rw [between_iff, hlead]
    change ¬ (194 ≤ _ ∧ _ ≤ 223)
    omega
  have hthree : (0xE0 ≤ lead && lead ≤ 0xEF) = true := by
    rw [between_iff, hlead]
    change 224 ≤ _ ∧ _ ≤ 239
    omega
  have hvalue : (lead.toNat % 16 * 64 + payload x) * 64 + payload y = n := by
    rw [hlead, payload_of_toNat hx, payload_of_toNat hy]
    omega
  rw [piece.eq_def, if_neg (not_lt_of_le_toNat (by omega)), if_neg htwo, if_pos hthree]
  simp only [isSecondOfThree_of_toNat hlead hx hlow hscalar, isTail_of_toNat hy, Bool.not_true,
    Bool.false_eq_true, if_false, hvalue]

theorem piece_four (hlead : lead.toNat = n / 262144 + 240) (hx : x.toNat = n / 4096 % 64 + 128)
    (hy : y.toNat = n / 64 % 64 + 128) (hz : z.toNat = n % 64 + 128) (hlow : 65536 ≤ n)
    (hhigh : n < 1114112) : piece lead (x :: y :: z :: rest) = (some (Char.ofNat n), 3) := by
  have htwo : ¬ (0xC2 ≤ lead && lead ≤ 0xDF) = true := by
    rw [between_iff, hlead]
    change ¬ (194 ≤ _ ∧ _ ≤ 223)
    omega
  have hthree : ¬ (0xE0 ≤ lead && lead ≤ 0xEF) = true := by
    rw [between_iff, hlead]
    change ¬ (224 ≤ _ ∧ _ ≤ 239)
    omega
  have hfour : (0xF0 ≤ lead && lead ≤ 0xF4) = true := by
    rw [between_iff, hlead]
    change 240 ≤ _ ∧ _ ≤ 244
    omega
  have hvalue : ((lead.toNat % 8 * 64 + payload x) * 64 + payload y) * 64 + payload z = n := by
    rw [hlead, payload_of_toNat hx, payload_of_toNat hy, payload_of_toNat hz]
    omega
  rw [piece.eq_def, if_neg (not_lt_of_le_toNat (by omega)), if_neg htwo, if_neg hthree, if_pos hfour]
  simp only [isSecondOfFour_of_toNat hlead hx hlow hhigh, isTail_of_toNat hy, isTail_of_toNat hz,
    Bool.not_true, Bool.false_eq_true, if_false, hvalue]

end Piece

/-- The bytes of a character are one piece. -/
theorem pieces_encode_append (c : Char) (rest : Bytes) :
    pieces (String.utf8EncodeChar c ++ rest) = some c :: pieces rest := by
  have hchar : Char.ofNat c.val.toNat = c := Char.ofNat_toNat c
  have hmod {k : Nat} (hk : k < 256) : (UInt8.ofNat k).toNat = k := UInt8.toNat_ofNat_of_lt' hk
  have hvalid : c.val.toNat < 55296 ∨ 57343 < c.val.toNat ∧ c.val.toNat < 1114112 := c.valid
  unfold String.utf8EncodeChar
  generalize hn : c.val.toNat = n at hchar hvalid
  dsimp only
  split_ifs with hone htwo hthree
  · rw [List.cons_append, List.nil_append, pieces, piece_one rest (hmod (by omega)) (by omega)]
    simp only [hchar, List.drop_zero]
  · rw [List.cons_append, List.cons_append, List.nil_append, pieces,
      piece_two (n := n) rest (by rw [hmod (by omega)]; omega) (hmod (by omega)) (by omega) (by omega)]
    simp only [hchar, List.drop_one, List.tail_cons]
  · rw [List.cons_append, List.cons_append, List.cons_append, List.nil_append, pieces,
      piece_three (n := n) rest (by rw [hmod (by omega)]; omega) (hmod (by omega)) (hmod (by omega))
        (by omega) (by omega) (by omega)]
    simp only [hchar, List.drop_succ_cons, List.drop_zero]
  · rw [List.cons_append, List.cons_append, List.cons_append, List.cons_append, List.nil_append, pieces,
      piece_four (n := n) rest (by rw [hmod (by omega)]; omega) (hmod (by omega)) (hmod (by omega))
        (hmod (by omega)) (by omega) (by omega)]
    simp only [hchar, List.drop_succ_cons, List.drop_zero]

theorem pieces_encode (text : List Char) : pieces (encode text) = text.map some := by
  induction text with
  | nil => rw [encode, List.flatMap_nil, pieces, List.map_nil]
  | cons c rest ih => rw [encode_cons, pieces_encode_append, ih, List.map_cons]

/-- The bytes of a text are read as that text. -/
theorem decode?_encode (text : List Char) : decode? (encode text) = some text := by
  rw [decode?, pieces_encode]
  induction text with
  | nil => rfl
  | cons c rest ih => simp [ih]

theorem encode_newline : String.utf8EncodeChar '\n' = [10] := by
  decide

/-- No other character has the byte of a line feed among its bytes. -/
theorem eq_newline_of_mem {c : Char} (h : 10 ∈ String.utf8EncodeChar c) : c = '\n' := by
  have hbyte {k : Nat} (hk : k < 256) (heq : 10 = UInt8.ofNat k) : k = 10 :=
    (UInt8.toNat_ofNat_of_lt' hk).symm.trans (congrArg UInt8.toNat heq).symm
  unfold String.utf8EncodeChar at h
  generalize hn : c.val.toNat = n at h
  dsimp only at h
  split_ifs at h
  · have hten := hbyte (by omega) (List.mem_singleton.mp h)
    exact Char.ext (UInt32.toNat_inj.mp (hn.trans hten))
  -- the bytes of a longer character all lie above
  all_goals
    have hne {k : Nat} (hlow : 128 ≤ k) (hk : k < 256) : ¬ 10 = UInt8.ofNat k := fun heq =>
      absurd (hbyte hk heq) (by omega)
    simp only [List.mem_cons, List.not_mem_nil, or_false] at h
    simp (disch := omega) only [hne, or_self] at h

end PrefixVM.Utf8
