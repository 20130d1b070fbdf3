import Mathlib
import PrefixVM.Console
import PrefixVM.Proofs.EncodedText
import PrefixVM.Proofs.Literals

/-!
Console input as a stream of words, and console output as such an input. The words of a text do not depend on
its lines, since a line feed is blank; so readings that take a line whenever no word is pending answer one word
of the whole text after the other. A value is printed in a way that reads back as this value, in a line of its
own.
-/
namespace PrefixVM

namespace Text

/-- The words are what stands between blanks, as far as anything stands there. -/
theorem words_eq_filter_splitOnP (text : List Char) :
    words text = (text.splitOnP isBlank).filter (· ≠ []) := by
  induction text with
  | nil => rfl
  | cons c rest ih =>
    rw [List.splitOnP_cons_eq_if_modifyHead, words]
    cases hc : isBlank c with
    | true => simpa using ih
    | false =>
      -- what decides is whether a word goes on behind the character
      cases rest with
      | nil => simp [startsWord, words]
      | cons d rest =>
        rw [List.splitOnP_cons_eq_if_modifyHead] at ih ⊢
        cases hd : isBlank d with
        | true => simp_all [startsWord]
        | false =>
          obtain ⟨first, more, hsplit⟩ := List.exists_cons_of_ne_nil (List.splitOnP_ne_nil isBlank rest)
          simp_all [startsWord]

/-- A line feed separates words, so the words of a text are those of its lines. -/
theorem words_append_newline (a b : List Char) : words (a ++ '\n' :: b) = words a ++ words b := by
  have hnewline : isBlank '\n' = true := by decide
  rw [words_eq_filter_splitOnP, words_eq_filter_splitOnP, words_eq_filter_splitOnP,
    List.splitOnP_append_cons a b hnewline, List.filter_append]

theorem words_eq_singleton {text : List Char} (hne : text ≠ []) (h : ∀ c ∈ text, isBlank c = false) :
    words text = [text] := by
  rw [words_eq_filter_splitOnP, List.splitOnP_eq_singleton h]
  simp [hne]

theorem trim_eq_self {text : List Char} (h : ∀ c ∈ text, isBlank c = false) : trim text = text := by
  have hdrop {cs : List Char} (hcs : ∀ c ∈ cs, isBlank c = false) : cs.dropWhile isBlank = cs := by
    apply List.dropWhile_eq_self_iff.mpr
    intro hlen
    rw [hcs _ (List.getElem_mem hlen)]
    decide
  rw [trim, hdrop h, hdrop fun c hc => h c (List.mem_reverse.mp hc), List.reverse_reverse]

end Text

namespace Numeral

theorem denotes_toDigits {radix : Nat} (htwo : 2 ≤ radix) (hradix : radix ≤ 16) (n : Nat) :
    Denotes radix (Nat.toDigits radix n) n := by
  obtain ⟨ds, hds, hvalue⟩ := digits?_toDigits htwo hradix n
  refine ⟨Nat.toDigits_ne_nil, ds, (digits?_eq_some_iff hradix _ _).mp hds, ?_⟩
  rw [← ofDigits_eq, hvalue]

/-- Leading zeros do not matter. -/
theorem Denotes.zeros {radix : Nat} (hpos : 0 < radix) {text : List Char} {n : Nat}
    (h : Denotes radix text n) (k : Nat) : Denotes radix (List.replicate k '0' ++ text) n := by
  obtain ⟨hne, ds, hds, hvalue⟩ := h
  have hzeros : Spelled radix (List.replicate k '0') (List.replicate k 0) := by
    induction k with
    | zero => exact .nil
    | succ k ih => exact .cons ⟨hpos, by decide⟩ ih
  refine ⟨List.append_ne_nil_of_right_ne_nil _ hne, List.replicate k 0 ++ ds, List.rel_append hzeros hds, ?_⟩
  -- the lowest digit comes first, so the zeros are the highest ones
  rw [List.reverse_append, List.reverse_replicate, Nat.ofDigits_append_replicate_zero, hvalue]

theorem Denotes.isBlank_eq_false {text : List Char} {n : Nat} (h : Denotes 16 text n) :
    ∀ c ∈ text, Text.isBlank c = false := by
  have htable : ∀ d < 16,
      Text.isBlank d.digitChar = false ∧ Text.isBlank d.digitChar.toUpper = false := by
    decide
  intro c hc
  by_contra hblank
  apply h.not_mem _ hc
  rintro d hd (rfl | rfl)
  · exact hblank (htable d hd).1
  · exact hblank (htable d hd).2

end Numeral

namespace Console

open Text (words isBlank)
open Utf8 (encode)

section Lines

theorem takeLine_append {a : Bytes} (h : 10 ∉ a) (b : Bytes) :
    takeLine (a ++ b) = (a ++ (takeLine b).1, (takeLine b).2) := by
  induction a with
  | nil => rfl
  | cons x rest ih =>
    rw [List.mem_cons, not_or] at h
    obtain ⟨hx, hrest⟩ := h
    rw [List.cons_append, takeLine, if_neg (Ne.symm hx), ih hrest]
    rfl

theorem not_mem_encode {line : List Char} (h : '\n' ∉ line) : 10 ∉ encode line := by
  intro hmem
  obtain ⟨c, hc, hbyte⟩ := List.mem_flatMap.mp hmem
  rw [Utf8.eq_newline_of_mem hbyte] at hc
  exact h hc

/-- Taking a line of encoded text takes a line of the text. -/
theorem takeLine_encode {text : List Char} (hne : text ≠ []) :
    ∃ line rest, takeLine (encode text) = (encode line, encode rest) ∧
      words text = words line ++ words rest ∧ rest.length < text.length := by
  -- a line goes up to the first line feed, and to the end of a text that has none
  by_cases h : '\n' ∈ text
  · obtain ⟨a, b, rfl, ha⟩ := List.eq_append_cons_of_mem h
    refine ⟨a ++ ['\n'], b, ?_, ?_, by rw [List.length_append, List.length_cons]; omega⟩
    · rw [Utf8.encode_append, Utf8.encode_append, Utf8.encode_cons, Utf8.encode_newline,
        takeLine_append (not_mem_encode ha)]
      rfl
    · have hline : words (a ++ ['\n']) = words a := by
        rw [Text.words_append_newline, words, List.append_nil]
      rw [Text.words_append_newline, hline]
  · refine ⟨text, [], ?_, by rw [words, List.append_nil], List.length_pos_iff.mpr hne⟩
    have htake := takeLine_append (not_mem_encode h) []
    rwa [List.append_nil, takeLine, List.append_nil] at htake

end Lines

/-- A line is taken and cut into words as soon as no word is pending. -/
theorem nextWord_line {input : Bytes} (hne : input ≠ []) {line : List Char}
    (hline : Utf8.decode? (takeLine input).1 = some line) :
    nextWord [] input = nextWord ((words line).map String.ofList) (takeLine input).2 := by
  obtain ⟨b, rest, rfl⟩ := List.exists_cons_of_ne_nil hne
  rw [nextWord, hline]

theorem encode_ne_nil {text : List Char} (hne : text ≠ []) : encode text ≠ [] := by
  obtain ⟨c, rest, rfl⟩ := List.exists_cons_of_ne_nil hne
  rw [Utf8.encode_cons]
  exact List.append_ne_nil_of_left_ne_nil (String.utf8EncodeChar_ne_nil) _

/-- The words that are still to be read: the pending ones and those of the unread text. -/
def remaining (pending : List String) (text : List Char) : List String :=
  pending ++ (words text).map String.ofList

/-- One step of the input: the first of the remaining words is taken, and the others remain. -/
theorem nextWord_encode (pending : List String) (text : List Char) :
    match remaining pending text with
    | [] => nextWord pending (encode text) = (.finished, [], encode [])
    | w :: later => ∃ pending' text',
        nextWord pending (encode text) = (.word w, pending', encode text') ∧
          remaining pending' text' = later := by
  -- lines without words are passed over, so the induction is on the unread text
  induction hn : text.length using Nat.strongRecOn generalizing pending text with
  | _ n ih =>
    cases pending with
    | cons w ws =>
      exact ⟨ws, text, by rw [nextWord], rfl⟩
    | nil =>
      by_cases htext : text = []
      · rw [htext]
        show nextWord [] [] = (.finished, [], [])
        rw [nextWord]
      · obtain ⟨line, rest, htake, hwords, hlt⟩ := takeLine_encode htext
        have hline : Utf8.decode? (takeLine (encode text)).1 = some line := by
          rw [htake, Utf8.decode?_encode]
        have hremaining : remaining [] text = remaining ((words line).map String.ofList) rest := by
          rw [remaining, remaining, hwords, List.map_append, List.nil_append]
        rw [nextWord_line (encode_ne_nil htext) hline, hremaining, htake]
        exact ih rest.length (by omega) _ rest rfl

/-- What a reading answers when this word, if any, is the next one: its value or -1, and what is reported. -/
def outcome : Option String → Int64 × Option Trouble
  | none => (-1, none)
  | some w =>
    match parseHex? w with
    | some value => (value, none)
    | none => (-1, some (.malformed w))

/-- The outcomes of a number of readings, one after the other. -/
def readings : (n : Nat) → Console → Bytes → List (Int64 × Option Trouble)
  | 0, _, _ => []
  | n + 1, c, input =>
    let a := c.readFrom input
    (a.value, a.trouble) :: readings n a.console a.rest

/-- One reading answers the first of the remaining words. -/
theorem readFrom_encode (c : Console) (text : List Char) :
    ∃ pending' text', remaining pending' text' = (remaining c.pending text).tail ∧
      ((c.readFrom (encode text)).value, (c.readFrom (encode text)).trouble) =
        outcome (remaining c.pending text).head? ∧
      (c.readFrom (encode text)).console = { c with pending := pending' } ∧
      (c.readFrom (encode text)).rest = encode text' := by
  have hnext := nextWord_encode c.pending text
  cases hwords : remaining c.pending text with
  | nil =>
    rw [hwords] at hnext
    refine ⟨[], [], rfl, ?_⟩
    rw [readFrom, hnext]
    exact ⟨rfl, rfl, rfl⟩
  | cons w later =>
    rw [hwords] at hnext
    obtain ⟨pending', text', hnext, hremaining⟩ := hnext
    refine ⟨pending', text', hremaining, ?_⟩
    simp only [readFrom, hnext, List.head?_cons, outcome]
    cases parseHex? w with
    | none => exact ⟨rfl, rfl, rfl⟩
    | some value => exact ⟨rfl, rfl, rfl⟩

/-- A run of readings answers the remaining words in order. -/
theorem readings_encode (n : Nat) (c : Console) (text : List Char) :
    c.readings n (encode text) =
      (List.range n).map fun k => outcome (remaining c.pending text)[k]? := by
  induction n generalizing c text with
  | zero => rfl
  | succ n ih =>
    obtain ⟨pending', text', hremaining, hvalue, hconsole, hrest⟩ := readFrom_encode c text
    have hlater : readings n { c with pending := pending' } (encode text') =
        (List.range n).map fun k => outcome (remaining c.pending text)[k + 1]? := by
      rw [ih, hremaining]
      simp only [List.getElem?_tail]
    rw [readings, hvalue, hconsole, hrest, hlater, List.range_succ_eq_map, List.map_cons, List.map_map,
      List.head?_eq_getElem?]
    rfl

/-- The pieces of a text between its blanks that are not empty. -/
def tokens (text : String) : List String :=
  ((text.toList.splitOnP isBlank).filter (· ≠ [])).map String.ofList

theorem tokens_eq_remaining (text : String) : tokens text = remaining [] text.toList := by
  rw [tokens, remaining, Text.words_eq_filter_splitOnP, List.nil_append]

theorem readings_eq_outcomes (c : Console) (hc : c.pending = []) (text : String) (n : Nat) :
    c.readings n text.toUTF8.data.toList = (List.range n).map fun k => outcome (tokens text)[k]? := by
  rw [Utf8.toUTF8_eq_encode, readings_encode, hc, tokens_eq_remaining]

/-- Console input is a stream of tokens. Whatever text is supplied and however often a fresh console is read,
the readings answer the tokens of the whole text one after the other, each with its hexadecimal value, or with
-1 and a warning if it has none, and -1 behind the last token. Texts with the same tokens are read alike, however
these are spread over lines. -/
theorem readings_text (text : String) (capture : Bool) (n : Nat) :
    (make none capture).readings n text.toUTF8.data.toList =
        ((List.range n).map fun k => outcome (tokens text)[k]?) ∧
      ∀ text', tokens text' = tokens text →
        (make none capture).readings n text'.toUTF8.data.toList =
          (make none capture).readings n text.toUTF8.data.toList := by
  refine ⟨readings_eq_outcomes _ rfl text n, ?_⟩
  intro text' htokens
  rw [readings_eq_outcomes _ rfl, readings_eq_outcomes _ rfl, htokens]

/-- Six tokens, one of them malformed, on lines of which one is blank and one has no end. -/
theorem readings_text_spreadOverLines :
    tokens "3 4\n\n  ff\tzz 0x10\r\n-a" = ["3", "4", "ff", "zz", "0x10", "-a"] ∧
      tokens "3 4\n\n  ff\tzz 0x10\r\n-a" = tokens "3\n4 ff zz 0x10 -a" ∧
      (make none false).readings 7 "3 4\n\n  ff\tzz 0x10\r\n-a".toUTF8.data.toList =
        [(3, none), (4, none), (255, none), (-1, some (.malformed "zz")), (16, none), (-10, none),
          (-1, none)] ∧
      (make none false).readings 7 "3 4\n\n  ff\tzz 0x10\r\n-a".toUTF8.data.toList =
        (make none false).readings 7 "3\n4 ff zz 0x10 -a".toUTF8.data.toList := by
  have htokens : tokens "3 4\n\n  ff\tzz 0x10\r\n-a" = ["3", "4", "ff", "zz", "0x10", "-a"] := by cbv
  have hsame : tokens "3 4\n\n  ff\tzz 0x10\r\n-a" = tokens "3\n4 ff zz 0x10 -a" := by
    rw [htokens]
    cbv
  obtain ⟨hread, -⟩ := readings_text "3 4\n\n  ff\tzz 0x10\r\n-a" false 7
  obtain ⟨-, hspread⟩ := readings_text "3\n4 ff zz 0x10 -a" false 7
  refine ⟨htokens, hsame, ?_, hspread _ hsame⟩
  rw [hread, htokens]
  cbv

section Printed

/-- The text that a console prints when the values are written one by one. -/
def printed : Console → List Int64 → String
  | _, [] => ""
  | c, v :: vs => (c.write v).2 ++ printed (c.write v).1 vs

/-- The digits in which a value is printed. -/
def lineDigits (v : Int64) : List Char :=
  let digits := Nat.toDigits 16 v.toUInt64.toNat
  List.replicate (16 - digits.length) '0' ++ digits

theorem toList_line (v : Int64) : (line v).toList = lineDigits v ++ ['\n'] := by
  rw [line, Numeral.hexPadded, String.toList_append, String.toList_ofList]
  rfl

theorem denotes_lineDigits (v : Int64) : Numeral.Denotes 16 (lineDigits v) v.toUInt64.toNat :=
  (Numeral.denotes_toDigits (by decide) (by decide) _).zeros (by decide) _

/-- Hexadecimal digits without a sign and a mark are read as the number that they denote, in 64 bits. -/
theorem parseHex?_of_denotes {digits : List Char} {n : Nat} (h : Numeral.Denotes 16 digits n)
    (hn : n < UInt64.size) : parseHex? (String.ofList digits) = some (Int64.ofInt n) := by
  have hminus : '-' ∉ digits := h.not_mem (by decide)
  have hplus : '+' ∉ digits := h.not_mem (by decide)
  have hmark : dropHexMark digits = digits := by
    have hsmall : 'x' ∉ digits := h.not_mem (by decide)
    have hcapital : 'X' ∉ digits := h.not_mem (by decide)
    unfold dropHexMark
    split
    next => exact absurd (List.mem_cons_of_mem _ List.mem_cons_self) hsmall
    next => exact absurd (List.mem_cons_of_mem _ List.mem_cons_self) hcapital
    next => rfl
  have hparse : Numeral.parse? 16 UInt64.size digits = some n :=
    (Numeral.parse?_eq_some_iff_denotes (by decide) _ hplus n).mpr ⟨h, hn⟩
  rw [parseHex?, String.toList_ofList, Text.trim_eq_self h.isBlank_eq_false]
  -- neither of the signs is there, and no mark
  split
  next heq =>
    split at heq
    next => exact absurd List.mem_cons_self hminus
    next =>
      obtain ⟨rfl, rfl⟩ := Prod.mk.inj heq
      rw [hmark, hparse]
      rfl

/-- A printed value is read back. -/
theorem parseHex?_lineDigits (v : Int64) : parseHex? (String.ofList (lineDigits v)) = some v := by
  rw [parseHex?_of_denotes (denotes_lineDigits v) v.toUInt64.toNat_lt]
  apply congrArg some
  apply Int64.toBitVec_inj.mp
  simp

/-- Each printed value is one token. -/
theorem tokens_printed (vs : List Int64) :
    tokens ((make none false).printed vs) = vs.map fun v => String.ofList (lineDigits v) := by
  induction vs with
  | nil => rfl
  | cons v vs ih =>
    have hword : words (lineDigits v) = [lineDigits v] :=
      Text.words_eq_singleton (denotes_lineDigits v).1 (denotes_lineDigits v).isBlank_eq_false
    have htext : ((make none false).printed (v :: vs)).toList =
        lineDigits v ++ '\n' :: ((make none false).printed vs).toList := by
      show (line v ++ (make none false).printed vs).toList = _
      rw [String.toList_append, toList_line, List.append_assoc]
      rfl
    calc tokens ((make none false).printed (v :: vs))
        = (words (lineDigits v)).map String.ofList ++ tokens ((make none false).printed vs) := by
          rw [tokens_eq_remaining, tokens_eq_remaining, htext, remaining, Text.words_append_newline,
            List.map_append]
          rfl
      _ = (v :: vs).map fun v => String.ofList (lineDigits v) := by
          rw [hword, ih]
          rfl

/-- Console output can be read back. If the text that an uncaptured console prints for some values is the input
of a fresh one, its readings answer exactly these values in order, without a warning, and then -1. -/
theorem readings_printed (vs : List Int64) (m : Nat) :
    (make none false).readings (vs.length + m) ((make none false).printed vs).toUTF8.data.toList =
      (vs.map fun v => (v, none)) ++ List.replicate m (-1, none) := by
  have houtcome (v : Int64) : outcome (some (String.ofList (lineDigits v))) = (v, none) := by
    rw [outcome, parseHex?_lineDigits]
  have hvalues : ((List.range vs.length).map fun k =>
      outcome (vs.map fun v => String.ofList (lineDigits v))[k]?) = vs.map fun v => (v, none) := by
    apply List.ext_getElem (by simp)
    intro k hk _
    rw [List.length_map, List.length_range] at hk
    simp only [List.getElem_map, List.getElem_range, List.getElem?_map, List.getElem?_eq_getElem hk,
      Option.map_some, houtcome]
  -- behind the last value there is no token left
  have hend : ((List.range m).map fun k =>
      outcome (vs.map fun v => String.ofList (lineDigits v))[vs.length + k]?) =
        List.replicate m (-1, none) := by
    apply List.eq_replicate_iff.mpr
    refine ⟨by simp, ?_⟩
    intro a ha
    obtain ⟨k, -, rfl⟩ := List.mem_map.mp ha
    rw [List.getElem?_eq_none (by simp)]
    rfl
  calc (make none false).readings (vs.length + m) ((make none false).printed vs).toUTF8.data.toList
      = (List.range (vs.length + m)).map fun k =>
          outcome (vs.map fun v => String.ofList (lineDigits v))[k]? := by
        rw [readings_eq_outcomes _ rfl, tokens_printed]
    _ = ((List.range vs.length).map fun k => outcome (vs.map fun v => String.ofList (lineDigits v))[k]?) ++
          (List.range m).map fun k =>
            outcome (vs.map fun v => String.ofList (lineDigits v))[vs.length + k]? := by
        rw [List.range_add, List.map_append, List.map_map]
        rfl
    _ = (vs.map fun v => (v, none)) ++ List.replicate m (-1, none) := by rw [hvalues, hend]

end Printed

end Console

end PrefixVM
