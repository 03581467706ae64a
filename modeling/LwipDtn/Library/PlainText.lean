import Mathlib.Data.List.DropRight
import Mathlib.Data.List.Basic

/-!
Plain text as C and Python read it: lines, words and decimal numbers. A character is one
byte. Python decodes the bytes from 128 on, which matters to none of the functions here as
long as no number is written with them. Nothing here knows which file is read.
-/

namespace PlainText

section Lines

/-- The lines of a text with their line ends; the last one need not have any. A line is cut
where it reaches the limit, and `count` characters of the first line have been read. -/
def linesFrom (limit : Option Nat) : Nat → List Char → List (List Char)
  | _, [] => []
  | count, c :: rest =>
      if c = '\n' ∨ limit = some (count + 1) then [c] :: linesFrom limit 0 rest
      else
        match linesFrom limit (count + 1) rest with
        | [] => [[c]]
        | line :: lines => (c :: line) :: lines

/-- What `fgets` returns in turn with a buffer of the given size. -/
def fgetsAll (size : Nat) (text : List Char) : List (List Char) :=
  linesFrom (some (size - 1)) 0 text

/-- Text mode of Python: every line end becomes a newline. -/
def universalNewlines : List Char → List Char
  | '\r' :: '\n' :: rest => '\n' :: universalNewlines rest
  | '\r' :: rest => '\n' :: universalNewlines rest
  | c :: rest => c :: universalNewlines rest
  | [] => []

def readlines (text : List Char) : List (List Char) := linesFrom none 0 (universalNewlines text)

variable {limit : Option Nat} {count : Nat} {line : List Char}

/-- A character inside a line that the limit does not cut. -/
theorem linesFrom_cons {c : Char} (hc : c ≠ '\n') (rest : List Char)
    (fits : ∀ size, limit = some size → count + (c :: line).length < size) :
    (linesFrom limit count (c :: rest) = match linesFrom limit (count + 1) rest with
      | [] => [[c]]
      | line :: lines => (c :: line) :: lines) ∧
    ∀ size, limit = some size → count + 1 + line.length < size := by
  have hlen : ∀ size, limit = some size → count + 1 + line.length < size := by
    intro size hsize
    have := fits size hsize
    rw [List.length_cons] at this
    omega
  have hroom : limit ≠ some (count + 1) := by
    intro hlimit
    have := hlen _ hlimit
    omega
  refine ⟨?_, hlen⟩
  rw [linesFrom, if_neg (by simp [hc, hroom])]

theorem linesFrom_line (hline : '\n' ∉ line) (rest : List Char)
    (fits : ∀ size, limit = some size → count + line.length < size) :
    linesFrom limit count (line ++ '\n' :: rest) =
      (line ++ ['\n']) :: linesFrom limit 0 rest := by
  induction line generalizing count with
  | nil => simp [linesFrom]
  | cons c line ih =>
      rw [List.mem_cons, not_or] at hline
      obtain ⟨hcons, hlen⟩ := linesFrom_cons (Ne.symm hline.1) (line ++ '\n' :: rest) fits
      rw [List.cons_append, hcons, ih hline.2 hlen]
      rfl

theorem linesFrom_last (hline : '\n' ∉ line)
    (fits : ∀ size, limit = some size → count + line.length < size) :
    linesFrom limit count line = if line = [] then [] else [line] := by
  induction line generalizing count with
  | nil => rfl
  | cons c line ih =>
      rw [List.mem_cons, not_or] at hline
      obtain ⟨hcons, hlen⟩ := linesFrom_cons (Ne.symm hline.1) line fits
      rw [hcons, ih hline.2 hlen]
      cases line <;> rfl

theorem linesFrom_lines {lines : List (List Char)} {last : List Char}
    (hlines : ∀ line ∈ lines, '\n' ∉ line) (hlast : '\n' ∉ last)
    (fits : ∀ size, limit = some size → ∀ line ∈ last :: lines, line.length < size) :
    linesFrom limit 0 ((lines.flatMap fun line => line ++ ['\n']) ++ last) =
      lines.map (· ++ ['\n']) ++ if last = [] then [] else [last] := by
  induction lines with
  | nil =>
      refine linesFrom_last hlast fun size hsize => ?_
      simpa using fits size hsize last (by simp)
  | cons line lines ih =>
      have hrest : ∀ size, limit = some size → ∀ l ∈ last :: lines, l.length < size := by
        intro size hsize l hl
        exact fits size hsize l (by simp only [List.mem_cons] at hl ⊢; tauto)
      have hroom : ∀ size, limit = some size → 0 + line.length < size := by
        intro size hsize
        simpa using fits size hsize line (by simp)
      have hline := linesFrom_line (hlines line (by simp))
        ((lines.flatMap fun line => line ++ ['\n']) ++ last) hroom
      rw [ih (fun l hl => hlines l (by simp [hl])) hrest] at hline
      simpa using hline

theorem universalNewlines_cons {c : Char} (hc : c ≠ '\r') (rest : List Char) :
    universalNewlines (c :: rest) = c :: universalNewlines rest := by
  rw [universalNewlines]
  · rintro _ h
    cases h
    exact absurd rfl hc
  · rintro h
    exact absurd h hc

theorem universalNewlines_append (hline : '\r' ∉ line) (rest : List Char) :
    universalNewlines (line ++ rest) = line ++ universalNewlines rest := by
  induction line with
  | nil => rfl
  | cons c line ih =>
      rw [List.mem_cons, not_or] at hline
      rw [List.cons_append, universalNewlines_cons (Ne.symm hline.1), ih hline.2]
      rfl

end Lines

section Words

/-- `isspace` in the C locale. -/
def isSpace (c : Char) : Bool := c == ' ' || (9 ≤ c.toNat && c.toNat ≤ 13)

/-- The first words of a text, each of at most `size` characters; a longer one is cut. -/
def words (size : Nat) : Nat → List Char → List (List Char)
  | 0, _ => []
  | k + 1, text =>
      match text.dropWhile isSpace with
      | [] => []
      | c :: rest =>
          let word := ((c :: rest).takeWhile fun d => !isSpace d).take size
          word :: words size k ((c :: rest).drop word.length)

theorem dropWhile_solid {p : Char → Bool} {word : List Char} (h : ∀ c ∈ word, p c = false)
    (rest : List Char) (moves : word ≠ []) : (word ++ rest).dropWhile p = word ++ rest := by
  obtain ⟨c, word, rfl⟩ := List.exists_cons_of_ne_nil moves
  rw [List.cons_append, List.dropWhile_cons_of_neg]
  simp [h c]

structure IsWord (size : Nat) (word : List Char) : Prop where
  nonempty : word ≠ []
  solid : ∀ c ∈ word, isSpace c = false
  short : word.length ≤ size

variable {size : Nat} {word tail : List Char}

theorem IsWord.mono (h : IsWord size word) {size' : Nat} (hsize : size ≤ size') :
    IsWord size' word :=
  ⟨h.nonempty, h.solid, h.short.trans hsize⟩

theorem words_space (k : Nat) {c : Char} (hc : isSpace c = true) (rest : List Char) :
    words size k (c :: rest) = words size k rest := by
  cases k with
  | zero => rfl
  | succ k => rw [words, words, List.dropWhile_cons_of_pos hc]

theorem words_dropWhile (k : Nat) (text : List Char) :
    words size k (text.dropWhile isSpace) = words size k text := by
  cases k with
  | zero => rfl
  | succ k => rw [words, words, List.dropWhile_idempotent]

theorem words_append_blank (k : Nat) (text : List Char) (htail : ∀ c ∈ tail, isSpace c = true) :
    words size k (text ++ tail) = words size k text := by
  induction k generalizing text with
  | zero => rfl
  | succ k ih =>
      rw [words, words, List.dropWhile_append]
      cases text.dropWhile isSpace with
      | nil => rw [List.isEmpty_nil, if_pos rfl, List.dropWhile_eq_nil_iff.mpr htail]
      | cons c rest =>
          have htake : (((c :: rest) ++ tail).takeWhile fun d => !isSpace d) =
              (c :: rest).takeWhile fun d => !isSpace d := by
            rw [List.takeWhile_append]
            split
            next hall =>
              have hnone : (tail.takeWhile fun d => !isSpace d) = [] := by
                cases tail with
                | nil => rfl
                | cons d tail => rw [List.takeWhile_cons_of_neg (by simp [htail d])]
              rw [hnone, List.append_nil]
              exact ((List.takeWhile_prefix _).eq_of_length hall).symm
            next => rfl
          rw [List.isEmpty_cons, if_neg (by simp), List.cons_append]
          dsimp only
          rw [← List.cons_append, htake, List.drop_append_of_le_length, ih]
          exact (List.length_take_le' _ _).trans (List.takeWhile_prefix _).length_le

theorem words_word (k : Nat) (h : IsWord size word) {rest : List Char}
    (hrest : ∀ c, rest.head? = some c → isSpace c = true) :
    words size (k + 1) (word ++ rest) = word :: words size k rest := by
  have htake : ((word ++ rest).takeWhile fun d => !isSpace d) = word := by
    rw [List.takeWhile_append_of_pos (by simpa using h.solid)]
    cases rest with
    | nil => simp
    | cons c rest => rw [List.takeWhile_cons_of_neg (by simp [hrest c rfl]), List.append_nil]
  have hdrop := dropWhile_solid h.solid rest h.nonempty
  obtain ⟨c, word', heq⟩ := List.exists_cons_of_ne_nil h.nonempty
  rw [words, hdrop]
  rw [heq, List.cons_append] at htake ⊢
  dsimp only
  rw [htake, ← heq, List.take_of_length_le h.short, ← List.cons_append, ← heq, List.drop_left]

theorem words_blank_append (k : Nat) {gap : List Char} (hgap : ∀ c ∈ gap, isSpace c = true)
    (rest : List Char) : words size k (gap ++ rest) = words size k rest := by
  induction gap with
  | nil => rfl
  | cons c gap ih =>
      rw [List.cons_append, words_space k (hgap c (by simp)), ih fun d hd => hgap d (by simp [hd])]

structure Spaced (size : Nat) (x : List Char × List Char) : Prop where
  word : IsWord size x.1
  gap : x.2 ≠ []
  blank : ∀ c ∈ x.2, isSpace c = true

theorem words_spaced (k : Nat) {list : List (List Char × List Char)}
    (h : ∀ x ∈ list, Spaced size x) (rest : List Char) :
    words size (list.length + k) ((list.flatMap fun x => x.1 ++ x.2) ++ rest) =
      list.map Prod.fst ++ words size k rest := by
  induction list with
  | nil => simp
  | cons x list ih =>
      have hx := h x (by simp)
      have hgap : ∀ c, (x.2 ++ ((list.flatMap fun x => x.1 ++ x.2) ++ rest)).head? = some c →
          isSpace c = true := by
        obtain ⟨d, gap, hgap⟩ := List.exists_cons_of_ne_nil hx.gap
        rw [hgap]
        intro c hc
        cases hc
        exact hx.blank d (by simp [hgap])
      rw [List.flatMap_cons, List.length_cons, Nat.add_right_comm, List.append_assoc,
        List.append_assoc, words_word _ hx.word hgap, words_blank_append _ hx.blank,
        ih fun y hy => h y (by simp [hy])]
      rfl

theorem mem_intercalate {c d : Char} {list : List (List Char)} (h : c ∈ [d].intercalate list) :
    c = d ∨ ∃ word ∈ list, c ∈ word := by
  induction list with
  | nil => cases h
  | cons word list ih =>
      cases list with
      | nil => exact .inr ⟨word, by simp, by simpa using h⟩
      | cons next list =>
          have h : c ∈ word ∨ c = d ∨ c ∈ [d].intercalate (next :: list) := by
            simpa [List.intercalate] using h
          rcases h with h | h | h
          · exact .inr ⟨word, by simp, h⟩
          · exact .inl h
          · obtain hd | ⟨word', hword', hc⟩ := ih h
            · exact .inl hd
            · exact .inr ⟨word', by simp [List.mem_cons.mp hword'], hc⟩

theorem splitOn_concat {x d : Char} (hd : d ≠ x) (text : List Char) : ∃ init last,
    text.splitOn x = init ++ [last] ∧ (text ++ [d]).splitOn x = init ++ [last ++ [d]] := by
  simp only [List.splitOn_eq_splitOnP]
  induction text with
  | nil => exact ⟨[], [], by simp, by simp [List.splitOnP_cons_eq_if_modifyHead, hd]⟩
  | cons c text ih =>
      obtain ⟨init, last, htext, hconcat⟩ := ih
      rw [List.cons_append, List.splitOnP_cons_eq_if_modifyHead,
        List.splitOnP_cons_eq_if_modifyHead, htext, hconcat]
      split
      next => exact ⟨[] :: init, last, rfl, rfl⟩
      next =>
        cases init with
        | nil => exact ⟨[], c :: last, rfl, rfl⟩
        | cons word init => exact ⟨(c :: word) :: init, last, rfl, rfl⟩

end Words

section Numbers

def digit (c : Char) : Nat := c.toNat - 48

/-- The value of some digits behind others. -/
def decimalFrom (value : Nat) (digits : List Char) : Nat :=
  digits.foldl (fun v c => v * 10 + digit c) value

def decimal (digits : List Char) : Nat := decimalFrom 0 digits

def signed (read : List Char → Option Nat) : List Char → Option Int
  | '-' :: text => (read text).map fun v => -(v : Int)
  | '+' :: text => (read text).map Nat.cast
  | text => (read text).map Nat.cast

/-- The digits that `%d` reads. -/
def scanDigits (text : List Char) : Option Nat :=
  let digits := text.takeWhile Char.isDigit
  if digits = [] then none else some (decimal digits)

/-- `sscanf` with `+%d`. The value is exact, also beyond the range of `int`, where that of
the source is undefined. -/
def scanPlus : List Char → Option Int
  | '+' :: text => signed scanDigits text
  | _ => none

/-- The characters that `str.strip` removes. -/
def pySpace (c : Char) : Bool := isSpace c || (28 ≤ c.toNat && c.toNat ≤ 31)

/-- Digits for `int`: an underscore has to be between two of them. -/
def pyDigits (value : Nat) (afterDigit : Bool) : List Char → Option Nat
  | [] => if afterDigit then some value else none
  | c :: rest =>
      if c.isDigit then pyDigits (value * 10 + digit c) true rest
      else if c = '_' && afterDigit then pyDigits value false rest
      else none

/-- `int` of a text. -/
def pyInt (text : List Char) : Option Int :=
  signed (pyDigits 0 false) ((text.dropWhile pySpace).rdropWhile pySpace)

structure Numeral (size : Nat) where
  digits : List Char
  nonempty : digits ≠ []
  decimal : ∀ c ∈ digits, c.isDigit = true
  short : digits.length ≤ size

variable {size : Nat}

def Numeral.value (n : Numeral size) : Nat := PlainText.decimal n.digits

theorem pyDigits_eq {digits : List Char} (h : ∀ c ∈ digits, c.isDigit = true) (value : Nat) :
    pyDigits value true digits = some (decimalFrom value digits) := by
  induction digits generalizing value with
  | nil => rfl
  | cons c digits ih =>
      rw [pyDigits, if_pos (h c (by simp)), ih fun d hd => h d (by simp [hd])]
      rfl

theorem isDigit_iff {c : Char} : c.isDigit = true ↔ 48 ≤ c.toNat ∧ c.toNat ≤ 57 := by
  simp only [Char.isDigit, Bool.and_eq_true, decide_eq_true_eq, ge_iff_le, UInt32.le_iff_toNat_le]
  rfl

theorem isDigit_not_pySpace {c : Char} (h : c.isDigit = true) : pySpace c = false := by
  have h := isDigit_iff.mp h
  have hblank : c ≠ ' ' := by
    rintro rfl
    exact absurd h.1 (by decide)
  simp [pySpace, isSpace, hblank]
  omega

theorem Numeral.isWord (n : Numeral size) : IsWord size n.digits := by
  refine ⟨n.nonempty, fun c hc => ?_, n.short⟩
  have hc := isDigit_not_pySpace (n.decimal c hc)
  rw [pySpace, Bool.or_eq_false_iff] at hc
  exact hc.1

theorem Numeral.isWord_plus (n : Numeral size) : IsWord (size + 1) ('+' :: n.digits) := by
  refine ⟨by simp, fun c hc => ?_, Nat.succ_le_succ n.short⟩
  rcases List.mem_cons.mp hc with rfl | hc
  · decide
  · exact n.isWord.solid c hc

theorem Numeral.pyDigits_eq (n : Numeral size) : pyDigits 0 false n.digits = some n.value := by
  obtain ⟨c, rest, heq⟩ := List.exists_cons_of_ne_nil n.nonempty
  have hdecimal := n.decimal
  rw [Numeral.value, heq] at *
  rw [pyDigits, if_pos (hdecimal c (by simp)),
    PlainText.pyDigits_eq fun d hd => hdecimal d (by simp [hd])]
  rfl

theorem Numeral.scanDigits_eq (n : Numeral size) : scanDigits n.digits = some n.value := by
  rw [scanDigits, List.takeWhile_eq_self_iff.mpr n.decimal, if_neg n.nonempty]
  rfl

theorem pyInt_blank_append {gap : List Char} (hgap : ∀ c ∈ gap, pySpace c = true)
    (text : List Char) : pyInt (gap ++ text) = pyInt text := by
  rw [pyInt, pyInt, List.dropWhile_append_of_pos hgap]

theorem pyInt_append_blank {gap : List Char} (hgap : ∀ c ∈ gap, pySpace c = true)
    (text : List Char) : pyInt (text ++ gap) = pyInt text := by
  have hend (l : List Char) : (l ++ gap).rdropWhile pySpace = l.rdropWhile pySpace := by
    rw [List.rdropWhile, List.reverse_append, List.dropWhile_append_of_pos (by simpa using hgap)]
    rfl
  rw [pyInt, pyInt, List.dropWhile_append]
  split
  next hempty =>
    rw [List.dropWhile_eq_nil_iff.mpr hgap, List.isEmpty_iff.mp hempty]
  next => rw [hend]

theorem pyInt_solid {word : List Char} (moves : word ≠ []) (hword : ∀ c ∈ word, pySpace c = false) :
    pyInt word = signed (pyDigits 0 false) word := by
  have hstart := dropWhile_solid hword [] moves
  have hend := @dropWhile_solid pySpace word.reverse (by simpa using hword) []
    (by simpa using moves)
  rw [List.append_nil] at hstart hend
  rw [pyInt, hstart, List.rdropWhile, hend, List.reverse_reverse]

theorem Numeral.signed_eq (n : Numeral size) {read : List Char → Option Nat}
    (h : read n.digits = some n.value) : signed read n.digits = some (n.value : Int) := by
  obtain ⟨c, rest, heq⟩ := List.exists_cons_of_ne_nil n.nonempty
  have hc := isDigit_iff.mp (n.decimal c (by simp [heq]))
  rw [heq] at h ⊢
  rw [signed, h]
  · rfl
  · rintro _ hminus
    cases hminus
    exact absurd hc.1 (by decide)
  · rintro _ hplus
    cases hplus
    exact absurd hc.1 (by decide)

theorem Numeral.pyInt_eq (n : Numeral size) : pyInt n.digits = some (n.value : Int) := by
  rw [pyInt_solid n.nonempty fun c hc => isDigit_not_pySpace (n.decimal c hc)]
  exact n.signed_eq n.pyDigits_eq

theorem Numeral.pyInt_plus (n : Numeral size) : pyInt ('+' :: n.digits) = some (n.value : Int) := by
  have hsolid : ∀ c ∈ '+' :: n.digits, pySpace c = false := by
    intro c hc
    rcases List.mem_cons.mp hc with rfl | hc
    · decide
    · exact isDigit_not_pySpace (n.decimal c hc)
  rw [pyInt_solid (by simp) hsolid, signed, n.pyDigits_eq]
  rfl

theorem Numeral.scanPlus_eq (n : Numeral size) :
    scanPlus ('+' :: n.digits) = some (n.value : Int) :=
  n.signed_eq n.scanDigits_eq

end Numbers
end PlainText
