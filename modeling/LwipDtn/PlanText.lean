import LwipDtn.Cgr.NextHop
import LwipDtn.Library.PlainText

/-!
The two readers of the contact plan file, line by line. `dtn_routing_load_contacts` takes the
words of a line by their shape, and `cp_load` takes the fields of the lines that start with
`a contact`. On a line in the documented format they read the same contact.
-/

namespace LwipDtn
open PlainText Cgr

section Loaders

/-- A contact as `cp_load` reads it; the times are in seconds. -/
structure ReadContact where
  start : Int
  stop : Int
  frm : Int
  toNode : Int
  rate : Int
  owlt : Int
deriving DecidableEq

/-- The nodes of the contact have addresses. -/
def ReadContact.known (c : ReadContact) : Bool :=
  (nodeidToIpv6 c.frm).isSome && (nodeidToIpv6 c.toNode).isSome

def cpLoadLine (line : List Char) : Py (Option ReadContact) :=
  if line.head? = some '#' then .ok none
  else if !"a contact".toList.isPrefixOf line then .ok none
  else
    match ((line.splitOn ' ').drop 2).mapM pyInt with
    | some [start, stop, frm, toNode, rate, owlt] =>
        .ok (some ⟨start, stop, frm, toNode, rate, owlt⟩)
    | _ => .error .valueError

/-- The loop over the lines, which ends early when it has enough contacts. -/
def cpLoadLines (maxContacts : Nat) : List (List Char) → List ReadContact → Py (List ReadContact)
  | [], contactPlan => .ok contactPlan
  | line :: lines, contactPlan => do
      match ← cpLoadLine line with
      | none => cpLoadLines maxContacts lines contactPlan
      | some c =>
          if (contactPlan ++ [c]).length = maxContacts then .ok (contactPlan ++ [c])
          else cpLoadLines maxContacts lines (contactPlan ++ [c])

/-- `cp_load` on the text of the file. -/
def cpLoadFrom (text : List Char) : Py (List ReadContact) :=
  cpLoadLines maxLength (readlines text) []

structure ScannedContact where
  startSec : Int
  endSec : Int
  fromNode : Nat
  toNode : Nat
deriving DecidableEq

/-- A word of at most three digits. -/
def isNodeToken (tok : List Char) : Bool :=
  tok.length != 0 && tok.length ≤ 3 && tok.all Char.isDigit

def isTimeToken (tok : List Char) : Bool := tok.head? == some '+'

/-- The line up to a zero byte. -/
def cString (line : List Char) : List Char := line.takeWhile (· ≠ '\x00')

/-- The first two words with a plus are the times, and the first two words of at most three
digits are the nodes, wherever they stand. -/
def scanContact (line : List Char) : Option ScannedContact :=
  let p := (cString line).dropWhile isSpace
  if p = [] ∨ p.head? = some '#' then none
  else
    let tok := words 63 8 p
    if tok.length < 5 then none
    else
      match tok.filter isTimeToken, tok.filter isNodeToken with
      | startTok :: endTok :: _, fromTok :: toTok :: _ => do
          let startSec ← scanPlus startTok
          let endSec ← scanPlus endTok
          return ⟨startSec, endSec, decimal fromTok, decimal toTok⟩
      | _, _ => none

def loadContact (baseTime : UInt32) (line : List Char) : Option ContactInfo := do
  let c ← scanContact line
  let fromIp6 ← nodeidToIpv6 c.fromNode
  let toIp6 ← nodeidToIpv6 c.toNode
  return ⟨⟨toIp6, 0, noPadding⟩, ⟨fromIp6, 0, noPadding⟩, UInt32.ofInt c.startSec * 1000 + baseTime,
    UInt32.ofInt c.endSec * 1000 + baseTime, true⟩

/-- `dtn_routing_load_contacts` on the text of the file. -/
def dtnRoutingLoadContactsFrom (baseTime : UInt32) (text : List Char) : List ContactInfo :=
  (fgetsAll 512 text).filterMap (loadContact baseTime)

end Loaders

section Format

/-- A line in which `cp_load` finds no contact between known nodes. -/
structure OtherLine where
  text : List Char
  read : Option ReadContact
  plain : ∀ c ∈ text, c ≠ '\n' ∧ c ≠ '\r'
  reads : cpLoadLine text = .ok read
  unknown : ∀ c ∈ read, c.known = false

/-- Among the words are two times and the numbers of two nodes with addresses. -/
def OffersContact (tok : List (List Char)) : Prop :=
  5 ≤ tok.length ∧ ∃ startTok endTok times fromTok toTok nodes,
    tok.filter isTimeToken = startTok :: endTok :: times ∧
    tok.filter isNodeToken = fromTok :: toTok :: nodes ∧
    (scanPlus startTok).isSome ∧ (scanPlus endTok).isSome ∧
    (nodeidToIpv6 (decimal fromTok)).isSome ∧ (nodeidToIpv6 (decimal toTok)).isSome

/-- The line is a comment, or does not look like a contact. -/
def OtherLine.Quiet (l : OtherLine) : Prop :=
  ((cString l.text).dropWhile isSpace).head? = some '#' ∨
    ¬ OffersContact (words 63 8 (cString l.text))

def InField (c : Char) : Prop := c ≠ ' ' ∧ c ≠ '\n' ∧ c ≠ '\r' ∧ c ≠ '\x00'

/-- A number with white space around it. -/
structure Field (size : Nat) where
  before : List Char
  number : Numeral size
  after : List Char
  blank : ∀ c ∈ before ++ after, c = '\t' ∨ c = '\x0b' ∨ c = '\x0c'

/-- The field with a sign in front of its number. -/
def Field.text {size : Nat} (f : Field size) (sign : List Char) : List Char :=
  f.before ++ (sign ++ f.number.digits) ++ f.after

/-- A line `a contact +<start> +<end> <from> <to> <rate> <range>`. The word `contact` may be
longer, and rate and range are any texts that `int` takes. -/
structure ContactLine where
  suffix : List Char
  start : Field 62
  stop : Field 62
  frm : Field 3
  toNode : Field 3
  rate : List Char
  owlt : List Char
  rateValue : Int
  owltValue : Int
  solid : ∀ c ∈ suffix, isSpace c = false ∧ c ≠ '\x00'
  suffixShort : suffix.length ≤ 56
  rateInt : pyInt rate = some rateValue
  owltInt : pyInt owlt = some owltValue
  plain : ∀ c ∈ rate ++ owlt, InField c

def ContactLine.fields (l : ContactLine) : List (List Char) :=
  [['a'], "contact".toList ++ l.suffix, l.start.text ['+'], l.stop.text ['+'], l.frm.text [],
    l.toNode.text [], l.rate, l.owlt]

def ContactLine.text (l : ContactLine) : List Char := [' '].intercalate l.fields

def ContactLine.read (l : ContactLine) : ReadContact :=
  ⟨l.start.number.value, l.stop.number.value, l.frm.number.value, l.toNode.number.value,
    l.rateValue, l.owltValue⟩

inductive PlanLine where
  | other (line : OtherLine)
  | contact (line : ContactLine)

def PlanLine.text : PlanLine → List Char
  | .other l => l.text
  | .contact l => l.text

def PlanLine.read : PlanLine → Option ReadContact
  | .other l => l.read
  | .contact l => some l.read

/-- The carriage return that a line may have in front of its end. -/
def carriage (cr : Bool) : List Char := if cr then ['\r'] else []

/-- A file whose contacts between known nodes are in the documented format. The last line has
no end, and may be empty. -/
structure PlanFile where
  lines : List (PlanLine × Bool)
  last : PlanLine
  short : ∀ x ∈ lines, (x.1.text ++ carriage x.2).length < 511
  lastShort : last.text.length < 511

def PlanFile.text (f : PlanFile) : List Char :=
  (f.lines.flatMap fun x => x.1.text ++ carriage x.2 ++ ['\n']) ++ f.last.text

def PlanFile.all (f : PlanFile) : List PlanLine := f.lines.map Prod.fst ++ [f.last]

def PlanFile.contacts (f : PlanFile) : List ReadContact := f.all.filterMap PlanLine.read

end Format

section Others

variable {tail : List Char}

/-- What follows the text of a line in the file. -/
def LineEnd (tail : List Char) : Prop := tail = [] ∨ ∃ cr, tail = carriage cr ++ ['\n']

theorem LineEnd.blank (h : LineEnd tail) : ∀ c ∈ tail, isSpace c = true ∧ c ≠ '\x00' := by
  rcases h with rfl | ⟨cr, rfl⟩
  · nofun
  · cases cr <;> simp [carriage, isSpace]

theorem cString_eq_self {line : List Char} (h : '\x00' ∉ line) : cString line = line :=
  List.takeWhile_eq_self_iff.mpr fun _ hc => decide_eq_true fun heq => h (heq ▸ hc)

theorem cString_append (h : LineEnd tail) (text : List Char) :
    ∃ rest, cString (text ++ tail) = cString text ++ rest ∧ ∀ c ∈ rest, isSpace c = true := by
  rw [cString, List.takeWhile_append]
  split
  next hall =>
    refine ⟨cString tail, ?_, fun c hc => (h.blank c (List.takeWhile_subset _ hc)).1⟩
    rw [cString, (List.takeWhile_prefix _).eq_of_length hall]
    rfl
  next => exact ⟨[], by rw [List.append_nil]; rfl, nofun⟩

/-- The C loader takes a line for a contact exactly if it looks like one. -/
theorem loadContact_isSome_iff (baseTime : UInt32) (line : List Char) :
    (loadContact baseTime line).isSome = true ↔
      ((cString line).dropWhile isSpace).head? ≠ some '#' ∧
        OffersContact (words 63 8 (cString line)) := by
  rw [loadContact, scanContact, ← words_dropWhile 8 (cString line)]
  generalize (cString line).dropWhile isSpace = p
  dsimp only
  by_cases hcomment : p.head? = some '#'
  · simp [hcomment]
  by_cases hlong : (words 63 8 p).length < 5
  · have hno : ¬ OffersContact (words 63 8 p) := fun h => absurd h.1 (Nat.not_le_of_lt hlong)
    simp [hlong, hno]
  have hp : p ≠ [] := by
    rintro rfl
    exact hlong (by decide)
  rw [if_neg (by simp [hp, hcomment]), if_neg hlong, OffersContact]
  simp only [ne_eq, hcomment, not_false_eq_true, true_and, Nat.le_of_not_lt hlong]
  match (words 63 8 p).filter isTimeToken, (words 63 8 p).filter isNodeToken with
  | [], _ => simp
  | [_], _ => simp
  | _ :: _ :: _, [] => simp
  | _ :: _ :: _, [_] => simp
  | startTok :: endTok :: times, fromTok :: toTok :: nodes =>
      have hparts : (∃ startTok' endTok' times' fromTok' toTok' nodes',
          startTok :: endTok :: times = startTok' :: endTok' :: times' ∧
          fromTok :: toTok :: nodes = fromTok' :: toTok' :: nodes' ∧
          (scanPlus startTok').isSome ∧ (scanPlus endTok').isSome ∧
          (nodeidToIpv6 (decimal fromTok')).isSome ∧ (nodeidToIpv6 (decimal toTok')).isSome) ↔
          (scanPlus startTok).isSome ∧ (scanPlus endTok).isSome ∧
          (nodeidToIpv6 (decimal fromTok)).isSome ∧ (nodeidToIpv6 (decimal toTok)).isSome := by
        constructor
        · rintro ⟨_, _, _, _, _, _, ⟨⟩, ⟨⟩, h⟩
          exact h
        · exact fun h => ⟨_, _, _, _, _, _, rfl, rfl, h⟩
      rw [hparts]
      dsimp only
      cases scanPlus startTok with
      | none => simp
      | some startSec =>
          cases scanPlus endTok with
          | none => simp
          | some endSec =>
              change (Option.bind (nodeidToIpv6 (decimal fromTok)) fun _ =>
                Option.bind (nodeidToIpv6 (decimal toTok)) _).isSome = true ↔ _
              cases nodeidToIpv6 (decimal fromTok) with
              | none => simp
              | some fromIp6 => cases nodeidToIpv6 (decimal toTok) <;> simp

theorem OtherLine.loadContact_eq_none_iff (l : OtherLine) (baseTime : UInt32)
    (htail : LineEnd tail) : loadContact baseTime (l.text ++ tail) = none ↔ l.Quiet := by
  obtain ⟨rest, heq, hrest⟩ := cString_append htail l.text
  have hcomment : ((cString l.text ++ rest).dropWhile isSpace).head? = some '#' ↔
      ((cString l.text).dropWhile isSpace).head? = some '#' := by
    rw [List.dropWhile_append]
    cases (cString l.text).dropWhile isSpace with
    | nil => simp [List.dropWhile_eq_nil_iff.mpr hrest]
    | cons c p => simp
  rw [← Option.not_isSome_iff_eq_none, loadContact_isSome_iff, heq, words_append_blank 8 _ hrest,
    ne_eq, hcomment, not_and_or, not_not]
  rfl

end Others

section Contacts

variable {tail : List Char} {size : Nat}

theorem Field.blank_space (f : Field size) {c : Char} (hc : c ∈ f.before ++ f.after) :
    isSpace c = true ∧ InField c := by
  obtain rfl | rfl | rfl := f.blank c hc <;> simp [isSpace, InField]

theorem Field.mem_text (f : Field size) {sign : List Char} {c : Char} (hc : c ∈ f.text sign) :
    c ∈ f.before ++ f.after ∨ c ∈ sign ∨ c.isDigit = true := by
  simp only [Field.text, List.mem_append] at hc
  obtain (hc | hc | hc) | hc := hc
  · exact .inl (List.mem_append_left _ hc)
  · exact .inr (.inl hc)
  · exact .inr (.inr (f.number.decimal c hc))
  · exact .inl (List.mem_append_right _ hc)

theorem Field.inField (f : Field size) {sign : List Char} (hsign : ∀ c ∈ sign, InField c) :
    ∀ c ∈ f.text sign, InField c := by
  intro c hc
  obtain hc | hc | hc := f.mem_text hc
  · exact (f.blank_space hc).2
  · exact hsign c hc
  · have hdigit := isDigit_iff.mp hc
    refine ⟨?_, ?_, ?_, ?_⟩ <;> rintro rfl <;> exact absurd hdigit.1 (by decide)

theorem ContactLine.fields_plain (l : ContactLine) : ∀ w ∈ l.fields, ∀ c ∈ w, InField c := by
  have hplus : ∀ c ∈ ['+'], InField c := by simp [InField]
  have hword : ∀ c ∈ "contact".toList ++ l.suffix, InField c := by
    intro c hc
    rcases List.mem_append.mp hc with hc | hc
    · exact (by simp [InField] : ∀ c ∈ "contact".toList, InField c) c hc
    · obtain ⟨hsolid, hzero⟩ := l.solid c hc
      refine ⟨?_, ?_, ?_, hzero⟩ <;> rintro rfl <;> exact absurd hsolid (by decide)
  simp only [fields, List.forall_mem_cons]
  exact ⟨by simp [InField], hword, l.start.inField hplus, l.stop.inField hplus,
    l.frm.inField nofun, l.toNode.inField nofun,
    fun c hc => l.plain c (List.mem_append_left _ hc),
    fun c hc => l.plain c (List.mem_append_right _ hc), nofun⟩

theorem ContactLine.text_plain (l : ContactLine) {c : Char} (hc : c ∈ l.text) :
    c ≠ '\n' ∧ c ≠ '\r' ∧ c ≠ '\x00' := by
  obtain rfl | ⟨w, hw, hc⟩ := mem_intercalate hc
  · decide
  · exact (l.fields_plain w hw c hc).2

theorem Field.before_blank (f : Field size) : ∀ c ∈ ' ' :: f.before, isSpace c = true := by
  intro c hc
  rcases List.mem_cons.mp hc with rfl | hc
  · decide
  · exact (f.blank_space (List.mem_append_left _ hc)).1

theorem Field.after_blank (f : Field size) {gap : List Char}
    (hgap : ∀ c ∈ gap, isSpace c = true) : ∀ c ∈ f.after ++ gap, isSpace c = true := by
  intro c hc
  rcases List.mem_append.mp hc with hc | hc
  · exact (f.blank_space (List.mem_append_right _ hc)).1
  · exact hgap c hc

/-- The words of the line up to the nodes, with the white space behind them. -/
def ContactLine.spaced (l : ContactLine) : List (List Char × List Char) :=
  [(['a'], [' ']), ("contact".toList ++ l.suffix, ' ' :: l.start.before),
    ('+' :: l.start.number.digits, l.start.after ++ ' ' :: l.stop.before),
    ('+' :: l.stop.number.digits, l.stop.after ++ ' ' :: l.frm.before),
    (l.frm.number.digits, l.frm.after ++ ' ' :: l.toNode.before),
    (l.toNode.number.digits, l.toNode.after ++ [' '])]

theorem ContactLine.text_spaced (l : ContactLine) :
    l.text = (l.spaced.flatMap fun x => x.1 ++ x.2) ++ (l.rate ++ ' ' :: l.owlt) := by
  simp [text, fields, spaced, Field.text, List.intercalate]

theorem ContactLine.spaced_spaced (l : ContactLine) : ∀ x ∈ l.spaced, Spaced 63 x := by
  have hnode (f : Field 3) : IsWord 63 f.number.digits := f.number.isWord.mono (by decide)
  have hword : IsWord 63 ("contact".toList ++ l.suffix) := by
    refine ⟨by simp, fun c hc => ?_, ?_⟩
    · rcases List.mem_append.mp hc with hc | hc
      · exact (by simp [isSpace] : ∀ c ∈ "contact".toList, isSpace c = false) c hc
      · exact (l.solid c hc).1
    · have := l.suffixShort
      rw [List.length_append, show "contact".toList.length = 7 from rfl]
      omega
  simp only [spaced, List.forall_mem_cons]
  exact ⟨⟨⟨by simp, by simp [isSpace], by simp⟩, by simp, by simp [isSpace]⟩,
    ⟨hword, by simp, l.start.before_blank⟩,
    ⟨l.start.number.isWord_plus, by simp, l.start.after_blank l.stop.before_blank⟩,
    ⟨l.stop.number.isWord_plus, by simp, l.stop.after_blank l.frm.before_blank⟩,
    ⟨hnode l.frm, by simp, l.frm.after_blank l.toNode.before_blank⟩,
    ⟨hnode l.toNode, by simp, l.toNode.after_blank (by simp [isSpace])⟩, List.forall_mem_nil _⟩

theorem isTimeToken_digits {size : Nat} (m : Numeral size) : isTimeToken m.digits = false := by
  obtain ⟨c, rest, heq⟩ := List.exists_cons_of_ne_nil m.nonempty
  have hc := isDigit_iff.mp (m.decimal c (by simp [heq]))
  rw [heq, isTimeToken]
  refine beq_eq_false_iff_ne.mpr fun h => ?_
  cases h
  exact absurd hc.1 (by decide)

theorem isTimeToken_plus (rest : List Char) : isTimeToken ('+' :: rest) = true := rfl

theorem isNodeToken_plus (rest : List Char) : isNodeToken ('+' :: rest) = false := by
  rw [isNodeToken, List.all_cons, show Char.isDigit '+' = false by decide, Bool.false_and,
    Bool.and_false]

theorem isNodeToken_digits (m : Numeral 3) : isNodeToken m.digits = true := by
  have hall : m.digits.all Char.isDigit = true := List.all_eq_true.mpr m.decimal
  simp [isNodeToken, m.nonempty, m.short, hall]

theorem ContactLine.scanContact_eq (l : ContactLine) (htail : LineEnd tail) :
    scanContact (l.text ++ tail) = some ⟨l.start.number.value, l.stop.number.value,
      l.frm.number.value, l.toNode.number.value⟩ := by
  have hzero : '\x00' ∉ l.text ++ tail := by
    intro h
    rcases List.mem_append.mp h with h | h
    · exact (l.text_plain h).2.2 rfl
    · exact (htail.blank _ h).2 rfl
  have hp : (l.text ++ tail).dropWhile isSpace = l.text ++ tail := by
    rw [text_spaced]
    rfl
  have hstart : ¬ (l.text ++ tail = [] ∨ (l.text ++ tail).head? = some '#') := by
    rw [text_spaced]
    simp [spaced]
  have hwords : words 63 8 (l.text ++ tail) =
      l.spaced.map Prod.fst ++ words 63 2 (l.rate ++ ' ' :: l.owlt ++ tail) := by
    rw [text_spaced, List.append_assoc]
    exact words_spaced 2 l.spaced_spaced _
  generalize words 63 2 (l.rate ++ ' ' :: l.owlt ++ tail) = rest at hwords
  have hlen : ¬ (l.spaced.map Prod.fst ++ rest).length < 5 := by simp [spaced]
  have htimes : (l.spaced.map Prod.fst ++ rest).filter isTimeToken =
      ('+' :: l.start.number.digits) :: ('+' :: l.stop.number.digits) ::
        rest.filter isTimeToken := by
    rw [spaced, List.map_cons, List.map_cons, List.cons_append, List.cons_append,
      List.filter_cons_of_neg (by decide), List.filter_cons_of_neg (by simp [isTimeToken])]
    simp [List.filter_cons, isTimeToken_digits, isTimeToken_plus]
  have hnodes : (l.spaced.map Prod.fst ++ rest).filter isNodeToken =
      l.frm.number.digits :: l.toNode.number.digits :: rest.filter isNodeToken := by
    rw [spaced, List.map_cons, List.map_cons, List.cons_append, List.cons_append,
      List.filter_cons_of_neg (by decide), List.filter_cons_of_neg (by simp [isNodeToken])]
    simp [isNodeToken_plus, isNodeToken_digits]
  rw [scanContact, cString_eq_self hzero]
  dsimp only
  rw [hp, if_neg hstart, hwords, if_neg hlen, htimes, hnodes]
  dsimp only
  rw [l.start.number.scanPlus_eq, l.stop.number.scanPlus_eq]
  rfl

theorem ContactLine.cpLoadLine_eq (l : ContactLine) : cpLoadLine l.text = .ok (some l.read) := by
  have hstart : l.text.head? ≠ some '#' := by
    rw [text_spaced]
    simp [spaced]
  have hprefix : "a contact".toList.isPrefixOf l.text = true := by
    rw [text_spaced]
    rfl
  have hsplit : l.text.splitOn ' ' = l.fields := by
    refine List.splitOn_intercalate ' ' (fun w hw hblank => ?_) (by simp [fields])
    exact (l.fields_plain w hw ' ' hblank).1 rfl
  have hblank {size : Nat} (f : Field size) (c : Char) (hc : c ∈ f.before ++ f.after) :
      pySpace c = true := by
    rw [pySpace, (f.blank_space hc).1]
    rfl
  have hpad {size : Nat} (f : Field size) (sign : List Char) :
      pyInt (f.text sign) = pyInt (sign ++ f.number.digits) := by
    rw [Field.text, pyInt_append_blank fun c hc => hblank f c (List.mem_append_right _ hc),
      pyInt_blank_append fun c hc => hblank f c (List.mem_append_left _ hc)]
  have htime {size : Nat} (f : Field size) : pyInt (f.text ['+']) = some (f.number.value : Int) :=
    (hpad f _).trans f.number.pyInt_plus
  have hnode {size : Nat} (f : Field size) : pyInt (f.text []) = some (f.number.value : Int) :=
    (hpad f _).trans f.number.pyInt_eq
  have hfields : (l.fields.drop 2).mapM pyInt =
      some [(l.start.number.value : Int), l.stop.number.value, l.frm.number.value,
        l.toNode.number.value, l.rateValue, l.owltValue] := by
    simp [fields, List.mapM_cons, htime, hnode, l.rateInt, l.owltInt]
  rw [cpLoadLine, if_neg hstart, hprefix, if_neg (by decide), hsplit, hfields]
  rfl

end Contacts
end LwipDtn
