import LwipDtn.PlanText
import Mathlib.Data.List.Forall2

/-!
The contact plan file as a whole. If the contacts between known nodes are in the documented
format then the two loaders read the same plan, unless another line looks like a contact; but
the address of one node does not lead back to its id.
-/

namespace LwipDtn
open PlainText Cgr

section Files

theorem cpLoadLine_newline (text : List Char) :
    cpLoadLine (text ++ ['\n']) = cpLoadLine text := by
  have hstart : (text ++ ['\n']).head? = some '#' ↔ text.head? = some '#' := by
    cases text <;> simp
  have hprefix : "a contact".toList.isPrefixOf (text ++ ['\n']) =
      "a contact".toList.isPrefixOf text := by
    rw [Bool.eq_iff_iff, List.isPrefixOf_iff_prefix, List.isPrefixOf_iff_prefix,
      List.prefix_concat_iff]
    refine or_iff_right fun heq => ?_
    have hmem : '\n' ∈ "a contact".toList := by
      rw [heq]
      simp
    exact absurd hmem (by decide)
  have hfields : (((text ++ ['\n']).splitOn ' ').drop 2).mapM pyInt =
      ((text.splitOn ' ').drop 2).mapM pyInt := by
    obtain ⟨init, last, htext, hconcat⟩ := splitOn_concat (show '\n' ≠ ' ' by decide) text
    have hlast : pyInt (last ++ ['\n']) = pyInt last :=
      pyInt_append_blank (by simp [pySpace, isSpace]) last
    rw [htext, hconcat, List.drop_append, List.drop_append, List.mapM_append, List.mapM_append]
    cases 2 - init.length with
    | zero => simp [hlast]
    | succ n => rfl
  rw [cpLoadLine, cpLoadLine, hprefix, hfields]
  simp only [hstart]

theorem PlanLine.cpLoadLine_eq (l : PlanLine) : cpLoadLine l.text = .ok l.read := by
  cases l with
  | other l => exact l.reads
  | contact l => exact l.cpLoadLine_eq

theorem PlanLine.plain (l : PlanLine) : '\n' ∉ l.text ∧ '\r' ∉ l.text := by
  cases l with
  | other l => exact ⟨fun h => (l.plain _ h).1 rfl, fun h => (l.plain _ h).2 rfl⟩
  | contact l => exact ⟨fun h => (l.text_plain h).1 rfl, fun h => (l.text_plain h).2.1 rfl⟩

theorem PlanFile.fgetsAll_eq (f : PlanFile) : fgetsAll 512 f.text =
    (f.lines.map fun x => x.1.text ++ carriage x.2 ++ ['\n']) ++
      if f.last.text = [] then [] else [f.last.text] := by
  have hlines : ∀ line ∈ f.lines.map (fun x => x.1.text ++ carriage x.2), '\n' ∉ line := by
    intro line hline hmem
    obtain ⟨x, -, rfl⟩ := List.mem_map.mp hline
    rcases List.mem_append.mp hmem with hmem | hmem
    · exact x.1.plain.1 hmem
    · revert hmem
      cases x.2 <;> simp [carriage]
  have fits : ∀ size, some 511 = some size →
      ∀ line ∈ f.last.text :: f.lines.map (fun x => x.1.text ++ carriage x.2),
        line.length < size := by
    rintro size ⟨⟩ line hline
    rcases List.mem_cons.mp hline with rfl | hline
    · exact f.lastShort
    · obtain ⟨x, hx, rfl⟩ := List.mem_map.mp hline
      exact f.short x hx
  have h := linesFrom_lines hlines f.last.plain.1 fits
  rw [List.flatMap_map, List.map_map] at h
  exact h

theorem PlanFile.readlines_eq (f : PlanFile) : readlines f.text =
    (f.lines.map fun x => x.1.text ++ ['\n']) ++
      if f.last.text = [] then [] else [f.last.text] := by
  have hnewlines (lines : List (PlanLine × Bool)) :
      universalNewlines
          ((lines.flatMap fun x => x.1.text ++ carriage x.2 ++ ['\n']) ++ f.last.text) =
        (lines.flatMap fun x => x.1.text ++ ['\n']) ++ f.last.text := by
    induction lines with
    | nil => simpa [universalNewlines] using universalNewlines_append f.last.plain.2 []
    | cons x lines ih =>
        obtain ⟨l, cr⟩ := x
        simp only [List.flatMap_cons, List.append_assoc] at ih ⊢
        rw [universalNewlines_append l.plain.2]
        cases cr with
        | false =>
            change _ ++ universalNewlines ('\n' :: _) = _
            rw [universalNewlines_cons (by decide)]
            exact congrArg (l.text ++ '\n' :: ·) ih
        | true =>
            change _ ++ universalNewlines ('\r' :: '\n' :: _) = _
            rw [universalNewlines]
            exact congrArg (l.text ++ '\n' :: ·) ih
  have hlines : ∀ line ∈ f.lines.map (fun x => x.1.text), '\n' ∉ line := by
    intro line hline
    obtain ⟨x, -, rfl⟩ := List.mem_map.mp hline
    exact x.1.plain.1
  have h := @linesFrom_lines none _ _ hlines f.last.plain.1 fun c hc => by cases hc
  rw [List.flatMap_map, List.map_map] at h
  rw [readlines, PlanFile.text, hnewlines]
  exact h

/-- The lines with what follows them in the file. -/
def PlanFile.raw (f : PlanFile) : List (PlanLine × List Char) :=
  f.lines.map (fun x => (x.1, carriage x.2 ++ ['\n'])) ++ [(f.last, [])]

theorem PlanFile.raw_lineEnd (f : PlanFile) : ∀ x ∈ f.raw, LineEnd x.2 := by
  intro x hx
  rcases List.mem_append.mp hx with hx | hx
  · obtain ⟨y, -, rfl⟩ := List.mem_map.mp hx
    exact .inr ⟨y.2, rfl⟩
  · cases List.mem_singleton.mp hx
    exact .inl rfl

theorem PlanFile.map_raw (f : PlanFile) : f.raw.map Prod.fst = f.all := by
  simp [raw, all]

theorem PlanFile.loadContactsFrom_eq (f : PlanFile) (baseTime : UInt32) :
    dtnRoutingLoadContactsFrom baseTime f.text =
      f.raw.filterMap fun x => loadContact baseTime (x.1.text ++ x.2) := by
  have hempty : loadContact baseTime [] = none := rfl
  rw [dtnRoutingLoadContactsFrom, f.fgetsAll_eq, raw, List.filterMap_append,
    List.filterMap_append, List.filterMap_map, List.filterMap_map]
  congr 1
  · simp
  · by_cases hlast : f.last.text = [] <;> simp [List.filterMap_cons, hlast, hempty]

theorem cpLoadLines_eq {maxContacts : Nat} {list : List (List Char × Option ReadContact)}
    (hlist : ∀ x ∈ list, cpLoadLine x.1 = .ok x.2) (contactPlan : List ReadContact)
    (few : contactPlan.length + (list.filterMap Prod.snd).length < maxContacts) :
    cpLoadLines maxContacts (list.map Prod.fst) contactPlan =
      .ok (contactPlan ++ list.filterMap Prod.snd) := by
  induction list generalizing contactPlan with
  | nil => simp [cpLoadLines]
  | cons x list ih =>
      have ih := fun plan => ih (fun y hy => hlist y (List.mem_cons_of_mem _ hy)) plan
      rw [List.map_cons, cpLoadLines, hlist x (by simp)]
      cases hread : x.2 with
      | none =>
          rw [List.filterMap_cons, hread] at few ⊢
          exact ih contactPlan few
      | some c =>
          rw [List.filterMap_cons, hread] at few ⊢
          have hlen : (contactPlan ++ [c]).length ≠ maxContacts := by
            rw [List.length_cons] at few
            rw [List.length_append, List.length_singleton]
            omega
          change (if _ then _ else _) = _
          rw [if_neg hlen, ih]
          · simp
          · rw [List.length_cons] at few
            rw [List.length_append, List.length_singleton]
            omega

theorem PlanFile.cp_load (f : PlanFile) (few : f.contacts.length < maxLength) :
    cpLoadFrom f.text = .ok f.contacts := by
  have hempty (h : f.last.text = []) : f.last.read = none := by
    have hread := f.last.cpLoadLine_eq
    rw [h] at hread
    exact (Except.ok.inj hread).symm
  let list : List (List Char × Option ReadContact) :=
    f.lines.map (fun x => (x.1.text ++ ['\n'], x.1.read)) ++
      if f.last.text = [] then [] else [(f.last.text, f.last.read)]
  have hlines : list.map Prod.fst = readlines f.text := by
    rw [f.readlines_eq, List.map_append, List.map_map]
    by_cases h : f.last.text = [] <;> simp [h, Function.comp_def]
  have hreads : list.filterMap Prod.snd = f.contacts := by
    rw [contacts, all, List.filterMap_append, List.filterMap_append, List.filterMap_map,
      List.filterMap_map]
    congr 1
    by_cases h : f.last.text = []
    · simp [h, hempty h]
    · simp [List.filterMap_cons, h]
  have hlist : ∀ x ∈ list, cpLoadLine x.1 = .ok x.2 := by
    intro x hx
    rcases List.mem_append.mp hx with hx | hx
    · obtain ⟨y, -, rfl⟩ := List.mem_map.mp hx
      exact (cpLoadLine_newline _).trans y.1.cpLoadLine_eq
    · by_cases h : f.last.text = []
      · rw [if_pos h] at hx
        cases hx
      · rw [if_neg h] at hx
        cases List.mem_singleton.mp hx
        exact f.last.cpLoadLine_eq
  rw [cpLoadFrom, ← hlines, cpLoadLines_eq hlist, hreads]
  · rfl
  · simpa [hreads] using few

end Files
section Agreement

/-- The contact of a line, for the list of contacts. -/
def ReadContact.info (baseTime : UInt32) (c : ReadContact) : Option ContactInfo := do
  let fromIp6 ← nodeidToIpv6 c.frm
  let toIp6 ← nodeidToIpv6 c.toNode
  return ⟨⟨toIp6, 0, noPadding⟩, ⟨fromIp6, 0, noPadding⟩, UInt32.ofInt c.start * 1000 + baseTime,
    UInt32.ofInt c.stop * 1000 + baseTime, true⟩

variable {baseTime : UInt32} {tail : List Char}

theorem ContactLine.loadContact_eq (l : ContactLine) (htail : LineEnd tail) :
    loadContact baseTime (l.text ++ tail) = l.read.info baseTime := by
  rw [loadContact, l.scanContact_eq htail]
  rfl

theorem ReadContact.known_eq (c : ReadContact) (baseTime : UInt32) :
    c.known = (c.info baseTime).isSome := by
  rw [known, info]
  cases nodeidToIpv6 c.frm <;> cases nodeidToIpv6 c.toNode <;> rfl

/-- The two loaders have read the same contact, and the addresses lead back to the nodes. -/
structure SameContact (baseTime : UInt32) (c : ReadContact) (info : ContactInfo) : Prop where
  frm : nodeidToIpv6 c.frm = some info.nextHop.addr
  toNode : nodeidToIpv6 c.toNode = some info.nodeAddr.addr
  start : ((info.startTimeMs - baseTime).toNat : Int) = c.start * 1000
  stop : ((info.endTimeMs - baseTime).toNat : Int) = c.stop * 1000
  frmBack : ipv6ToNodeid info.nextHop.addr = c.frm
  toNodeBack : ipv6ToNodeid info.nodeAddr.addr = c.toNode

/-- `cp_load` returns, and the contacts with known nodes are those that the C loader
appends, in order. -/
def LoadersAgree (baseTime : UInt32) (text : List Char) : Prop :=
  ∃ contacts, cpLoadFrom text = .ok contacts ∧
    List.Forall₂ (SameContact baseTime) (contacts.filter ReadContact.known)
      (dtnRoutingLoadContactsFrom baseTime text)

/-- The times of the contact fit into the clock, and it does not name the node whose address
has no id. -/
structure ReadContact.Fits (c : ReadContact) : Prop where
  start : c.start * 1000 < 2 ^ 32
  stop : c.stop * 1000 < 2 ^ 32
  frm : c.frm ≠ 10
  toNode : c.toNode ≠ 10

/-- A contact between known nodes fits, and another line does not look like a contact. -/
def PlanLine.Fits : PlanLine → Prop
  | .other l => l.Quiet
  | .contact l => l.read.known = true → l.read.Fits

/-- Only the address of node 10 does not lead back to its id. -/
theorem ipv6ToNodeid_nodeidToIpv6 {node : Int} {addr : Block 16}
    (h : nodeidToIpv6 node = some addr) : ipv6ToNodeid addr = node ↔ node ≠ 10 := by
  have hnode : node = 1 ∨ node = 10 ∨ node = 12 ∨ node = 21 ∨ node = 23 ∨ node = 32 := by
    refine Classical.byContradiction fun hno => ?_
    rw [nodeidToIpv6, if_neg (by omega), if_neg (by omega), if_neg (by omega), if_neg (by omega),
      if_neg (by omega), if_neg (by omega)] at h
    cases h
  obtain rfl | rfl | rfl | rfl | rfl | rfl := hnode <;> cases h <;> decide

theorem ofInt_mul_thousand (sec : Nat) : UInt32.ofInt sec * 1000 = UInt32.ofNat (sec * 1000) := by
  have hmod : ((sec : Int) % 2 ^ 32).toNat = sec % 2 ^ 32 := by omega
  rw [UInt32.ofInt, hmod, UInt32.ofNat_mod_size]
  simp

theorem loadedMs_iff (baseTime : UInt32) (sec : Nat) :
    ((UInt32.ofInt sec * 1000 + baseTime - baseTime).toNat : Int) = (sec : Int) * 1000 ↔
      (sec : Int) * 1000 < 2 ^ 32 := by
  rw [ofInt_mul_thousand, UInt32.add_sub_cancel, UInt32.toNat_ofNat']
  omega

theorem ContactLine.sameContact_iff {l : ContactLine} {info : ContactInfo}
    (h : l.read.info baseTime = some info) : SameContact baseTime l.read info ↔ l.read.Fits := by
  simp only [ReadContact.info, Option.bind_eq_bind, Option.bind_eq_some_iff] at h
  obtain ⟨fromIp6, hfrom, toIp6, hto, hinfo⟩ := h
  cases hinfo
  constructor
  · rintro ⟨-, -, hstart, hstop, hfrmBack, htoBack⟩
    exact ⟨(loadedMs_iff _ _).mp hstart, (loadedMs_iff _ _).mp hstop,
      (ipv6ToNodeid_nodeidToIpv6 hfrom).mp hfrmBack, (ipv6ToNodeid_nodeidToIpv6 hto).mp htoBack⟩
  · rintro ⟨hstart, hstop, hfrm, htoNode⟩
    exact ⟨hfrom, hto, (loadedMs_iff _ _).mpr hstart, (loadedMs_iff _ _).mpr hstop,
      (ipv6ToNodeid_nodeidToIpv6 hfrom).mpr hfrm, (ipv6ToNodeid_nodeidToIpv6 hto).mpr htoNode⟩

/-- The contacts with known nodes that a line gives to `cp_load`. -/
def PlanLine.knownReads (l : PlanLine) : List ReadContact :=
  l.read.toList.filter ReadContact.known

/-- The two loaders on one line: it gives a contact to none of them, to the C loader alone,
or to both. -/
theorem PlanLine.load_cases (l : PlanLine) (htail : LineEnd tail) :
    l.knownReads = [] ∧ loadContact baseTime (l.text ++ tail) = none ∧ l.Fits ∨
    l.knownReads = [] ∧ (∃ info, loadContact baseTime (l.text ++ tail) = some info) ∧ ¬ l.Fits ∨
    ∃ c info, l.knownReads = [c] ∧ loadContact baseTime (l.text ++ tail) = some info ∧
      (SameContact baseTime c info ↔ l.Fits) := by
  cases l with
  | other l =>
      have hreads : PlanLine.knownReads (.other l) = [] := by
        refine List.filter_eq_nil_iff.mpr fun c hc => ?_
        rw [l.unknown c (Option.mem_toList.mp hc)]
        decide
      have hquiet := l.loadContact_eq_none_iff baseTime htail
      cases hload : loadContact baseTime (l.text ++ tail) with
      | none => exact .inl ⟨hreads, hload, hquiet.mp hload⟩
      | some info =>
          refine .inr (.inl ⟨hreads, ⟨info, hload⟩, fun h => ?_⟩)
          cases hload.symm.trans (hquiet.mpr h)
  | contact l =>
      have hload := @ContactLine.loadContact_eq baseTime tail l htail
      have hknown := l.read.known_eq baseTime
      cases hinfo : l.read.info baseTime with
      | none =>
          rw [hinfo, Option.isSome_none] at hknown
          refine .inl ⟨?_, hload.trans hinfo, fun h => ?_⟩
          · simp [knownReads, read, hknown]
          · rw [hknown] at h
            cases h
      | some info =>
          rw [hinfo, Option.isSome_some] at hknown
          refine .inr (.inr ⟨l.read, info, ?_, hload.trans hinfo, ?_⟩)
          · simp [knownReads, read, hknown]
          · rw [ContactLine.sameContact_iff hinfo]
            exact ⟨fun h _ => h, fun h => h hknown⟩

variable {list : List (PlanLine × List Char)}

theorem length_knownReads_le (hends : ∀ x ∈ list, LineEnd x.2) :
    (list.flatMap fun x => x.1.knownReads).length ≤
      (list.filterMap fun x => loadContact baseTime (x.1.text ++ x.2)).length := by
  induction list with
  | nil => exact le_rfl
  | cons x list ih =>
      have ih := ih fun y hy => hends y (List.mem_cons_of_mem _ hy)
      rw [List.flatMap_cons, List.length_append]
      obtain ⟨hreads, hload, -⟩ | ⟨hreads, ⟨info, hload⟩, -⟩ | ⟨c, info, hreads, hload, -⟩ :=
        @PlanLine.load_cases baseTime x.2 x.1 (hends x (by simp))
      · rw [hreads, List.filterMap_cons, hload]
        simpa using ih
      · rw [hreads, List.filterMap_cons, hload]
        simpa using Nat.le_succ_of_le ih
      · rw [hreads, List.filterMap_cons, hload]
        simpa [Nat.add_comm] using ih

/-- A contact that only the C loader reads cannot be made up for by a later line. -/
theorem sameContacts_iff (hends : ∀ x ∈ list, LineEnd x.2) :
    List.Forall₂ (SameContact baseTime) (list.flatMap fun x => x.1.knownReads)
        (list.filterMap fun x => loadContact baseTime (x.1.text ++ x.2)) ↔
      ∀ x ∈ list, x.1.Fits := by
  induction list with
  | nil => simp
  | cons x list ih =>
      have hrest : ∀ y ∈ list, LineEnd y.2 := fun y hy => hends y (List.mem_cons_of_mem _ hy)
      rw [List.forall_mem_cons, ← ih hrest, List.flatMap_cons]
      obtain ⟨hreads, hload, hfits⟩ | ⟨hreads, ⟨info, hload⟩, hfits⟩ |
          ⟨c, info, hreads, hload, hfits⟩ :=
        @PlanLine.load_cases baseTime x.2 x.1 (hends x (by simp))
      · rw [hreads, List.filterMap_cons, hload]
        simp [hfits]
      · rw [hreads, List.filterMap_cons, hload]
        refine iff_of_false (fun h => ?_) fun h => hfits h.1
        have hlen := h.length_eq
        have hle := @length_knownReads_le baseTime list hrest
        rw [List.nil_append, List.length_cons] at hlen
        omega
      · rw [hreads, List.filterMap_cons, hload, ← hfits]
        exact List.forall₂_cons

/-- The contact in the plan that the routing starts from. -/
def ReadContact.plan (c : ReadContact) : PlanContact :=
  ⟨c.start.toNat, c.stop.toNat, c.frm.toNat, c.toNode.toNat, c.rate.toNat, c.owlt.toNat⟩

theorem nodeidToIpv6_toNat (node : Int) : nodeidToIpv6 node.toNat = nodeidToIpv6 node := by
  by_cases h : 0 ≤ node
  · rw [Int.toNat_of_nonneg h]
  · rw [Int.toNat_of_nonpos (by omega), nodeidToIpv6, nodeidToIpv6]
    simp only [show node ≠ 1 by omega, show node ≠ 10 by omega, show node ≠ 12 by omega,
      show node ≠ 21 by omega, show node ≠ 23 by omega, show node ≠ 32 by omega, if_false]
    rfl

theorem PlanFile.load_contacts (f : PlanFile) (baseTime : UInt32)
    (quiet : ∀ l, PlanLine.other l ∈ f.all → l.Quiet) :
    dtnRoutingLoadContactsFrom baseTime f.text =
      dtnRoutingLoadContacts baseTime (f.contacts.map ReadContact.plan) := by
  rw [f.loadContactsFrom_eq, contacts, ← f.map_raw, dtnRoutingLoadContacts, List.filterMap_map,
    List.filterMap_map, List.filterMap_filterMap]
  refine List.filterMap_congr fun x hx => ?_
  have hmem : x.1 ∈ f.all := f.map_raw ▸ List.mem_map_of_mem hx
  have hend := f.raw_lineEnd x hx
  obtain ⟨l, tail⟩ := x
  cases l with
  | other l =>
      refine ((l.loadContact_eq_none_iff baseTime hend).mpr (quiet l hmem)).trans ?_
      change _ = l.read.bind _
      cases hread : l.read with
      | none => rfl
      | some c =>
          have hknown := l.unknown c hread
          rw [ReadContact.known] at hknown
          simp only [Option.bind_some, Function.comp_apply, ReadContact.plan, nodeidToIpv6_toNat]
          cases hfrm : nodeidToIpv6 c.frm with
          | none => rfl
          | some fromIp6 =>
              cases hto : nodeidToIpv6 c.toNode with
              | none => rfl
              | some toIp6 =>
                  rw [hfrm, hto] at hknown
                  cases hknown
  | contact l =>
      refine (l.loadContact_eq hend).trans ?_
      change _ = (some l.read).bind _
      simp only [Option.bind_some, Function.comp_apply, ReadContact.plan, ReadContact.info,
        ContactLine.read, Int.toNat_natCast, ofInt_mul_thousand]

theorem PlanFile.knownReads_eq (f : PlanFile) :
    f.contacts.filter ReadContact.known = f.raw.flatMap fun x => x.1.knownReads := by
  rw [contacts, ← f.map_raw, List.filterMap_map, List.filterMap_eq_flatMap_toList,
    List.filter_flatMap]
  rfl

/-- Let the contacts between known nodes be in the documented format. Then the loaders agree
exactly if the times of these contacts are below 2^32 milliseconds, none of them names node 10,
and no other line looks like a contact. -/
theorem loaders_agree_iff (f : PlanFile) (baseTime : UInt32)
    (few : f.contacts.length < maxLength) :
    LoadersAgree baseTime f.text ↔ ∀ l ∈ f.all, l.Fits := by
  have hlines : (∀ l ∈ f.all, l.Fits) ↔ ∀ x ∈ f.raw, x.1.Fits := by
    rw [← f.map_raw, List.forall_mem_map]
  rw [hlines, ← @sameContacts_iff baseTime f.raw f.raw_lineEnd, ← f.knownReads_eq,
    ← f.loadContactsFrom_eq, LoadersAgree, f.cp_load few]
  simp

/-- A contact of the repository's plan, without node 10. -/
def sampleLine : ContactLine where
  suffix := []
  start := ⟨[], ⟨"00".toList, by simp, by simp, by simp⟩, [], by simp⟩
  stop := ⟨[], ⟨"100000".toList, by simp, by simp, by simp⟩, [], by simp⟩
  frm := ⟨[], ⟨"12".toList, by simp, by simp, by simp⟩, [], by simp⟩
  toNode := ⟨[], ⟨"21".toList, by simp, by simp, by simp⟩, [], by simp⟩
  rate := "1".toList
  owlt := "1".toList
  rateValue := 1
  owltValue := 1
  solid := nofun
  suffixShort := by simp
  rateInt := by decide
  owltInt := by decide
  plain := by simp [InField]

def sampleComment : OtherLine where
  text := "# 1-2".toList
  read := none
  plain := by simp
  reads := rfl
  unknown := nofun

def sampleFile : PlanFile where
  lines := [(.other sampleComment, false)]
  last := .contact sampleLine
  short := by decide
  lastShort := by decide

theorem loaders_agree_sample :
    LoadersAgree 7 "# 1-2\na contact +00 +100000 12 21 1 1".toList := by
  refine (loaders_agree_iff sampleFile 7 (by decide)).mpr fun l hl => ?_
  rcases List.mem_cons.mp hl with rfl | hl
  · exact .inl (by decide)
  · cases List.mem_singleton.mp hl
    intro _
    exact ⟨by decide, by decide, by decide, by decide⟩

def ownLine : List Char := "a contact +00 +100000 1 10 1 1\n".toList

/-- A directive that `cp_load` ignores. -/
def rangeLine : List Char := "a range +00 +100000 1 12 1\n".toList

/-- The address of node 10 does not lead back to it, and the C loader takes the directive
for a contact. -/
theorem loaders_disagree : ¬ LoadersAgree 0 ownLine ∧ ¬ LoadersAgree 0 rangeLine := by
  constructor
  · rintro ⟨contacts, hcontacts, hsame⟩
    have hread : cpLoadFrom ownLine = .ok [⟨0, 100000, 1, 10, 1, 1⟩] := by decide +kernel
    cases hread.symm.trans hcontacts
    obtain ⟨info, rest, hcontact, -, -⟩ := List.forall₂_cons_left_iff.mp hsame
    exact (@ipv6ToNodeid_nodeidToIpv6 10 _ hcontact.toNode).mp hcontact.toNodeBack rfl
  · rintro ⟨contacts, hcontacts, hsame⟩
    have hread : cpLoadFrom rangeLine = .ok [] := by decide +kernel
    have hloaded : (dtnRoutingLoadContactsFrom 0 rangeLine).length = 1 := by decide +kernel
    cases hread.symm.trans hcontacts
    rw [← hsame.length_eq] at hloaded
    cases hloaded

end Agreement
end LwipDtn
