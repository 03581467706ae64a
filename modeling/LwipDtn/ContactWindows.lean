import LwipDtn.PlanLoaders

/-!
The windows of the contacts on the clock of the node. `dtn_routing_update_contacts` reports
the contacts that have opened since its last call, as far as it remembers their states, and
both it and the controller compare the clock directly with the ends of a window, which were
added to the clock at the start and can have wrapped.
-/

namespace LwipDtn
open PlainText Cgr

section Openings

/-- The contact is inside its window now and was outside at the call before; before the
first call every contact is outside. -/
def ContactInfo.Opens (c : ContactInfo) (before : Option UInt32) (now : UInt32) : Prop :=
  c.openAt now = true ∧ before.any c.openAt = false

instance (c : ContactInfo) (before : Option UInt32) (now : UInt32) :
    Decidable (c.Opens before now) := inferInstanceAs (Decidable (_ ∧ _))

/-- The static variables after calls at these times. -/
def statesAfter (contacts : List ContactInfo) (times : List UInt32) : ContactStates :=
  times.foldl (fun s now => (dtnRoutingUpdateContacts s contacts now).2) .initial

variable {contacts : List ContactInfo} {now : UInt32} {i : Nat} {ret : Bool}
  {states : Vector Bool maxContactStates}

theorem updateContactsFrom_cons {c : ContactInfo} (h : i < maxContactStates) :
    updateContactsFrom now i (c :: contacts) states ret =
      updateContactsFrom now (i + 1) contacts (states.set i (c.openAt now))
        (ret || c.openAt now && !states[i]) := by
  rw [updateContactsFrom, dif_pos h]
  dsimp only
  split
  · rename_i changed
    cases hopen : c.openAt now <;> cases hstate : states[i] <;> simp_all
  · rename_i same
    rw [not_not] at same
    have hset : states.set i (c.openAt now) = states := by
      rw [same]
      simp
    rw [hset, same]
    simp

theorem updateContactsFrom_full (h : maxContactStates ≤ i) :
    updateContactsFrom now i contacts states ret = (ret, states) := by
  cases contacts with
  | nil => rfl
  | cons c contacts => rw [updateContactsFrom, dif_neg (Nat.not_lt.mpr h)]

theorem updateContactsFrom_earlier {j : Nat} (hj : j < maxContactStates) (lt : j < i) :
    (updateContactsFrom now i contacts states ret).2[j] = states[j] := by
  induction contacts generalizing i states ret with
  | nil => rfl
  | cons c contacts ih =>
      by_cases hi : i < maxContactStates
      · rw [updateContactsFrom_cons hi, ih (Nat.lt_succ_of_lt lt),
          Vector.getElem_set_ne hi hj (by omega)]
      · simp only [updateContactsFrom_full (Nat.not_lt.mp hi)]

theorem updateContactsFrom_state {k : Nat} {c : ContactInfo} (hk : contacts[k]? = some c)
    (h : i + k < maxContactStates) :
    (updateContactsFrom now i contacts states ret).2[i + k] = c.openAt now := by
  induction contacts generalizing i k states ret with
  | nil => cases hk
  | cons d contacts ih =>
      have hi : i < maxContactStates := by omega
      simp only [updateContactsFrom_cons hi]
      cases k with
      | zero =>
          cases hk
          simp only [Nat.add_zero]
          rw [updateContactsFrom_earlier hi (Nat.lt_succ_self i), Vector.getElem_set_self]
      | succ k =>
          have hlater := @ih (i + 1) (ret || d.openAt now && !states[i])
            (states.set i (d.openAt now)) k hk (by omega)
          simp only [Nat.add_assoc, Nat.add_comm 1 k] at hlater
          exact hlater

theorem updateContactsFrom_ret :
    (updateContactsFrom now i contacts states ret).1 = true ↔ ret = true ∨
      ∃ k c, ∃ h : i + k < maxContactStates, contacts[k]? = some c ∧ c.openAt now = true ∧
        states[i + k] = false := by
  induction contacts generalizing i states ret with
  | nil => simp [updateContactsFrom]
  | cons d contacts ih =>
      by_cases hi : i < maxContactStates
      · rw [updateContactsFrom_cons hi, ih, Bool.or_eq_true, or_assoc]
        refine or_congr_right ?_
        constructor
        · rintro (hopens | ⟨k, c, h, hk, hopen, hstate⟩)
          · exact ⟨0, d, hi, rfl, by simpa using hopens⟩
          · refine ⟨k + 1, c, by omega, hk, hopen, ?_⟩
            rw [Vector.getElem_set_ne hi h (by omega)] at hstate
            simpa only [Nat.add_assoc, Nat.add_comm 1 k] using hstate
        · rintro ⟨k, c, h, hk, hopen, hstate⟩
          cases k with
          | zero =>
              cases hk
              simp only [Nat.add_zero] at hstate
              exact .inl (by rw [hopen, hstate]; rfl)
          | succ k =>
              refine .inr ⟨k, c, by omega, hk, hopen, ?_⟩
              rw [Vector.getElem_set_ne hi (by omega) (by omega)]
              simpa only [Nat.add_assoc, Nat.add_comm 1 k] using hstate
      · rw [updateContactsFrom_full (Nat.not_lt.mp hi)]
        refine ⟨.inl, fun h => h.resolve_right ?_⟩
        rintro ⟨k, c, h, -⟩
        omega

theorem statesAfter_state {times : List UInt32} {c : ContactInfo} (hi : i < maxContactStates)
    (hc : contacts[i]? = some c) :
    (statesAfter contacts times).lastActiveStates[i] = times.getLast?.any c.openAt := by
  induction times using List.reverseRecOn with
  | nil => exact Vector.getElem_replicate _
  | append_singleton times t ih =>
      rw [statesAfter, List.foldl_append, List.getLast?_concat]
      have hstate := @updateContactsFrom_state contacts t 0 false
        (statesAfter contacts times).lastActiveStates i c hc (by omega)
      simp only [Nat.zero_add] at hstate
      exact hstate

theorem updateContacts_ret (times : List UInt32) :
    (dtnRoutingUpdateContacts (statesAfter contacts times) contacts now).1 = true ↔
      ∃ c ∈ contacts.take maxContactStates, c.Opens times.getLast? now := by
  have hret := @updateContactsFrom_ret contacts now 0 false
    (statesAfter contacts times).lastActiveStates
  simp only [Nat.zero_add, Bool.false_eq_true, false_or] at hret
  refine hret.trans ?_
  constructor
  · rintro ⟨k, c, hk, hc, hopen, hstate⟩
    refine ⟨c, List.mem_of_getElem? (i := k) ?_, hopen, ?_⟩
    · rw [List.getElem?_take_of_lt hk, hc]
    · rwa [statesAfter_state hk hc] at hstate
  · rintro ⟨c, hmem, hopen, hclosed⟩
    obtain ⟨k, hk, rfl⟩ := List.mem_take_iff_getElem.mp hmem
    have hlt : k < maxContactStates := Nat.lt_of_lt_of_le hk (Nat.min_le_left _ _)
    have hc := List.getElem?_eq_getElem (Nat.lt_of_lt_of_le hk (Nat.min_le_right _ _))
    refine ⟨k, _, hlt, hc, hopen, ?_⟩
    rw [statesAfter_state hlt hc, hclosed]

end Openings

/-- A call reports exactly the openings if an opening of a contact whose state is not
remembered coincides with one of a contact whose state is. -/
theorem opening_reported_iff (contacts : List ContactInfo) (times : List UInt32) (now : UInt32) :
    ((dtnRoutingUpdateContacts (statesAfter contacts times) contacts now).1 = true ↔
        ∃ c ∈ contacts, c.Opens times.getLast? now) ↔
      ((∃ c ∈ contacts.drop maxContactStates, c.Opens times.getLast? now) →
        ∃ c ∈ contacts.take maxContactStates, c.Opens times.getLast? now) := by
  have hall : (∃ c ∈ contacts, c.Opens times.getLast? now) ↔
      (∃ c ∈ contacts.take maxContactStates, c.Opens times.getLast? now) ∨
        ∃ c ∈ contacts.drop maxContactStates, c.Opens times.getLast? now := by
    rw [← exists_or]
    simp only [← or_and_right, ← List.mem_append, List.take_append_drop]
  rw [updateContacts_ret, hall]
  exact ⟨fun h late => h.mpr (.inr late), fun h => ⟨.inl, fun hopens => hopens.elim id h⟩⟩

def crowdedPlan : List ContactInfo :=
  List.replicate 100
    ⟨⟨netAddr 0x12 1, 0, noPadding⟩, ⟨netAddr 0x01 2, 0, noPadding⟩, 10000, 20000, true⟩ ++
    [⟨⟨netAddr 0x12 2, 0, noPadding⟩, ⟨netAddr 0x01 2, 0, noPadding⟩, 1000, 5000, true⟩]

/-- It opens between two calls, and the second call reports nothing. -/
theorem opening_missed :
    (dtnRoutingUpdateContacts (statesAfter crowdedPlan [0]) crowdedPlan 2000).1 = false ∧
      ∃ c ∈ crowdedPlan, c.Opens (some 0) 2000 := by
  decide +kernel

section Windows

/-- The time in milliseconds since the start is in the window of the contact. -/
def ScannedContact.Inside (sc : ScannedContact) (elapsed : Nat) : Prop :=
  sc.startSec * 1000 ≤ elapsed ∧ elapsed ≤ sc.endSec * 1000

/-- The clock wraps between the two ends of the window. -/
def ScannedContact.WrapsInside (sc : ScannedContact) (baseTime : UInt32) : Prop :=
  baseTime.toNat + sc.startSec * 1000 < 2 ^ 32 ∧ 2 ^ 32 ≤ baseTime.toNat + sc.endSec * 1000

/-- Both functions that look at the window of a contact take it for active at this reading
of the clock exactly if `inside` holds. -/
def ActiveIff (c : ContactInfo) (now : UInt32) (inside : Prop) : Prop :=
  (∀ states contacts i, ∀ h : i < maxContactStates, contacts[i]? = some c →
    ((dtnRoutingUpdateContacts states contacts now).2.lastActiveStates[i] = true ↔ inside)) ∧
  (isNextHopActiveContact [c] now c.nodeAddr = true ↔ inside)

variable {baseTime now : UInt32} {c : ContactInfo} {sc : ScannedContact} {inside : Prop}

theorem activeIff_iff : ActiveIff c now inside ↔ (c.openAt now = true ↔ inside) := by
  have hop : isNextHopActiveContact [c] now c.nodeAddr = c.openAt now := by
    simp [isNextHopActiveContact]
  rw [ActiveIff, hop]
  refine and_iff_right_of_imp fun hopen states contacts i hi hc => ?_
  have hstate := @updateContactsFrom_state contacts now 0 false states.lastActiveStates i c hc
    (by omega)
  simp only [Nat.zero_add] at hstate
  rw [← hopen, ← hstate]
  rfl

theorem loaded_ms {sec : Int} (nonneg : 0 ≤ sec) (fits : sec * 1000 < 2 ^ 31) :
    ((UInt32.ofInt sec * 1000 + baseTime).toNat : Int) =
      (baseTime.toNat + sec * 1000) % 2 ^ 32 := by
  obtain ⟨n, rfl⟩ := Int.eq_ofNat_of_zero_le nonneg
  rw [ofInt_mul_thousand, UInt32.toNat_add, UInt32.toNat_ofNat']
  omega

/-- A window over which the clock wraps is empty, and any other is as it should be. -/
theorem loaded_openAt_iff {line : List Char} (scanned : scanContact line = some sc)
    (loaded : loadContact baseTime line = some c) (start : 0 ≤ sc.startSec)
    (stop : sc.startSec ≤ sc.endSec) (fits : sc.endSec * 1000 < 2 ^ 31) {elapsed : Nat}
    (recent : elapsed < 2 ^ 31) :
    c.openAt (.ofNat (baseTime.toNat + elapsed)) = true ↔
      sc.Inside elapsed ∧ ¬ sc.WrapsInside baseTime := by
  simp only [loadContact, scanned, Option.bind_eq_bind, Option.bind_some,
    Option.bind_eq_some_iff] at loaded
  obtain ⟨fromIp6, -, toIp6, -, loaded⟩ := loaded
  cases loaded
  have hstart := @loaded_ms baseTime _ start (by omega)
  have hstop := @loaded_ms baseTime _ (start.trans stop) fits
  have hbase := baseTime.toNat_lt
  rw [ContactInfo.openAt, Bool.and_eq_true, decide_eq_true_eq, decide_eq_true_eq,
    UInt32.le_iff_toNat_le, UInt32.le_iff_toNat_le, UInt32.toNat_ofNat',
    ScannedContact.Inside, ScannedContact.WrapsInside]
  dsimp only
  generalize (UInt32.ofInt sc.startSec * 1000 + baseTime).toNat = s at *
  generalize (UInt32.ofInt sc.endSec * 1000 + baseTime).toNat = e at *
  omega

end Windows

/-- A loaded contact is taken for active in its window and only there, unless the clock
wraps inside the window and the time is in it. -/
theorem window_survives_wrap_iff (baseTime : UInt32) (line : List Char) (sc : ScannedContact)
    (c : ContactInfo) (scanned : scanContact line = some sc)
    (loaded : loadContact baseTime line = some c) (start : 0 ≤ sc.startSec)
    (stop : sc.startSec ≤ sc.endSec) (fits : sc.endSec * 1000 < 2 ^ 31) (elapsed : Nat)
    (recent : elapsed < 2 ^ 31) :
    ActiveIff c (.ofNat (baseTime.toNat + elapsed)) (sc.Inside elapsed) ↔
      ¬ (sc.WrapsInside baseTime ∧ sc.Inside elapsed) := by
  rw [activeIff_iff, loaded_openAt_iff scanned loaded start stop fits recent]
  refine ⟨fun h ⟨wraps, inside⟩ => (h.mpr inside).2 wraps, fun h => ⟨And.left, fun inside => ?_⟩⟩
  exact ⟨inside, fun wraps => h ⟨wraps, inside⟩⟩

def tenSeconds : List Char := "a contact +0 +10 10 12 1 0".toList

theorem window_survives_wrap_early :
    ∃ c, loadContact 5 tenSeconds = some c ∧
      ActiveIff c (.ofNat (5 + 3000)) (ScannedContact.Inside ⟨0, 10, 10, 12⟩ 3000) := by
  refine ⟨_, rfl, ?_⟩
  refine (window_survives_wrap_iff 5 tenSeconds ⟨0, 10, 10, 12⟩ _ rfl rfl (by decide) (by decide)
    (by decide) 3000 (by decide)).mpr ?_
  rintro ⟨⟨-, wraps⟩, -⟩
  exact absurd wraps (by decide)

/-- The clock wraps one second after the start; a second later the contact is not active. -/
theorem window_lost_at_wrap :
    ∃ c, loadContact 4294966296 tenSeconds = some c ∧
      scanContact tenSeconds = some ⟨0, 10, 10, 12⟩ ∧
      ScannedContact.Inside ⟨0, 10, 10, 12⟩ 2000 ∧
      isNextHopActiveContact [c] (.ofNat (4294966296 + 2000)) c.nodeAddr = false ∧
      (dtnRoutingUpdateContacts .initial [c] (.ofNat (4294966296 + 2000))).1 = false := by
  refine ⟨_, rfl, rfl, ?_, rfl, rfl⟩
  exact ⟨by decide, by decide⟩

end LwipDtn
