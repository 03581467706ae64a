import LwipDtn.Library.Outcome

/-!
Programs that keep count of the resources they hold. Such a program is related to one
that does not count: both return the same, and the number of live resources changes by an
amount that depends on what is returned. The rules follow the program text, so one
derivation shows that the count is only an addition and what it amounts to.
-/

namespace Ledger
open Outcome

variable {α β γ : Type}

abbrev Counted (α : Type) := StateT Int Run α

/-- A request for a resource, which may be refused. -/
def acquire (granted : Option α) : Counted (Option α) := do
  if granted.isSome then modify (· + 1)
  return granted

def release : Counted Unit := modify (· - 1)

/-- The program returns what the other one returns, and changes the number of live
resources by the given amount. -/
def Changes (x : Counted α) (y : Run α) (amount : α → Int) : Prop :=
  ∀ live, x.run live = y.map fun a => (a, live + amount a)

namespace Changes

variable {x : Counted α} {y : Run α} {d : α → Int}

theorem pure (a : α) (h : d a = 0) : Changes (Pure.pure a) (Pure.pure a) d := by
  intro live
  rw [StateT.run_pure, Run.pure_eq_ok, Run.pure_eq_ok, Except.map, h, Int.add_zero]

theorem error (e : Stuck) : Changes (throw e) (.error e) d := fun _ => rfl

theorem congr {d' : α → Int} (h : Changes x y d) (eq : ∀ a, y = .ok a → d a = d' a) :
    Changes x y d' := by
  intro live
  rw [h live]
  cases y with
  | error e => rfl
  | ok a => rw [Except.map, Except.map, eq a rfl]

theorem lift (h : ∀ a, y = .ok a → d a = 0) : Changes (liftM y) y d := by
  intro live
  cases y with
  | error e => rfl
  | ok a =>
      change Except.ok (a, live) = Except.ok (a, live + d a)
      rw [h a rfl, Int.add_zero]

theorem run_add {c : Int} (h : Changes x y fun a => d a - c) (live : Int) :
    x.run (live + c) = y.map fun a => (a, live + d a) := by
  rw [h (live + c)]
  congr 1
  funext a
  dsimp only
  rw [Int.add_assoc, Int.add_comm c, Int.sub_add_cancel]

theorem bind {f : α → Counted β} {g : α → Run β} {total : β → Int} (hx : Changes x y d)
    (hf : ∀ a, y = .ok a → Changes (f a) (g a) fun b => total b - d a) :
    Changes (x >>= f) (y >>= g) total := by
  intro live
  rw [StateT.run_bind, hx live]
  cases y with
  | error e => rfl
  | ok a => exact (hf a rfl).run_add live

theorem lift_bind {f : α → Counted β} {g : α → Run β} {total : β → Int}
    (hf : ∀ a, y = .ok a → Changes (f a) (g a) total) : Changes (liftM y >>= f) (y >>= g) total :=
  (lift (d := fun _ => 0) fun _ _ => rfl).bind fun a ha =>
    (hf a ha).congr fun _ _ => (Int.sub_zero _).symm

theorem release_bind {f : Unit → Counted α} (h : Changes (f ()) y fun a => d a + 1) :
    Changes (release >>= f) y d :=
  fun live => run_add (c := -1) (h.congr fun _ _ => (Int.sub_neg _ _).symm) live

theorem released : Changes release (Pure.pure ()) fun _ => -1 := fun _ => rfl

theorem idle_bind {z : Counted Unit} {f : Unit → Counted α}
    (hz : Changes z (Pure.pure ()) fun _ => 0) (hf : Changes (f ()) y d) :
    Changes (z >>= f) y d :=
  hz.bind (g := fun _ => y) fun _ _ => hf.congr fun _ _ => (Int.sub_zero _).symm

/-- A resource that is released once the result is there. -/
theorem then_release {total : α → Int} (h : Changes x y fun a => total a + 1) :
    Changes (do
      let a ← x
      release
      return a) y total := by
  have hbind : Changes (x >>= fun a => release >>= fun _ => Pure.pure a) (y >>= Pure.pure) total :=
    h.bind fun a _ => release_bind (.pure a (show total a - (total a + 1) + 1 = 0 by omega))
  rwa [bind_pure] at hbind

theorem acquire_bind {granted : Option β} {f : Option β → Counted α}
    (refused : granted = none → Changes (f none) y d)
    (held : ∀ b, granted = some b → Changes (f (some b)) y fun a => d a - 1) :
    Changes (acquire granted >>= f) y d := by
  intro live
  cases granted with
  | none => exact refused rfl live
  | some b => exact (held b rfl).run_add live

theorem ite {c : Prop} [Decidable c] {x' : Counted α} {y' : Run α} (yes : c → Changes x y d)
    (no : ¬ c → Changes x' y' d) : Changes (if c then x else x') (if c then y else y') d := by
  split
  · exact yes ‹c›
  · exact no ‹¬ c›

/-- What a counted run says about both. -/
theorem run_eq_ok (h : Changes x y d) {live live' : Int} {a : α} :
    x.run live = .ok (a, live') ↔ y = .ok a ∧ live' = live + d a := by
  rw [h live]
  cases y with
  | error e => exact ⟨nofun, fun hy => nomatch hy.1⟩
  | ok b =>
      rw [Except.map, Except.ok.injEq, Except.ok.injEq, Prod.mk.injEq]
      constructor
      · rintro ⟨rfl, rfl⟩
        exact ⟨rfl, rfl⟩
      · rintro ⟨rfl, rfl⟩
        exact ⟨rfl, rfl⟩

end Changes
end Ledger
