import Mathlib.Data.ZMod.Basic
import Mathlib.Tactic.LinearCombination
import Mathlib.Tactic.Ring

/-!
Checksum arithmetic: 16-bit words are added and the carries are added again, which makes
the sum one modulo 65535. Exchanging the bytes of a word multiplies it by 256, so a string
of bytes has the same value however it is cut into words. Nothing here knows which
protocol uses the sum.
-/

namespace OnesComplement

def fold (x : Nat) : Nat := x / 65536 + x % 65536

def swap (x : Nat) : Nat := x % 256 * 256 + x / 256 % 256

/-- The value of a string of bytes, the first byte of each word being the lower one. -/
def value : List UInt8 → ZMod 65535
  | [] => 0
  | b :: rest => b.toNat + 256 * value rest

theorem two_swaps : (256 : ZMod 65535) * 256 = 1 := by decide +kernel

theorem pow_mul_self (n : Nat) : (256 : ZMod 65535) ^ n * 256 ^ n = 1 := by
  rw [← mul_pow, two_swaps, one_pow]

theorem pow_even {n : Nat} (h : n % 2 = 0) : (256 : ZMod 65535) ^ n = 1 := by
  rw [← Nat.div_add_mod n 2, h, add_zero, pow_mul, pow_two, two_swaps, one_pow]

theorem pow_odd {n : Nat} (h : n % 2 = 1) : (256 : ZMod 65535) ^ n = 256 := by
  rw [← Nat.div_add_mod n 2, h, pow_succ, pow_mul, pow_two, two_swaps, one_pow, one_mul]

theorem carry : (65536 : ZMod 65535) = 1 := by decide +kernel

theorem fold_cast (x : Nat) : (fold x : ZMod 65535) = x := by
  have hsplit : (x : ZMod 65535) = ((65536 * (x / 65536) + x % 65536 : Nat) : ZMod 65535) := by
    rw [Nat.div_add_mod]
  rw [hsplit, fold]
  push_cast
  rw [carry, one_mul]

theorem fold_pos {x : Nat} (h : 0 < x) : 0 < fold x := by
  unfold fold
  omega

theorem fold_le {x : Nat} (h : x ≤ 131070) : fold x ≤ 65535 := by
  unfold fold
  omega

theorem fold_fold_le {x : Nat} (h : x < 4294967296) : fold (fold x) ≤ 65535 := by
  refine fold_le ?_
  unfold fold
  omega

theorem swap_cast {x : Nat} (h : x ≤ 65535) : (swap x : ZMod 65535) = 256 * x := by
  have hsplit : (x : ZMod 65535) = ((256 * (x / 256) + x % 256 : Nat) : ZMod 65535) := by
    rw [Nat.div_add_mod]
  have hhigh : x / 256 % 256 = x / 256 := Nat.mod_eq_of_lt (by omega)
  rw [hsplit, swap, hhigh]
  push_cast
  linear_combination (-(x / 256 : ℕ) : ZMod 65535) * two_swaps

theorem swap_le (x : Nat) : swap x ≤ 65535 := by
  unfold swap
  omega

theorem value_append (a b : List UInt8) :
    value (a ++ b) = value a + 256 ^ a.length * value b := by
  induction a with
  | nil => simp [value]
  | cons x a ih =>
      rw [List.cons_append, value, value, ih, List.length_cons]
      ring

theorem value_word (a b : UInt8) (rest : List UInt8) :
    value (a :: b :: rest) = ((a.toNat + 256 * b.toNat : Nat) : ZMod 65535) + value rest := by
  rw [value, value]
  push_cast
  linear_combination value rest * two_swaps

/-- There is one sum above zero for each value. -/
theorem eq_of_cast {x y : Nat} (hx : 0 < x) (hx' : x ≤ 65535) (hy : 0 < y) (hy' : y ≤ 65535)
    (h : (x : ZMod 65535) = y) : x = y := by
  have hmod := (ZMod.natCast_eq_natCast_iff' x y 65535).mp h
  omega

end OnesComplement
