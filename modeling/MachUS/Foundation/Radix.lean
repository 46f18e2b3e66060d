import Mathlib.Tactic.Linarith
import Mathlib.Tactic.Ring

namespace Radix

open Nat

variable {b : ℕ} {f g : ℕ → ℕ}

def value (b : ℕ) (f : ℕ → ℕ) (lo : ℕ) : ℕ → ℕ
  | 0 => 0
  | len + 1 => f lo * b ^ len + value b f (lo + 1) len

@[simp] theorem value_zero (lo : ℕ) : value b f lo 0 = 0 := rfl

theorem value_cons (lo len : ℕ) :
    value b f lo (len + 1) = f lo * b ^ len + value b f (lo + 1) len := rfl

@[simp] theorem value_one (lo : ℕ) : value b f lo 1 = f lo := by
  simp [value]

theorem value_append (lo m n : ℕ) :
    value b f lo (m + n) = value b f lo m * b ^ n + value b f (lo + m) n := by
  induction m generalizing lo with
  | zero => simp
  | succ m ih =>
    rw [show m + 1 + n = m + n + 1 by omega, value_cons, value_cons, ih (lo + 1), pow_add,
      show lo + 1 + m = lo + (m + 1) by omega]
    ring

theorem value_snoc (lo len : ℕ) : value b f lo (len + 1) = value b f lo len * b + f (lo + len) := by
  rw [value_append, value_one, pow_one]

theorem value_lt (hf : ∀ i, f i < b) (lo len : ℕ) : value b f lo len < b ^ len := by
  induction len generalizing lo with
  | zero => simp
  | succ len ih =>
    have hrest := ih (lo + 1)
    have htop : f lo + 1 ≤ b := hf lo
    have hmul : (f lo + 1) * b ^ len ≤ b * b ^ len := Nat.mul_le_mul_right _ htop
    rw [value_cons, pow_succ]
    linarith [mul_comm b (b ^ len)]

theorem value_congr {lo len : ℕ} (h : ∀ i, lo ≤ i → i < lo + len → f i = g i) :
    value b f lo len = value b g lo len := by
  induction len generalizing lo with
  | zero => rfl
  | succ len ih =>
    rw [value_cons, value_cons, h lo (le_refl _) (by omega)]
    rw [ih fun i hi hlt => h i (by omega) (by omega)]

theorem value_zeros {lo len : ℕ} (h : ∀ i, lo ≤ i → i < lo + len → f i = 0) :
    value b f lo len = 0 := by
  induction len generalizing lo with
  | zero => rfl
  | succ len ih =>
    rw [value_cons, h lo (le_refl _) (by omega), ih fun i hi hlt => h i (by omega) (by omega)]
    simp

theorem value_update_of_le {lo len i x : ℕ} (h : lo + len ≤ i) :
    value b (Function.update f i x) lo len = value b f lo len :=
  value_congr fun j _ hj => Function.update_of_ne (by omega) _ _

section Estimate

variable {p u u0 u1 u2 rest v v1 v2 tail q : ℕ}

theorem quotient_le_of_digits
    (hu : u = (u0 * b * b + u1 * b + u2) * p + rest) (hu2 : u2 < b) (hrest : rest < p)
    (hv : v = (v1 * b + v2) * p + tail) (hv1 : 0 < v1) : u / v ≤ (u0 * b + u1) / v1 := by
  rw [Nat.le_div_iff_mul_le hv1]
  have hge : v1 * b * p ≤ v := by
    rw [hv, add_mul, add_assoc]
    exact le_add_right _ _
  have hlow : u / v * v1 * (b * p) ≤ u := by
    calc u / v * v1 * (b * p) = u / v * (v1 * b * p) := by ring
      _ ≤ u / v * v := mul_le_mul_left _ hge
      _ ≤ u := div_mul_le_self u v
  have hhigh : u < (u0 * b + u1 + 1) * (b * p) := by
    rw [hu]
    calc (u0 * b * b + u1 * b + u2) * p + rest < (u0 * b * b + u1 * b + u2) * p + p := by omega
      _ = (u0 * b * b + u1 * b + (u2 + 1)) * p := by ring
      _ ≤ (u0 * b * b + u1 * b + b) * p := Nat.mul_le_mul_right _ (by omega)
      _ = (u0 * b + u1 + 1) * (b * p) := by ring
  exact Nat.lt_succ_iff.mp (Nat.lt_of_mul_lt_mul_right (hlow.trans_lt hhigh))

theorem quotient_lt_of_test (hvpos : 0 < v)
    (hu : u = (u0 * b * b + u1 * b + u2) * p + rest) (hrest : rest < p)
    (hv : v = (v1 * b + v2) * p + tail) (htest : u0 * b * b + u1 * b + u2 < q * (v1 * b + v2)) :
    u / v < q := by
  rw [div_lt_iff_lt_mul hvpos]
  calc u < (u0 * b * b + u1 * b + u2 + 1) * p := by
        rw [hu]
        linarith [add_mul (u0 * b * b + u1 * b + u2) 1 p]
    _ ≤ q * (v1 * b + v2) * p := Nat.mul_le_mul_right _ htest
    _ = q * ((v1 * b + v2) * p) := by ring
    _ ≤ q * v := mul_le_mul_left _ (by omega)

theorem le_quotient_of_test (hvpos : 0 < v)
    (hu : u = (u0 * b * b + u1 * b + u2) * p + rest)
    (hv : v = (v1 * b + v2) * p + tail) (htail : tail < p) (hv1 : 0 < v1) (hq : q < b)
    (htest : q * (v1 * b + v2) ≤ u0 * b * b + u1 * b + u2) : q ≤ u / v + 1 := by
  have hsmall : q * tail ≤ b * p := Nat.mul_le_mul hq.le htail.le
  have hlarge : b * p ≤ v := by
    rw [hv]
    nlinarith [Nat.mul_le_mul_right (b * p) (show 1 ≤ v1 from hv1), zero_le (v2 * p + tail)]
  have hmul : q * v ≤ u + v := by
    calc q * v = q * (v1 * b + v2) * p + q * tail := by
          rw [hv]
          ring
      _ ≤ (u0 * b * b + u1 * b + u2) * p + b * p :=
        Nat.add_le_add (Nat.mul_le_mul_right _ htest) hsmall
      _ ≤ u + v := by omega
  have hdiv : q ≤ (u + v) / v := (Nat.le_div_iff_mul_le hvpos).mpr hmul
  rwa [add_div_right _ hvpos] at hdiv

end Estimate

end Radix
