import Mathlib.Data.Int.ModEq
import Mathlib.Tactic.Positivity
import Mathlib.Tactic.Ring

namespace Wrap

variable {w : ℕ} {a b : ℤ}

theorem bmod_eq_self_iff (a : ℤ) : a.bmod (2 ^ (w + 1)) = a ↔ -2 ^ w ≤ a ∧ a < 2 ^ w := by
  have hsplit : ((2 ^ (w + 1) : ℕ) : ℤ) = 2 * 2 ^ w := by
    push_cast
    ring
  constructor
  · intro h
    have hle := Int.le_bmod (x := a) (m := 2 ^ (w + 1)) (by positivity)
    have hlt := Int.bmod_lt (x := a) (m := 2 ^ (w + 1)) (by positivity)
    rw [h, hsplit] at hle hlt
    omega
  · intro ⟨hle, hlt⟩
    exact Int.bmod_eq_of_le_mul_two (by omega) (by omega)

theorem bmod_of_fit (h : -2 ^ w ≤ a ∧ a < 2 ^ w) : a.bmod (2 ^ (w + 1)) = a :=
  (bmod_eq_self_iff a).mpr h

theorem bmod_congr (h : a ≡ b [ZMOD 2 ^ w]) : a.bmod (2 ^ w) = b.bmod (2 ^ w) := by
  have hmod : a % ((2 ^ w : ℕ) : ℤ) = b % ((2 ^ w : ℕ) : ℤ) := by
    rwa [Nat.cast_pow, Nat.cast_ofNat]
  rw [Int.bmod_def, Int.bmod_def, hmod]

theorem bmod_modEq (w : ℕ) (a : ℤ) : a.bmod (2 ^ w) ≡ a [ZMOD 2 ^ w] := by
  have h : a.bmod (2 ^ w) % ((2 ^ w : ℕ) : ℤ) = a % ((2 ^ w : ℕ) : ℤ) := Int.bmod_emod
  rwa [Nat.cast_pow, Nat.cast_ofNat] at h

end Wrap

namespace Word

def add (a b : ℕ) : ℕ := (a + b) % 2 ^ 32

def sub (a b : ℕ) : ℕ := (a + (2 ^ 32 - b % 2 ^ 32)) % 2 ^ 32

def signed (a : ℕ) : ℤ := (a : ℤ).bmod (2 ^ 32)

theorem add_of_lt {a b : ℕ} (h : a + b < 2 ^ 32) : add a b = a + b := Nat.mod_eq_of_lt h

theorem sub_of_le {a b : ℕ} (hb : b ≤ a) (ha : a < 2 ^ 32) : sub a b = a - b := by
  rw [sub, Nat.mod_eq_of_lt (hb.trans_lt ha)]
  omega

@[simp] theorem sub_self {a : ℕ} (ha : a < 2 ^ 32) : sub a a = 0 := by
  rw [sub_of_le (le_refl a) ha, Nat.sub_self]

theorem signed_of_lt {a : ℕ} (h : a < 2 ^ 31) : signed a = a :=
  Int.bmod_eq_of_le (by omega) (by omega)

theorem signed_sub_pos_iff {a b : ℕ} (ha : a < 2 ^ 31) (hb : b < 2 ^ 31) :
    0 < signed (sub a b) ↔ b < a := by
  rcases Nat.lt_or_ge b a with h | h
  · rw [sub_of_le h.le (by omega), signed_of_lt (by omega)]
    omega
  · have hsub : ((sub a b : ℕ) : ℤ) = ((a : ℤ) - b) % ((2 ^ 32 : ℕ) : ℤ) := by
      have hb' : b % 2 ^ 32 = b := by omega
      simp only [sub, hb']
      omega
    have hmod : signed (sub a b) = (a : ℤ) - b :=
      calc signed (sub a b) = (((a : ℤ) - b) % ((2 ^ 32 : ℕ) : ℤ)).bmod (2 ^ 32) :=
            congrArg (fun z => Int.bmod z (2 ^ 32)) hsub
        _ = ((a : ℤ) - b).bmod (2 ^ 32) := Int.emod_bmod _ _
        _ = (a : ℤ) - b := Int.bmod_eq_of_le (by omega) (by omega)
    rw [hmod]
    omega

end Word
