import MachUS.Foundation.Radix
import MachUS.Foundation.Word
import Mathlib.Data.Nat.Bitwise
import Mathlib.Data.UInt

namespace MachUS.Arith

open Function Nat

structure Dlong where
  d0 : UInt16
  d1 : UInt16
  d2 : UInt16
  d3 : UInt16
  deriving DecidableEq

namespace Dlong

open Radix

def dlongBase : ℕ := 65536

def d (x : Dlong) : ℕ → UInt16
  | 0 => x.d0
  | 1 => x.d1
  | 2 => x.d2
  | 3 => x.d3
  | _ => 0

def ofDigits (f : ℕ → UInt16) : Dlong := ⟨f 0, f 1, f 2, f 3⟩

def digits (f : ℕ → UInt16) (i : ℕ) : ℕ := (f i).toNat

def toNat (x : Dlong) : ℕ := value dlongBase (digits x.d) 0 4

def toInt (x : Dlong) : ℤ := (x.toNat : ℤ).bmod (2 ^ 64)

def carry (ac : UInt32) : UInt32 := ac >>> 16

def borrow (ac : UInt32) : UInt32 := if ac >>> 16 ≠ 0 then 1 else 0

def isneg (x : Dlong) : Bool := x.d0 &&& 0x8000 ≠ 0

def zero : Dlong := ⟨0, 0, 0, 0⟩

def intToDlong (n : Int32) : Dlong :=
  let ext := if n < 0 then 0xffff else 0
  ⟨ext, ext, (n >>> 16).toUInt32.toUInt16, n.toUInt32.toUInt16⟩

def uLongToDlong (n : UInt32) : Dlong := ⟨0, 0, (n >>> 16).toUInt16, n.toUInt16⟩

def dlongToInt (x : Dlong) : Int32 := (x.d2.toUInt32 * 65536 + x.d3.toUInt32).toInt32

def dlongAdd (x y : Dlong) : Dlong :=
  let ac3 := x.d3.toUInt32 + y.d3.toUInt32
  let ac2 := x.d2.toUInt32 + y.d2.toUInt32 + carry ac3
  let ac1 := x.d1.toUInt32 + y.d1.toUInt32 + carry ac2
  let ac0 := x.d0.toUInt32 + y.d0.toUInt32 + carry ac1
  ⟨ac0.toUInt16, ac1.toUInt16, ac2.toUInt16, ac3.toUInt16⟩

def dlongNeg (x : Dlong) : Dlong :=
  let ac3 := -x.d3.toUInt32
  let ac2 := -x.d2.toUInt32 - borrow ac3
  let ac1 := -x.d1.toUInt32 - borrow ac2
  let ac0 := -x.d0.toUInt32 - borrow ac1
  ⟨ac0.toUInt16, ac1.toUInt16, ac2.toUInt16, ac3.toUInt16⟩

def dlongSub (x y : Dlong) : Dlong :=
  let ac3 := x.d3.toUInt32 - y.d3.toUInt32
  let ac2 := x.d2.toUInt32 - y.d2.toUInt32 - borrow ac3
  let ac1 := x.d1.toUInt32 - y.d1.toUInt32 - borrow ac2
  let ac0 := x.d0.toUInt32 - y.d0.toUInt32 - borrow ac1
  ⟨ac0.toUInt16, ac1.toUInt16, ac2.toUInt16, ac3.toUInt16⟩

def mulRow (u : ℕ → UInt16) (j : ℕ) (vj : UInt32) : ℕ → (ℕ → UInt16) → UInt32 → ℕ → UInt16
  | 0, w, _ => w
  | iplusj + 1, w, k =>
    let t := (u (iplusj + 3 - j)).toUInt32 * vj + (w iplusj).toUInt32 + k
    mulRow u j vj iplusj (update w iplusj t.toUInt16) (t / 65536)

def mulRows (u v : ℕ → UInt16) : ℕ → (ℕ → UInt16) → ℕ → UInt16
  | 0, w => w
  | j + 1, w =>
    mulRows u v j (if v j = 0 then w else mulRow u j (v j).toUInt32 (j + 1) w 0)

def dlongMul (u v : Dlong) : Dlong :=
  let negative := isneg u ^^ isneg v
  let u := if isneg u then dlongNeg u else u
  let v := if isneg v then dlongNeg v else v
  let w := ofDigits (mulRows u.d v.d 4 zero.d)
  if negative then dlongNeg w else w

def cmpDigits (l1 l2 : ℕ → UInt16) (o1 o2 : ℕ) : ℕ → ℤ
  | 0 => 0
  | n + 1 => if l1 o1 ≠ l2 o2 then if l2 o2 < l1 o1 then 1 else -1
    else cmpDigits l1 l2 (o1 + 1) (o2 + 1) n

def dlongCmp (x y : Dlong) : ℤ :=
  if (x.d0 ^^^ y.d0) &&& 0x8000 ≠ 0 then if x.d0 &&& 0x8000 = 0 then 1 else -1
  else cmpDigits x.d y.d 0 0 4

def dlongCmpGteq (x y : Dlong) : Bool := dlongCmp x y ≥ 0

def dlongCmpGt (x y : Dlong) : Bool := dlongCmp x y > 0

def dlongCmpEq (x y : Dlong) : Bool := dlongCmp x y = 0

section Values

variable {x y : Dlong}

theorem digits_lt (f : ℕ → UInt16) (i : ℕ) : digits f i < dlongBase := (f i).toNat_lt

theorem toNat_eq (x : Dlong) :
    x.toNat = ((x.d0.toNat * 65536 + x.d1.toNat) * 65536 + x.d2.toNat) * 65536 + x.d3.toNat := by
  simp only [toNat, digits, value, dlongBase, d]
  omega

theorem toNat_lt (x : Dlong) : x.toNat < 2 ^ 64 := by
  have h := value_lt (b := dlongBase) (digits_lt x.d) 0 4
  rwa [show dlongBase ^ 4 = 2 ^ 64 by norm_num [dlongBase]] at h

theorem toNat_inj (h : x.toNat = y.toNat) : x = y := by
  have hx0 := x.d0.toNat_lt
  have hx1 := x.d1.toNat_lt
  have hx2 := x.d2.toNat_lt
  have hx3 := x.d3.toNat_lt
  have hy0 := y.d0.toNat_lt
  have hy1 := y.d1.toNat_lt
  have hy2 := y.d2.toNat_lt
  have hy3 := y.d3.toNat_lt
  rw [toNat_eq, toNat_eq] at h
  obtain ⟨x0, x1, x2, x3⟩ := x
  obtain ⟨y0, y1, y2, y3⟩ := y
  simp only [Dlong.mk.injEq, ← UInt16.toNat_inj] at *
  omega

theorem toInt_modEq (x : Dlong) : x.toInt ≡ x.toNat [ZMOD 2 ^ 64] := by
  have h : x.toInt % ((2 ^ 64 : ℕ) : ℤ) = x.toNat % ((2 ^ 64 : ℕ) : ℤ) := Int.bmod_emod
  rwa [cast_pow, cast_ofNat] at h

theorem toInt_of_modEq {a : ℤ} (h : (x.toNat : ℤ) ≡ a [ZMOD 2 ^ 64]) :
    x.toInt = a.bmod (2 ^ 64) := Wrap.bmod_congr h

theorem bmod_eq {n : ℕ} (hn : n < 2 ^ 64) :
    (n : ℤ).bmod (2 ^ 64) = if n < 2 ^ 63 then (n : ℤ) else (n : ℤ) - 2 ^ 64 := by
  rw [Int.bmod_def]
  push_cast
  split_ifs <;> omega

theorem toInt_eq (x : Dlong) :
    x.toInt = if x.toNat < 2 ^ 63 then (x.toNat : ℤ) else (x.toNat : ℤ) - 2 ^ 64 :=
  bmod_eq x.toNat_lt

theorem toInt_inj (h : x.toInt = y.toInt) : x = y := by
  have hx := x.toNat_lt
  have hy := y.toNat_lt
  rw [toInt_eq, toInt_eq] at h
  apply toNat_inj
  split_ifs at h <;> omega

theorem and_sign (a : UInt16) : a &&& 0x8000 = 0 ↔ a.toNat < 2 ^ 15 := by
  have hlt := a.toNat_lt
  have hand : (a &&& 0x8000).toNat = 2 ^ 15 * (a.toNat / 2 ^ 15 % 2) := by
    have h := and_two_pow a.toNat 15
    rw [UInt16.toNat_and, show (0x8000 : UInt16).toNat = 2 ^ 15 by decide, h, mul_comm,
      testBit_eq_decide_div_mod_eq]
    rcases mod_two_eq_zero_or_one (a.toNat / 2 ^ 15) with hbit | hbit <;> rw [hbit] <;> rfl
  rw [← UInt16.toNat_inj, hand]
  simp only [UInt16.toNat_zero]
  omega

theorem isneg_iff : isneg x = true ↔ x.toInt < 0 := by
  have h1 := x.d1.toNat_lt
  have h2 := x.d2.toNat_lt
  have h3 := x.d3.toNat_lt
  have hlt := x.toNat_lt
  have hsign := and_sign x.d0
  rw [isneg, decide_eq_true_iff, ne_eq, hsign, toInt_eq]
  rw [toNat_eq] at *
  split_ifs <;> omega

end Values

section Steps

variable {a b : UInt16} {c : UInt32}

theorem digit_carry (ac : UInt32) :
    ac.toUInt16.toNat + 65536 * (carry ac).toNat = ac.toNat ∧ ac.toUInt16.toNat < 65536 := by
  have hcarry : (carry ac).toNat = ac.toNat / 65536 := by
    rw [carry, UInt32.toNat_shiftRight]
    exact shiftRight_eq_div_pow _ 16
  have hdigit : ac.toUInt16.toNat = ac.toNat % 65536 := UInt32.toNat_toUInt16 ac
  omega

theorem add_step (hc : c.toNat ≤ 1) :
    (a.toUInt32 + b.toUInt32 + c).toNat = a.toNat + b.toNat + c.toNat := by
  have ha := a.toNat_lt
  have hb := b.toNat_lt
  rw [UInt32.toNat_add, UInt32.toNat_add, UInt16.toNat_toUInt32, UInt16.toNat_toUInt32]
  omega

theorem carry_le (hc : c.toNat ≤ 1) : (carry (a.toUInt32 + b.toUInt32 + c)).toNat ≤ 1 := by
  have ha := a.toNat_lt
  have hb := b.toNat_lt
  have hsplit := digit_carry (a.toUInt32 + b.toUInt32 + c)
  rw [add_step hc] at hsplit
  omega

theorem borrow_cases (ac : UInt32) :
    (borrow ac).toNat = 0 ∧ ac.toNat < 65536 ∨ (borrow ac).toNat = 1 ∧ 65536 ≤ ac.toNat := by
  have hshift : (ac >>> 16).toNat = ac.toNat / 65536 := by
    rw [UInt32.toNat_shiftRight]
    exact shiftRight_eq_div_pow _ 16
  rw [borrow]
  split_ifs with h
  · right
    rw [ne_eq, ← UInt32.toNat_inj, hshift] at h
    simp at h ⊢
    omega
  · left
    rw [not_not, ← UInt32.toNat_inj, hshift] at h
    simp at h ⊢
    omega

theorem sub_step (hc : c.toNat ≤ 1) :
    (a.toUInt32 - b.toUInt32 - c).toUInt16.toNat + b.toNat + c.toNat =
      a.toNat + 65536 * (borrow (a.toUInt32 - b.toUInt32 - c)).toNat := by
  have ha := a.toNat_lt
  have hb := b.toNat_lt
  have hsplit := UInt32.toNat_toUInt16 (a.toUInt32 - b.toUInt32 - c)
  have hborrow := borrow_cases (a.toUInt32 - b.toUInt32 - c)
  rw [UInt32.toNat_sub, UInt32.toNat_sub, UInt16.toNat_toUInt32, UInt16.toNat_toUInt32] at *
  omega

theorem borrow_le (ac : UInt32) : (borrow ac).toNat ≤ 1 := by
  have h := borrow_cases ac
  omega

end Steps

theorem dlongAdd_toNat (x y : Dlong) : (dlongAdd x y).toNat = (x.toNat + y.toNat) % 2 ^ 64 := by
  rw [toNat_eq, toNat_eq x, toNat_eq y]
  have h0 : (0 : UInt32).toNat ≤ 1 := by decide
  have e3 : x.d3.toUInt32 + y.d3.toUInt32 = x.d3.toUInt32 + y.d3.toUInt32 + 0 := (add_zero _).symm
  simp only [dlongAdd]
  rw [e3]
  set c3 := carry (x.d3.toUInt32 + y.d3.toUInt32 + 0) with hc3
  have l3 : c3.toNat ≤ 1 := carry_le h0
  set c2 := carry (x.d2.toUInt32 + y.d2.toUInt32 + c3) with hc2
  have l2 : c2.toNat ≤ 1 := carry_le l3
  set c1 := carry (x.d1.toUInt32 + y.d1.toUInt32 + c2) with hc1
  have l1 : c1.toNat ≤ 1 := carry_le l2
  have s3 := digit_carry (x.d3.toUInt32 + y.d3.toUInt32 + 0)
  have s2 := digit_carry (x.d2.toUInt32 + y.d2.toUInt32 + c3)
  have s1 := digit_carry (x.d1.toUInt32 + y.d1.toUInt32 + c2)
  have s0 := digit_carry (x.d0.toUInt32 + y.d0.toUInt32 + c1)
  rw [add_step h0, ← hc3, UInt32.toNat_zero] at s3
  rw [add_step l3, ← hc2] at s2
  rw [add_step l2, ← hc1] at s1
  rw [add_step l1] at s0
  omega

theorem dlongSub_toNat (x y : Dlong) :
    ((dlongSub x y).toNat : ℤ) ≡ x.toNat - y.toNat [ZMOD 2 ^ 64] := by
  rw [toNat_eq, toNat_eq x, toNat_eq y]
  have h0 : (0 : UInt32).toNat ≤ 1 := by decide
  have e3 : x.d3.toUInt32 - y.d3.toUInt32 = x.d3.toUInt32 - y.d3.toUInt32 - 0 := (sub_zero _).symm
  simp only [dlongSub]
  rw [e3]
  set c3 := borrow (x.d3.toUInt32 - y.d3.toUInt32 - 0) with hc3
  have l3 : c3.toNat ≤ 1 := borrow_le _
  set c2 := borrow (x.d2.toUInt32 - y.d2.toUInt32 - c3) with hc2
  have l2 : c2.toNat ≤ 1 := borrow_le _
  set c1 := borrow (x.d1.toUInt32 - y.d1.toUInt32 - c2) with hc1
  have l1 : c1.toNat ≤ 1 := borrow_le _
  have s3 := sub_step (a := x.d3) (b := y.d3) h0
  have s2 := sub_step (a := x.d2) (b := y.d2) l3
  have s1 := sub_step (a := x.d1) (b := y.d1) l2
  have s0 := sub_step (a := x.d0) (b := y.d0) l1
  rw [← hc3, UInt32.toNat_zero] at s3
  rw [← hc2] at s2
  rw [← hc1] at s1
  rw [Int.ModEq]
  push_cast
  omega

theorem dlongNeg_eq (x : Dlong) : dlongNeg x = dlongSub zero x := by
  simp [dlongNeg, dlongSub, zero]

section Product

variable {u v w : ℕ → UInt16} {j c : ℕ} {vj k : UInt32}

theorem digits_update (f : ℕ → UInt16) (i : ℕ) (x : UInt16) :
    digits (update f i x) = update (digits f) i x.toNat := by
  funext j
  rw [digits, update_apply, update_apply]
  split_ifs <;> rfl

theorem product_step {a b : UInt16} (hvj : vj.toNat < dlongBase) (hk : k.toNat < dlongBase) :
    (a.toUInt32 * vj + b.toUInt32 + k).toNat = a.toNat * vj.toNat + b.toNat + k.toNat ∧
      ((a.toUInt32 * vj + b.toUInt32 + k) / 65536).toNat < dlongBase := by
  have hb := b.toNat_lt
  have hmul : a.toNat * vj.toNat ≤ 65535 * 65535 :=
    Nat.mul_le_mul (Nat.le_of_lt_succ a.toNat_lt) (Nat.le_of_lt_succ hvj)
  rw [UInt32.toNat_div, UInt32.toNat_add, UInt32.toNat_add, UInt32.toNat_mul,
    UInt16.toNat_toUInt32, UInt16.toNat_toUInt32, show (65536 : UInt32).toNat = 65536 by decide]
  simp only [dlongBase] at hvj hk ⊢
  omega

theorem mulRow_of_le {i : ℕ} (h : c ≤ i) : mulRow u j vj c w k i = w i := by
  induction c generalizing w k with
  | zero => rfl
  | succ c ih =>
    simp only [mulRow]
    rw [ih (by omega), update_of_ne (by omega)]

theorem mulRow_value (hj : j ≤ 3) (hvj : vj.toNat < dlongBase) (hk : k.toNat < dlongBase) :
    value dlongBase (digits (mulRow u j vj c w k)) 0 c ≡
      value dlongBase (digits w) 0 c + vj.toNat * value dlongBase (digits u) (3 - j) c + k.toNat
        [MOD dlongBase ^ c] := by
  induction c generalizing w k with
  | zero => exact modEq_one
  | succ c ih =>
    obtain ⟨ht, hcarry⟩ := product_step (a := u (c + 3 - j)) (b := w c) hvj hk
    set t := (u (c + 3 - j)).toUInt32 * vj + (w c).toUInt32 + k with htdef
    have hrow : mulRow u j vj (c + 1) w k =
        mulRow u j vj c (update w c t.toUInt16) (t / 65536) := rfl
    have hlast : digits (mulRow u j vj (c + 1) w k) (0 + c) = t.toNat % dlongBase := by
      rw [hrow, digits, Nat.zero_add, mulRow_of_le (le_refl _), update_self]
      exact UInt32.toNat_toUInt16 t
    have hih := (ih (w := update w c t.toUInt16) hcarry).mul_right' dlongBase
    rw [digits_update, value_update_of_le (by omega), ← pow_succ] at hih
    have hdiv : (t / 65536).toNat = t.toNat / dlongBase := UInt32.toNat_div t 65536
    rw [value_snoc, value_snoc, value_snoc, hlast, hrow]
    refine (hih.add_right _).trans (congrArg (· % _) ?_)
    have hsplit : t.toNat / dlongBase * dlongBase + t.toNat % dlongBase = t.toNat := by
      rw [mul_comm]
      exact div_add_mod _ _
    rw [hdiv, add_mul, add_assoc, hsplit, ht, show c + 3 - j = 3 - j + c by omega, Nat.zero_add]
    simp only [digits]
    ring

theorem mulRow_product (hj : j ≤ 3) (hvj : vj.toNat < dlongBase) :
    value dlongBase (digits (mulRow u j vj (j + 1) w 0)) 0 4 ≡
      value dlongBase (digits w) 0 4 +
        value dlongBase (digits u) 0 4 * (vj.toNat * dlongBase ^ (3 - j)) [MOD dlongBase ^ 4] := by
  have hsplit (f : ℕ → ℕ) : value dlongBase f 0 4 =
      value dlongBase f 0 (j + 1) * dlongBase ^ (3 - j) + value dlongBase f (j + 1) (3 - j) := by
    have h := value_append (b := dlongBase) (f := f) 0 (j + 1) (3 - j)
    rwa [show j + 1 + (3 - j) = 4 by omega, Nat.zero_add] at h
  have hu := value_append (b := dlongBase) (f := digits u) 0 (3 - j) (j + 1)
  rw [show 3 - j + (j + 1) = 4 by omega, Nat.zero_add] at hu
  have hrest : value dlongBase (digits (mulRow u j vj (j + 1) w 0)) (j + 1) (3 - j) =
      value dlongBase (digits w) (j + 1) (3 - j) :=
    value_congr fun i hi _ => congrArg UInt16.toNat (mulRow_of_le hi)
  have hpow : dlongBase ^ (j + 1) * dlongBase ^ (3 - j) = dlongBase ^ 4 := by
    rw [← pow_add, show j + 1 + (3 - j) = 4 by omega]
  have hrow := (mulRow_value (u := u) (w := w) (c := j + 1) (k := 0) hj hvj (by decide)).mul_right'
    (dlongBase ^ (3 - j))
  rw [UInt32.toNat_zero, add_zero, hpow] at hrow
  rw [hsplit (digits (mulRow u j vj (j + 1) w 0)), hrest, hsplit (digits w), hu]
  refine (hrow.add_right _).trans ?_
  have hmul : value dlongBase (digits u) 0 (3 - j) * vj.toNat * dlongBase ^ 4 ≡ 0
      [MOD dlongBase ^ 4] := modEq_zero_iff_dvd.mpr (Dvd.intro_left _ rfl)
  have heq : (value dlongBase (digits w) 0 (j + 1) * dlongBase ^ (3 - j) +
      value dlongBase (digits w) (j + 1) (3 - j)) +
        (value dlongBase (digits u) 0 (3 - j) * dlongBase ^ (j + 1) +
          value dlongBase (digits u) (3 - j) (j + 1)) * (vj.toNat * dlongBase ^ (3 - j)) =
      ((value dlongBase (digits w) 0 (j + 1) +
        vj.toNat * value dlongBase (digits u) (3 - j) (j + 1)) * dlongBase ^ (3 - j) +
        value dlongBase (digits w) (j + 1) (3 - j)) +
        value dlongBase (digits u) 0 (3 - j) * vj.toNat * dlongBase ^ 4 := by
    rw [← hpow]
    ring
  rw [heq]
  exact hmul.symm.add_left _

theorem mulRows_product (hj : j ≤ 4) :
    value dlongBase (digits (mulRows u v j w)) 0 4 ≡
      value dlongBase (digits w) 0 4 +
        value dlongBase (digits u) 0 4 * (value dlongBase (digits v) 0 j * dlongBase ^ (4 - j))
          [MOD dlongBase ^ 4] := by
  induction j generalizing w with
  | zero => simp [mulRows, ModEq.refl]
  | succ j ih =>
    have hstep : value dlongBase (digits (if v j = 0 then w else
        mulRow u j (v j).toUInt32 (j + 1) w 0)) 0 4 ≡
          value dlongBase (digits w) 0 4 +
            value dlongBase (digits u) 0 4 * (digits v j * dlongBase ^ (3 - j))
              [MOD dlongBase ^ 4] := by
      split_ifs with hzero
      · simp [digits, hzero, ModEq.refl]
      · exact mulRow_product (by omega) (v j).toNat_lt
    rw [mulRows]
    refine (ih (by omega)).trans ((hstep.add_right _).trans (congrArg (· % _) ?_))
    rw [value_snoc (f := digits v) 0 j, Nat.zero_add, show 4 - (j + 1) = 3 - j by omega,
      show 4 - j = 3 - j + 1 by omega, pow_succ]
    ring

theorem mulRows_toNat (x y : Dlong) :
    (ofDigits (mulRows x.d y.d 4 zero.d)).toNat ≡ x.toNat * y.toNat [MOD 2 ^ 64] := by
  have h := mulRows_product (u := x.d) (v := y.d) (w := zero.d) (le_refl 4)
  have hzero : value dlongBase (digits zero.d) 0 4 = 0 := by simp [value, digits, zero, d]
  have hbase : dlongBase ^ 4 = 2 ^ 64 := by norm_num [dlongBase]
  rw [hzero, Nat.zero_add, Nat.sub_self, pow_zero, Nat.mul_one, hbase] at h
  exact h

end Product

section Order

variable {x y : Dlong}

theorem sign_sub_of_lt {a b : ℕ} (h : b < a) : ((a : ℤ) - b).sign = 1 :=
  Int.sign_eq_one_of_pos (by omega)

theorem sign_sub_of_gt {a b : ℕ} (h : a < b) : ((a : ℤ) - b).sign = -1 :=
  Int.sign_eq_neg_one_of_neg (by omega)

theorem value_lt_of_head {f g : ℕ → UInt16} {o p n : ℕ} (h : f o < g p) :
    value dlongBase (digits f) o (n + 1) < value dlongBase (digits g) p (n + 1) := by
  have hrest := value_lt (b := dlongBase) (digits_lt f) (o + 1) n
  have hmul : (digits f o + 1) * dlongBase ^ n ≤ digits g p * dlongBase ^ n :=
    mul_le_mul_right _ (UInt16.lt_iff_toNat_lt.mp h)
  rw [add_mul, one_mul] at hmul
  rw [value_cons, value_cons]
  omega

theorem cmpDigits_eq (l1 l2 : ℕ → UInt16) (o1 o2 n : ℕ) : cmpDigits l1 l2 o1 o2 n =
    ((value dlongBase (digits l1) o1 n : ℤ) - value dlongBase (digits l2) o2 n).sign := by
  induction n generalizing o1 o2 with
  | zero => rfl
  | succ n ih =>
    rw [cmpDigits]
    split_ifs with hne hlt
    · exact (sign_sub_of_lt (value_lt_of_head hlt)).symm
    · have hgt : l1 o1 < l2 o2 := by
        rw [ne_eq, ← UInt16.toNat_inj] at hne
        rw [UInt16.lt_iff_toNat_lt] at hlt ⊢
        omega
      exact (sign_sub_of_gt (value_lt_of_head hgt)).symm
    · have heq : digits l1 o1 = digits l2 o2 := congrArg UInt16.toNat (not_not.mp hne)
      rw [ih, value_cons, value_cons, heq]
      push_cast
      rw [add_sub_add_left_eq_sub]

theorem sign_cases (a : UInt16) : a &&& 0x8000 = 0 ∨ a &&& 0x8000 = 0x8000 := by
  rcases lt_or_ge a.toNat (2 ^ 15) with hlt | hge
  · exact Or.inl ((and_sign a).mpr hlt)
  · right
    have hand : (a &&& 0x8000).toNat = (a.toNat.testBit 15).toNat * 2 ^ 15 := by
      rw [UInt16.toNat_and, show (0x8000 : UInt16).toNat = 2 ^ 15 by decide, and_two_pow]
    have hne : a &&& 0x8000 ≠ 0 := fun h => absurd ((and_sign a).mp h) (not_lt.mpr hge)
    rw [← UInt16.toNat_inj, hand]
    rw [ne_eq, ← UInt16.toNat_inj, hand] at hne
    cases hbit : a.toNat.testBit 15 with
    | false => simp [hbit] at hne
    | true => rfl

theorem isneg_false_iff : x.d0 &&& 0x8000 = 0 ↔ 0 ≤ x.toInt := by
  have h := isneg_iff (x := x)
  rw [isneg, decide_eq_true_iff] at h
  rw [← not_iff_not, not_le]
  exact h

theorem dlongCmp_eq (x y : Dlong) : dlongCmp x y = (x.toInt - y.toInt).sign := by
  have hx := x.toNat_lt
  have hy := y.toNat_lt
  have hxor : (x.d0 ^^^ y.d0) &&& 0x8000 = (x.d0 &&& 0x8000) ^^^ (y.d0 &&& 0x8000) := by
    rw [← UInt16.toNat_inj]
    exact and_xor_distrib_right
  have hsame (h : 0 ≤ x.toInt ↔ 0 ≤ y.toInt) :
      cmpDigits x.d y.d 0 0 4 = (x.toInt - y.toInt).sign := by
    have heq : x.toInt - y.toInt = (x.toNat : ℤ) - y.toNat := by
      rw [toInt_eq, toInt_eq] at h ⊢
      split_ifs at h ⊢ <;> omega
    rw [cmpDigits_eq, heq]
    rfl
  rw [dlongCmp, hxor]
  rcases sign_cases x.d0 with h1 | h1 <;> rcases sign_cases y.d0 with h2 | h2
  · rw [if_neg (by rw [h1, h2]; decide)]
    exact hsame (iff_of_true (isneg_false_iff.mp h1) (isneg_false_iff.mp h2))
  · have hpos := isneg_false_iff.mp h1
    have hneg : ¬0 ≤ y.toInt := fun h => by simp [isneg_false_iff.mpr h] at h2
    rw [if_pos (by rw [h1, h2]; decide), if_pos h1, Int.sign_eq_one_of_pos (by omega)]
  · have hpos := isneg_false_iff.mp h2
    have hneg : ¬0 ≤ x.toInt := fun h => by simp [isneg_false_iff.mpr h] at h1
    rw [if_pos (by rw [h1, h2]; decide), if_neg (by rw [h1]; decide),
      Int.sign_eq_neg_one_of_neg (by omega)]
  · have hnegx : ¬0 ≤ x.toInt := fun h => by simp [isneg_false_iff.mpr h] at h1
    have hnegy : ¬0 ≤ y.toInt := fun h => by simp [isneg_false_iff.mpr h] at h2
    rw [if_neg (by rw [h1, h2]; decide)]
    exact hsame (iff_of_false hnegx hnegy)

end Order

section Wrapped

variable (x y : Dlong)

theorem dlongAdd_toInt : (dlongAdd x y).toInt = (x.toInt + y.toInt).bmod (2 ^ 64) := by
  refine toInt_of_modEq (Int.ModEq.trans ?_ ((toInt_modEq x).add (toInt_modEq y)).symm)
  rw [dlongAdd_toNat]
  push_cast
  exact Int.mod_modEq _ _

theorem dlongSub_toInt : (dlongSub x y).toInt = (x.toInt - y.toInt).bmod (2 ^ 64) :=
  toInt_of_modEq ((dlongSub_toNat x y).trans ((toInt_modEq x).sub (toInt_modEq y)).symm)

theorem dlongNeg_modEq : ((dlongNeg x).toNat : ℤ) ≡ -x.toNat [ZMOD 2 ^ 64] := by
  have h := dlongSub_toNat zero x
  rwa [← dlongNeg_eq, show zero.toNat = 0 by simp [toNat_eq, zero], cast_zero, zero_sub] at h

theorem dlongNeg_toInt : (dlongNeg x).toInt = (-x.toInt).bmod (2 ^ 64) :=
  toInt_of_modEq ((dlongNeg_modEq x).trans (toInt_modEq x).symm.neg)

theorem dlongMul_toInt : (dlongMul x y).toInt = (x.toInt * y.toInt).bmod (2 ^ 64) := by
  refine toInt_of_modEq (Int.ModEq.trans ?_ ((toInt_modEq x).mul (toInt_modEq y)).symm)
  have hprod (u v : Dlong) : ((ofDigits (mulRows u.d v.d 4 zero.d)).toNat : ℤ) ≡
      u.toNat * v.toNat [ZMOD 2 ^ 64] := by
    have h := (Int.natCast_modEq_iff).mpr (mulRows_toNat u v)
    rwa [cast_mul, cast_pow, cast_ofNat] at h
  have hx := dlongNeg_modEq x
  have hy := dlongNeg_modEq y
  rw [dlongMul]
  cases isneg x <;> cases isneg y
  · exact hprod x y
  · have h := (dlongNeg_modEq _).trans ((hprod x (dlongNeg y)).trans (hy.mul_left _)).neg
    rwa [mul_neg, neg_neg] at h
  · have h := (dlongNeg_modEq _).trans ((hprod (dlongNeg x) y).trans (hx.mul_right _)).neg
    rwa [neg_mul, neg_neg] at h
  · have h := (hprod (dlongNeg x) (dlongNeg y)).trans (hx.mul hy)
    rwa [neg_mul_neg] at h

end Wrapped

section Conversions

theorem toUInt32_toNat (n : Int32) : (n.toUInt32.toNat : ℤ) = n.toInt % 2 ^ 32 := by
  have h : n.toInt = (n.toUInt32.toNat : ℤ).bmod (2 ^ 32) := BitVec.toInt_eq_toNat_bmod n.toBitVec
  have hlt := n.toUInt32.toNat_lt
  have hmod := Int.bmod_emod (x := (n.toUInt32.toNat : ℤ)) (m := 2 ^ 32)
  rw [← h] at hmod
  push_cast at hmod
  omega

theorem shiftRight_toInt (n : Int32) : (n >>> 16).toInt = n.toInt / 65536 := by
  have h : (n >>> 16).toInt = n.toInt >>> (16 : ℕ) := BitVec.toInt_sshiftRight
  rw [h, Int.shiftRight_eq_div_pow]
  rfl

theorem toInt_range (n : Int32) : -2 ^ 31 ≤ n.toInt ∧ n.toInt < 2 ^ 31 :=
  ⟨n.le_toInt, n.toInt_lt⟩

theorem intToDlong_toInt (n : Int32) : (intToDlong n).toInt = n.toInt := by
  have hrange := toInt_range n
  have hlow := toUInt32_toNat n
  have hhigh := toUInt32_toNat (n >>> 16)
  rw [shiftRight_toInt] at hhigh
  have hneg : n < 0 ↔ n.toInt < 0 := Int32.lt_iff_toInt_lt
  rw [toInt_eq, toNat_eq]
  simp only [intToDlong, UInt32.toNat_toUInt16]
  by_cases h : n < 0
  · rw [if_pos h, show (0xffff : UInt16).toNat = 65535 by decide]
    rw [hneg] at h
    split_ifs <;> omega
  · rw [if_neg h, UInt16.toNat_zero]
    rw [hneg] at h
    split_ifs <;> omega

theorem uLongToDlong_toInt (n : UInt32) : (uLongToDlong n).toInt = n.toNat := by
  have hlt := n.toNat_lt
  have hshift : (n >>> 16).toNat = n.toNat / 65536 := by
    rw [UInt32.toNat_shiftRight]
    exact shiftRight_eq_div_pow _ 16
  rw [toInt_eq, toNat_eq]
  simp only [uLongToDlong, UInt32.toNat_toUInt16, hshift, UInt16.toNat_zero]
  split_ifs <;> omega

theorem dlongToInt_toInt {x : Dlong} (h : -2 ^ 31 ≤ x.toInt ∧ x.toInt < 2 ^ 31) :
    (dlongToInt x).toInt = x.toInt := by
  have hcast (y : UInt32) : y.toInt32.toInt = (y.toNat : ℤ).bmod (2 ^ 32) :=
    BitVec.toInt_eq_toNat_bmod y.toBitVec
  have hlow := toInt_modEq x
  rw [dlongToInt, hcast, ← Wrap.bmod_of_fit (w := 31) h]
  apply Wrap.bmod_congr
  have hword : (x.d2.toUInt32 * 65536 + x.d3.toUInt32).toNat = x.d2.toNat * 65536 + x.d3.toNat := by
    have h2 := x.d2.toNat_lt
    have h3 := x.d3.toNat_lt
    rw [UInt32.toNat_add, UInt32.toNat_mul, UInt16.toNat_toUInt32, UInt16.toNat_toUInt32,
      show (65536 : UInt32).toNat = 65536 by decide]
    omega
  rw [toNat_eq] at hlow
  rw [hword]
  rw [Int.ModEq] at hlow ⊢
  push_cast at hlow ⊢
  omega

theorem int32_of_small {i : ℕ} (h : i < 2 ^ 31) : (Int32.ofNat i).toInt = i := by
  rw [Int32.toInt_ofNat']
  exact Wrap.bmod_of_fit (w := 31) ⟨by omega, by omega⟩

theorem int32_neg {i : Int32} (h : -2 ^ 31 < i.toInt) : (-i).toInt = -i.toInt := by
  have hlt := i.toInt_lt
  rw [Int32.toInt_neg]
  exact Wrap.bmod_of_fit (w := 31) ⟨by omega, by omega⟩

end Conversions

end Dlong

end MachUS.Arith
