import MachUS.Dlong.Arithmetic

namespace MachUS.Arith.Dlong

open Function

abbrev Vars (L : Type) := L → Dlong

namespace Vars

variable {L : Type} [DecidableEq L] (m : Vars L) (result x y : L)

def put0 (a : UInt16) : Vars L := update m result { m result with d0 := a }

def put1 (a : UInt16) : Vars L := update m result { m result with d1 := a }

def put2 (a : UInt16) : Vars L := update m result { m result with d2 := a }

def put3 (a : UInt16) : Vars L := update m result { m result with d3 := a }

def dlongAdd : Vars L :=
  let ac3 := (m x).d3.toUInt32 + (m y).d3.toUInt32
  let m3 := m.put3 result ac3.toUInt16
  let ac2 := (m3 x).d2.toUInt32 + (m3 y).d2.toUInt32 + carry ac3
  let m2 := m3.put2 result ac2.toUInt16
  let ac1 := (m2 x).d1.toUInt32 + (m2 y).d1.toUInt32 + carry ac2
  let m1 := m2.put1 result ac1.toUInt16
  m1.put0 result ((m1 x).d0.toUInt32 + (m1 y).d0.toUInt32 + carry ac1).toUInt16

def dlongNeg : Vars L :=
  let ac3 := -(m x).d3.toUInt32
  let m3 := m.put3 result ac3.toUInt16
  let ac2 := -(m3 x).d2.toUInt32 - borrow ac3
  let m2 := m3.put2 result ac2.toUInt16
  let ac1 := -(m2 x).d1.toUInt32 - borrow ac2
  let m1 := m2.put1 result ac1.toUInt16
  m1.put0 result (-(m1 x).d0.toUInt32 - borrow ac1).toUInt16

def dlongSub : Vars L :=
  let ac3 := (m x).d3.toUInt32 - (m y).d3.toUInt32
  let m3 := m.put3 result ac3.toUInt16
  let ac2 := (m3 x).d2.toUInt32 - (m3 y).d2.toUInt32 - borrow ac3
  let m2 := m3.put2 result ac2.toUInt16
  let ac1 := (m2 x).d1.toUInt32 - (m2 y).d1.toUInt32 - borrow ac2
  let m1 := m2.put1 result ac1.toUInt16
  m1.put0 result ((m1 x).d0.toUInt32 - (m1 y).d0.toUInt32 - borrow ac1).toUInt16

variable (l : L) (a b c d : UInt16)

@[simp] theorem put3_d2 : (m.put3 result a l).d2 = (m l).d2 := by
  rw [put3, update_apply]
  split_ifs with h <;> simp [h]

@[simp] theorem put3_d1 : (m.put3 result a l).d1 = (m l).d1 := by
  rw [put3, update_apply]
  split_ifs with h <;> simp [h]

@[simp] theorem put3_d0 : (m.put3 result a l).d0 = (m l).d0 := by
  rw [put3, update_apply]
  split_ifs with h <;> simp [h]

@[simp] theorem put2_d1 : (m.put2 result a l).d1 = (m l).d1 := by
  rw [put2, update_apply]
  split_ifs with h <;> simp [h]

@[simp] theorem put2_d0 : (m.put2 result a l).d0 = (m l).d0 := by
  rw [put2, update_apply]
  split_ifs with h <;> simp [h]

@[simp] theorem put1_d0 : (m.put1 result a l).d0 = (m l).d0 := by
  rw [put1, update_apply]
  split_ifs with h <;> simp [h]

theorem put_digits :
    (((m.put3 result a).put2 result b).put1 result c).put0 result d =
      update m result ⟨d, c, b, a⟩ := by
  funext l
  simp only [put0, put1, put2, put3, update_apply]
  split_ifs <;> rfl

theorem dlongAdd_eq : m.dlongAdd result x y = update m result (Dlong.dlongAdd (m x) (m y)) := by
  simp only [dlongAdd, put3_d2, put3_d1, put3_d0, put2_d1, put2_d0, put1_d0, put_digits]
  rfl

theorem dlongNeg_eq : m.dlongNeg result x = update m result (Dlong.dlongNeg (m x)) := by
  simp only [dlongNeg, put3_d2, put3_d1, put3_d0, put2_d1, put2_d0, put1_d0, put_digits]
  rfl

theorem dlongSub_eq : m.dlongSub result x y = update m result (Dlong.dlongSub (m x) (m y)) := by
  simp only [dlongSub, put3_d2, put3_d1, put3_d0, put2_d1, put2_d0, put1_d0, put_digits]
  rfl

end Vars

variable (r : Dlong)

def lowHalf (n : UInt32) : UInt32 := n &&& 0xffff

def addLongToDlong (n : Int32) : Dlong :=
  let ac3 := r.d3.toUInt32 + lowHalf n.toUInt32
  let ac2 := r.d2.toUInt32 + lowHalf (n >>> 16).toUInt32 + carry ac3
  let r2 := { r with d3 := ac3.toUInt16, d2 := ac2.toUInt16 }
  if 0 ≤ n then
    if carry ac2 ≠ 0 then
      let ac1 := r.d1.toUInt32 + 1
      let r1 := { r2 with d1 := ac1.toUInt16 }
      if carry ac1 ≠ 0 then { r1 with d0 := r1.d0 + 1 } else r1
    else r2
  else
    if carry ac2 = 0 then
      let ac1 := r.d1.toUInt32 + 0xffff
      let r1 := { r2 with d1 := ac1.toUInt16 }
      if carry ac1 = 0 then { r1 with d0 := r1.d0 + 0xffff } else r1
    else r2

def addULongToDlong (n : UInt32) : Dlong :=
  let ac3 := r.d3.toUInt32 + lowHalf n
  let ac2 := r.d2.toUInt32 + lowHalf (n >>> 16) + carry ac3
  let r2 := { r with d3 := ac3.toUInt16, d2 := ac2.toUInt16 }
  if carry ac2 ≠ 0 then
    let ac1 := r.d1.toUInt32 + 1
    let r1 := { r2 with d1 := ac1.toUInt16 }
    if carry ac1 ≠ 0 then { r1 with d0 := r1.d0 + 1 } else r1
  else r2

def subLongFromDlong (n : Int32) : Dlong :=
  let ac3 := r.d3.toUInt32 - lowHalf n.toUInt32
  let ac2 := r.d2.toUInt32 - lowHalf (n >>> 16).toUInt32 - borrow ac3
  let r2 := { r with d3 := ac3.toUInt16, d2 := ac2.toUInt16 }
  if 0 ≤ n then
    if carry ac2 ≠ 0 then
      let ac1 := r.d1.toUInt32 - 1
      let r1 := { r2 with d1 := ac1.toUInt16 }
      if carry ac1 ≠ 0 then { r1 with d0 := r1.d0 - 1 } else r1
    else r2
  else
    if carry ac2 = 0 then
      let ac1 := r.d1.toUInt32 - 0xffff
      let r1 := { r2 with d1 := ac1.toUInt16 }
      if carry ac1 = 0 then { r1 with d0 := r1.d0 - 0xffff } else r1
    else r2

def subULongFromDlong (n : UInt32) : Dlong :=
  let ac3 := r.d3.toUInt32 - lowHalf n
  let ac2 := r.d2.toUInt32 - lowHalf (n >>> 16) - borrow ac3
  let r2 := { r with d3 := ac3.toUInt16, d2 := ac2.toUInt16 }
  if carry ac2 ≠ 0 then
    let ac1 := r.d1.toUInt32 - 1
    let r1 := { r2 with d1 := ac1.toUInt16 }
    if carry ac1 ≠ 0 then { r1 with d0 := r1.d0 - 1 } else r1
  else r2

theorem lowHalf_eq (n : UInt32) : lowHalf n = n.toUInt16.toUInt32 := by
  rw [← UInt32.toNat_inj, lowHalf, UInt32.toNat_and, UInt16.toNat_toUInt32, UInt32.toNat_toUInt16]
  exact Nat.and_two_pow_sub_one_eq_mod n.toNat 16

section Digits

variable (a : UInt16) {c : UInt32}

theorem toUInt16_eq (c : UInt32) (h : c.toNat % 65536 = a.toNat) : c.toUInt16 = a := by
  rw [← UInt16.toNat_inj, UInt32.toNat_toUInt16, h]

theorem carry_eq_zero_iff (ac : UInt32) : carry ac = 0 ↔ ac.toNat < 65536 := by
  have hsplit := digit_carry ac
  rw [← UInt32.toNat_inj, UInt32.toNat_zero]
  omega

theorem borrow_eq (ac : UInt32) : borrow ac = if carry ac = 0 then 0 else 1 := by
  rw [borrow]
  exact ite_not _ _ _

theorem carry_bit (hc : c.toNat ≤ 1) : c = 0 ∨ c = 1 := by
  rw [← UInt32.toNat_inj, ← UInt32.toNat_inj, UInt32.toNat_zero, UInt32.toNat_one]
  omega

theorem carry_digit : carry a.toUInt32 = 0 := by
  rw [carry_eq_zero_iff, UInt16.toNat_toUInt32]
  exact a.toNat_lt

theorem add_sign_carry :
    (a.toUInt32 + 0xffff + 1).toUInt16 = a ∧ carry (a.toUInt32 + 0xffff + 1) = 1 := by
  have ha := a.toNat_lt
  have hac : (a.toUInt32 + 0xffff + 1).toNat = a.toNat + 65536 := by
    rw [UInt32.toNat_add, UInt32.toNat_add, UInt16.toNat_toUInt32,
      show (0xffff : UInt32).toNat = 65535 by decide, UInt32.toNat_one]
    omega
  have hsplit := digit_carry (a.toUInt32 + 0xffff + 1)
  constructor
  · apply toUInt16_eq
    omega
  · rw [← UInt32.toNat_inj, UInt32.toNat_one]
    omega

theorem sub_sign_borrow :
    (a.toUInt32 - 0xffff - 1).toUInt16 = a ∧ carry (a.toUInt32 - 0xffff - 1) ≠ 0 := by
  have ha := a.toNat_lt
  have hac : (a.toUInt32 - 0xffff - 1).toNat = a.toNat + (2 ^ 32 - 65536) := by
    rw [UInt32.toNat_sub, UInt32.toNat_sub, UInt16.toNat_toUInt32,
      show (0xffff : UInt32).toNat = 65535 by decide, UInt32.toNat_one]
    omega
  constructor
  · apply toUInt16_eq
    omega
  · rw [ne_eq, carry_eq_zero_iff]
    omega

end Digits

theorem long_cases (n : Int32) : n < 0 ∧ ¬ 0 ≤ n ∨ ¬ n < 0 ∧ 0 ≤ n := by
  have hneg : n < 0 ↔ n.toInt < 0 := Int32.lt_iff_toInt_lt
  have hpos : 0 ≤ n ↔ 0 ≤ n.toInt := Int32.le_iff_toInt_le
  rw [hneg, hpos]
  omega

variable {r} {n : Int32}

theorem addLongToDlong_eq : addLongToDlong r n = dlongAdd r (intToDlong n) := by
  simp only [addLongToDlong, dlongAdd, intToDlong, lowHalf_eq]
  have h3 : (carry (r.d3.toUInt32 + n.toUInt32.toUInt16.toUInt32)).toNat ≤ 1 := by
    have h := carry_le (a := r.d3) (b := n.toUInt32.toUInt16) (c := 0) (by decide)
    rwa [add_zero] at h
  have h2 := carry_le (a := r.d2) (b := (n >>> 16).toUInt32.toUInt16) h3
  set ac2 := r.d2.toUInt32 + (n >>> 16).toUInt32.toUInt16.toUInt32 +
    carry (r.d3.toUInt32 + n.toUInt32.toUInt16.toUInt32)
  rcases long_cases n with ⟨hn, hneg⟩ | ⟨hn, hpos⟩
  · have hsum := add_sign_carry r.d1
    rw [if_neg hneg, if_pos hn]
    rcases carry_bit h2 with hc | hc
    · have h1 : (carry (r.d1.toUInt32 + 0xffff + 0)).toNat ≤ 1 :=
        carry_le (b := 0xffff) (by decide)
      rw [add_zero] at h1
      rcases carry_bit h1 with hc1 | hc1
      · simp [hc, hc1]
      · simp [hc, hc1, (add_sign_carry r.d0).1]
    · simp [hc, hsum, (add_sign_carry r.d0).1]
  · rw [if_pos hpos, if_neg hn]
    rcases carry_bit h2 with hc | hc
    · simp [hc, carry_digit]
    · have h1 : (carry (r.d1.toUInt32 + 0 + 1)).toNat ≤ 1 := carry_le (b := 0) (by decide)
      rw [add_zero] at h1
      rcases carry_bit h1 with hc1 | hc1 <;> simp [hc, hc1]

theorem addULongToDlong_eq {n : UInt32} : addULongToDlong r n = dlongAdd r (uLongToDlong n) := by
  simp only [addULongToDlong, dlongAdd, uLongToDlong, lowHalf_eq]
  have h3 : (carry (r.d3.toUInt32 + n.toUInt16.toUInt32)).toNat ≤ 1 := by
    have h := carry_le (a := r.d3) (b := n.toUInt16) (c := 0) (by decide)
    rwa [add_zero] at h
  have h2 := carry_le (a := r.d2) (b := (n >>> 16).toUInt16) h3
  set ac2 := r.d2.toUInt32 + (n >>> 16).toUInt16.toUInt32 +
    carry (r.d3.toUInt32 + n.toUInt16.toUInt32)
  rcases carry_bit h2 with hc | hc
  · simp [hc, carry_digit]
  · have h1 : (carry (r.d1.toUInt32 + 0 + 1)).toNat ≤ 1 := carry_le (b := 0) (by decide)
    rw [add_zero] at h1
    rcases carry_bit h1 with hc1 | hc1 <;> simp [hc, hc1]

theorem subLongFromDlong_eq : subLongFromDlong r n = dlongSub r (intToDlong n) := by
  simp only [subLongFromDlong, dlongSub, intToDlong, lowHalf_eq, borrow_eq]
  set ac2 := r.d2.toUInt32 - (n >>> 16).toUInt32.toUInt16.toUInt32 -
    if carry (r.d3.toUInt32 - n.toUInt32.toUInt16.toUInt32) = 0 then 0 else 1
  rcases long_cases n with ⟨hn, hneg⟩ | ⟨hn, hpos⟩
  · have hdiff := sub_sign_borrow r.d1
    rw [if_neg hneg, if_pos hn]
    by_cases hc : carry ac2 = 0
    · by_cases hc1 : carry (r.d1.toUInt32 - 0xffff) = 0
      · simp [hc, hc1]
      · simp [hc, hc1, (sub_sign_borrow r.d0).1]
    · simp [hc, hdiff, (sub_sign_borrow r.d0).1]
  · rw [if_pos hpos, if_neg hn]
    by_cases hc : carry ac2 = 0
    · simp [hc, carry_digit]
    · by_cases hc1 : carry (r.d1.toUInt32 - 1) = 0 <;> simp [hc, hc1]

theorem subULongFromDlong_eq {n : UInt32} :
    subULongFromDlong r n = dlongSub r (uLongToDlong n) := by
  simp only [subULongFromDlong, dlongSub, uLongToDlong, lowHalf_eq, borrow_eq]
  set ac2 := r.d2.toUInt32 - (n >>> 16).toUInt16.toUInt32 -
    if carry (r.d3.toUInt32 - n.toUInt16.toUInt32) = 0 then 0 else 1
  by_cases hc : carry ac2 = 0
  · simp [hc, carry_digit]
  · by_cases hc1 : carry (r.d1.toUInt32 - 1) = 0 <;> simp [hc, hc1]

theorem dlong_operations_agree (x y : Dlong) (n : Int32) (k : UInt32) :
    (dlongAdd x y).toInt = (x.toInt + y.toInt).bmod (2 ^ 64) ∧
    (dlongSub x y).toInt = (x.toInt - y.toInt).bmod (2 ^ 64) ∧
    (dlongNeg x).toInt = (-x.toInt).bmod (2 ^ 64) ∧
    (dlongMul x y).toInt = (x.toInt * y.toInt).bmod (2 ^ 64) ∧
    dlongCmp x y = (x.toInt - y.toInt).sign ∧
    (dlongCmpGteq x y = true ↔ y.toInt ≤ x.toInt) ∧
    (dlongCmpGt x y = true ↔ y.toInt < x.toInt) ∧
    (dlongCmpEq x y = true ↔ x = y) ∧
    (addLongToDlong x n).toInt = (x.toInt + n.toInt).bmod (2 ^ 64) ∧
    (subLongFromDlong x n).toInt = (x.toInt - n.toInt).bmod (2 ^ 64) ∧
    (addULongToDlong x k).toInt = (x.toInt + k.toNat).bmod (2 ^ 64) ∧
    (subULongFromDlong x k).toInt = (x.toInt - k.toNat).bmod (2 ^ 64) ∧
    ∀ {L : Type} [DecidableEq L] (m : Vars L) (result a b : L),
      m.dlongAdd result a b = update m result (dlongAdd (m a) (m b)) ∧
      m.dlongSub result a b = update m result (dlongSub (m a) (m b)) ∧
      m.dlongNeg result a = update m result (dlongNeg (m a)) := by
  have hcmp := dlongCmp_eq x y
  refine ⟨dlongAdd_toInt x y, dlongSub_toInt x y, dlongNeg_toInt x, dlongMul_toInt x y, hcmp,
    ?_, ?_, ?_, ?_, ?_, ?_, ?_, ?_⟩
  · rw [dlongCmpGteq, decide_eq_true_iff, hcmp, ge_iff_le, Int.sign_nonneg_iff, Int.sub_nonneg]
  · rw [dlongCmpGt, decide_eq_true_iff, hcmp, gt_iff_lt, Int.sign_pos_iff, Int.sub_pos]
  · rw [dlongCmpEq, decide_eq_true_iff, hcmp, Int.sign_eq_zero_iff_zero, Int.sub_eq_zero]
    exact ⟨toInt_inj, congrArg toInt⟩
  · rw [addLongToDlong_eq, dlongAdd_toInt, intToDlong_toInt]
  · rw [subLongFromDlong_eq, dlongSub_toInt, intToDlong_toInt]
  · rw [addULongToDlong_eq, dlongAdd_toInt, uLongToDlong_toInt]
  · rw [subULongFromDlong_eq, dlongSub_toInt, uLongToDlong_toInt]
  · intro L _ m result a b
    exact ⟨m.dlongAdd_eq result a b, m.dlongSub_eq result a b, m.dlongNeg_eq result a⟩

end MachUS.Arith.Dlong
