import MachUS.Dlong.DivisionLoops

namespace MachUS.Arith.Dlong

open Radix Nat Digits

section Whole

variable {ac : Accumulator} {n : ℕ} {x : Dlong}

theorem digitCount_spec {c : ℕ} (hc : c ≤ 4) (h : ∀ i < 4 - c, x.d i = 0) :
    digitCount x c ≤ c ∧ (∀ i < 4 - digitCount x c, x.d i = 0) ∧
      (digitCount x c = 0 ∨ x.d (4 - digitCount x c) ≠ 0) := by
  induction c with
  | zero => exact ⟨le_refl _, h, Or.inl rfl⟩
  | succ c ih =>
    rw [digitCount]
    split_ifs with hzero
    · obtain ⟨hle, hrest, hfirst⟩ := ih (by omega) fun i hi => by
        rcases lt_or_ge i (4 - (c + 1)) with hlt | hge
        · exact h i hlt
        · rwa [show i = 4 - (c + 1) by omega]
      exact ⟨by omega, hrest, hfirst⟩
    · exact ⟨le_refl _, h, Or.inr hzero⟩

theorem toNat_count {c : ℕ} (hc : c ≤ 4) (h : ∀ i < 4 - c, x.d i = 0) :
    x.toNat = (ofDlong x).value (4 - c) c := by
  have hsplit := Radix.value_append (b := dlongBase) (f := digits x.d) 0 (4 - c) c
  have hzeros : Radix.value dlongBase (digits x.d) 0 (4 - c) = 0 :=
    value_zeros fun i _ hi => by rw [digits, h i (by omega), UInt16.toNat_zero]
  rw [hzeros, Nat.zero_mul, Nat.zero_add, Nat.zero_add, Nat.sub_add_cancel hc] at hsplit
  exact hsplit

theorem toDlong_count {a : Digits 4} {c : ℕ} (hc : c ≤ 4)
    (h : Kept (ofDlong zero) a (4 - c) c) : (toDlong a).toNat = a.value (4 - c) c := by
  have hcell : ∀ i < 4, (toDlong a).d i = a.cell i := by
    intro i hi
    rcases i with _ | _ | _ | _ | i
    · rfl
    · rfl
    · rfl
    · rfl
    · omega
  have hzero : ∀ i, zero.d i = 0 := by
    intro i
    rcases i with _ | _ | _ | _ | i <;> rfl
  rw [toNat_count hc fun i hi => by rw [hcell i (by omega), h i (Or.inl hi)]; exact hzero i]
  exact Digits.value_congr fun i _ hi => hcell i (by omega)

variable (ac) in
theorem normalizeDividend_spec {u : Dlong} {m_n d : ℕ} (hm : m_n ≤ 4)
    (hu : ∀ i < 4 - m_n, u.d i = 0) (hd : 0 < d) (hdb : d < dlongBase) (uv : Digits 5) :
    ∃ uv', normalizeDividend ac u m_n d uv = .ok uv' ∧
      uv'.value 0 (m_n + 1) = u.toNat * d ∧ (uv'.cell 0).toNat < d := by
  have htotal := toNat_count hm hu
  have hlt := (ofDlong u).value_lt (4 - m_n) m_n
  rw [normalizeDividend]
  by_cases hone : d = 1
  · obtain ⟨uv', hrun, hvalue, hkept⟩ := bcopy_spec (ofDlong u) (4 - m_n) 1
      (c := m_n) (by omega) (by omega) (uv.write 0 0)
    have hzero : (uv'.cell 0).toNat = 0 := by
      rw [hkept 0 (Or.inl (by omega)), Digits.write_self]
      rfl
    rw [if_pos hone, store_eq (by omega), ok_bind]
    refine ⟨uv', hrun, ?_, by omega⟩
    rw [Digits.value_cons, hzero, hvalue, htotal, hone, Nat.zero_mul, Nat.zero_add, mul_one]
  · obtain ⟨uv', k, hrun, hk, hvalue, -⟩ := scale_spec ac (ofDlong u) (4 - m_n) 1 d (k := 0)
      (c := m_n) hdb (by omega) (by omega) (by decide) uv
    rw [if_neg hone, hrun, ok_bind]
    refine ⟨uv'.write 0 k, store_eq (by omega), ?_, ?_⟩
    · have hrest : (uv'.write 0 k).value (0 + 1) m_n = uv'.value 1 m_n :=
        Digits.value_congr fun i hi _ => Digits.write_of_ne (by omega)
      rw [Digits.value_cons, hrest, Digits.write_self, mod_eq_of_lt hk, hvalue, htotal]
      rfl
    · rw [Digits.write_self, mod_eq_of_lt hk]
      have hmul : (ofDlong u).value (4 - m_n) m_n * d < dlongBase ^ m_n * d :=
        mul_lt_mul_of_pos_right hlt hd
      have hle : k * dlongBase ^ m_n < d * dlongBase ^ m_n := by
        linarith
      exact Nat.lt_of_mul_lt_mul_right hle

variable (ac) in
theorem normalizeDivisor_spec {v : Dlong} {d : ℕ} (hn : n ≤ 4) (hv : ∀ i < 4 - n, v.d i = 0)
    (hdb : d < dlongBase) (hfit : v.toNat * d < dlongBase ^ n) (vv : Digits 4) :
    ∃ vv', normalizeDivisor ac v n d vv = .ok vv' ∧ vv'.value 0 n = v.toNat * d := by
  have htotal := toNat_count hn hv
  rw [normalizeDivisor]
  by_cases hone : d = 1
  · obtain ⟨vv', hrun, hvalue, -⟩ := bcopy_spec (ofDlong v) (4 - n) 0
      (c := n) (by omega) (by omega) vv
    refine ⟨vv', by rw [if_pos hone, hrun], ?_⟩
    rw [hvalue, htotal, hone, mul_one]
  · obtain ⟨vv', k, hrun, -, hvalue, -⟩ := scale_spec ac (ofDlong v) (4 - n) 0 d (k := 0)
      (c := n) hdb (by omega) (by omega) (by decide) vv
    rw [← htotal, add_zero] at hvalue
    have hk : k = 0 := by
      by_contra hne
      have hmul : 1 * dlongBase ^ n ≤ k * dlongBase ^ n :=
        Nat.mul_le_mul_right _ (Nat.pos_of_ne_zero hne)
      omega
    refine ⟨vv', by rw [if_neg hone, hrun, ok_bind], ?_⟩
    rw [← hvalue, hk, Nat.zero_mul, Nat.zero_add]

variable (ac) in
theorem unnormalize_spec {uv : Digits 5} {m d r : ℕ} (hn : n ≤ 4) (hm : m + n ≤ 4) (hd : 0 < d)
    (hdb : d < dlongBase) (hvalue : uv.value (m + 1) n = r * d) :
    ∃ a, unnormalize ac uv m n d = .ok a ∧ (toDlong a).toNat = r := by
  rw [unnormalize]
  by_cases hone : d = 1
  · obtain ⟨a, hrun, hcopy, hkept⟩ := bcopy_spec uv (m + 1) (4 - n)
      (c := n) (by omega) (by omega) (ofDlong zero)
    refine ⟨a, by rw [if_pos hone, hrun], ?_⟩
    rw [toDlong_count hn hkept, hcopy, hvalue, hone, mul_one]
  · obtain ⟨a, p, hrun, hp, hdiv, hkept⟩ := shortDivide_spec ac uv (m + 1) (4 - n) 0
      (c := n) hdb (by omega) (by omega) hd (ofDlong zero)
    refine ⟨a, by rw [if_neg hone, hrun, ok_bind], ?_⟩
    rw [hvalue, Nat.zero_mul, Nat.zero_add] at hdiv
    have hmod := congrArg (· / d) hdiv
    simp only [Nat.mul_div_cancel _ hd] at hmod
    rwa [mul_comm, mul_add_div hd, div_eq_of_lt hp, add_zero, ← toDlong_count hn hkept] at hmod

variable (ac) in
theorem divideGeneral_spec {u v : Dlong} {m_n : ℕ} (hn : 2 ≤ n) (hle : n ≤ m_n) (hm : m_n ≤ 4)
    (hu : ∀ i < 4 - m_n, u.d i = 0) (hv : ∀ i < 4 - n, v.d i = 0) (hfirst : v.d (4 - n) ≠ 0)
    (f : Frame) :
    ∃ q r, divideGeneral ac f u v m_n n = .ok (q, r) ∧
      q.toNat * v.toNat + r.toNat = u.toNat ∧ r.toNat < v.toNat := by
  set a := ((ofDlong v).cell (4 - n)).toNat with ha
  have hapos : 0 < a := by
    apply Nat.pos_of_ne_zero
    intro hzero
    exact hfirst (UInt16.toNat_inj.mp hzero)
  have hab : a < dlongBase := (ofDlong v).cell_lt _
  set d := dlongBase / (a + 1) with hddef
  have hdpos : 0 < d := div_pos hab (by omega)
  have hdmul : (a + 1) * d ≤ dlongBase := mul_div_le _ _
  have hdb : d < dlongBase := by nlinarith
  obtain ⟨e, rfl⟩ := Nat.exists_eq_add_of_le' (show 1 ≤ n by omega)
  have hvtotal := toNat_count (by omega) hv
  rw [Digits.value_cons, ← ha] at hvtotal
  have hvlow := (ofDlong v).value_lt (4 - (e + 1) + 1) e
  have hfit : v.toNat * d < dlongBase ^ (e + 1) := by
    calc v.toNat * d < (a + 1) * dlongBase ^ e * d :=
          mul_lt_mul_of_pos_right (by linarith) hdpos
      _ = (a + 1) * d * dlongBase ^ e := by ring
      _ ≤ dlongBase * dlongBase ^ e := Nat.mul_le_mul_right _ hdmul
      _ = dlongBase ^ (e + 1) := by ring
  obtain ⟨uv, huvrun, huv, huv0⟩ := normalizeDividend_spec ac hm hu hdpos hdb f.uv
  obtain ⟨vv, hvvrun, hvv⟩ := normalizeDivisor_spec ac (by omega) hv hdb hfit f.vv
  have hvvlow := vv.value_lt (0 + 1) e
  have hvv0 : d ≤ (vv.cell 0).toNat := by
    rw [Digits.value_cons] at hvv
    have hmul : d * dlongBase ^ e ≤ v.toNat * d := by
      rw [hvtotal]
      nlinarith [zero_le (dlongBase ^ e * d), zero_le ((ofDlong v).value (4 - (e + 1) + 1) e * d)]
    have hlt : d * dlongBase ^ e < ((vv.cell 0).toNat + 1) * dlongBase ^ e := by linarith
    exact Nat.lt_succ_iff.mp (Nat.lt_of_mul_lt_mul_right hlt)
  have hlead : uv.value 0 (e + 1) < v.toNat * d := by
    rw [← hvv, Digits.value_cons, Digits.value_cons]
    have hmul : ((uv.cell 0).toNat + 1) * dlongBase ^ e ≤ (vv.cell 0).toNat * dlongBase ^ e :=
      Nat.mul_le_mul_right _ (by omega)
    linarith [uv.value_lt (0 + 1) e]
  obtain ⟨f', hloop, hdivide, hlast, -⟩ := divideLoop_spec ac (n := e + 1) (j := 0)
    (c := m_n - (e + 1) + 1) (v := v.toNat * d) hn (show 0 < (vv.cell 0).toNat by omega)
    { f with uv, vv } rfl rfl hvv (by omega) hlead
  simp only [Nat.zero_add] at hdivide hlast
  rw [show m_n - (e + 1) + 1 + (e + 1) = m_n + 1 by omega, huv] at hdivide
  set m := m_n - (e + 1) with hmdef
  obtain ⟨q, hqrun, hq, hqkept⟩ := bcopy_spec f'.qv 0 (3 - m)
    (c := m + 1) (by omega) (by omega) (ofDlong zero)
  have hqnat : (toDlong q).toNat = f'.qv.value 0 (m + 1) := by
    rw [toDlong_count (c := m + 1) (by omega) (by rwa [show 4 - (m + 1) = 3 - m by omega]), ← hq,
      show 4 - (m + 1) = 3 - m by omega]
  set Q := f'.qv.value 0 (m + 1) with hQ
  have hQle : Q * v.toNat ≤ u.toNat := by
    apply le_of_mul_le_mul_right _ hdpos
    linarith
  have hrest : f'.uv.value (m + 1) (e + 1) = (u.toNat - Q * v.toNat) * d := by
    rw [Nat.sub_mul, ← hdivide, Nat.mul_assoc, Nat.add_sub_cancel_left]
  obtain ⟨r, hrrun, hr⟩ := unnormalize_spec ac (n := e + 1) (by omega) (by omega) hdpos hdb hrest
  refine ⟨toDlong q, toDlong r, ?_, ?_, ?_⟩
  · rw [divideGeneral, load_eq (by omega), ok_bind, ← ha, ← hddef]
    dsimp only
    rw [huvrun, ok_bind, hvvrun, ok_bind, load_eq (by omega), ok_bind, load_eq (by omega), ok_bind, hloop,
      ok_bind, hqrun, ok_bind, hrrun, ok_bind]
  · rw [hqnat, hr]
    omega
  · rw [hr]
    rw [hrest] at hlast
    exact Nat.lt_of_mul_lt_mul_right hlast

theorem dlongCmpDigits_eq (l1 l2 : Digits 4) {c o1 o2 : ℕ} (h1 : o1 + c ≤ 4) (h2 : o2 + c ≤ 4) :
    dlongCmpDigits l1 l2 c o1 o2 = .ok (cmpDigits l1.cell l2.cell o1 o2 c) := by
  induction c generalizing o1 o2 with
  | zero => rfl
  | succ c ih =>
    rw [dlongCmpDigits, load_eq (by omega), ok_bind, load_eq (by omega), ok_bind,
      ih (by omega) (by omega), cmpDigits]
    simp only [ne_eq, UInt16.toNat_inj, UInt16.lt_iff_toNat_lt]
    split_ifs <;> rfl

theorem uLongToDlong_toNat {x : ℕ} (h : x < 2 ^ 32) :
    (uLongToDlong (UInt32.ofNat x)).toNat = x := by
  have hof : (UInt32.ofNat x).toNat = x := UInt32.toNat_ofNat_of_lt' h
  have hshift : (UInt32.ofNat x >>> 16).toNat = x / 65536 := by
    rw [UInt32.toNat_shiftRight, hof]
    exact shiftRight_eq_div_pow _ 16
  rw [toNat_eq]
  simp only [uLongToDlong, UInt32.toNat_toUInt16, hof, hshift, UInt16.toNat_zero]
  omega

theorem signed_zero (negative : Bool) : signed negative zero = zero := by
  cases negative <;> rfl

def Divides (negquotient negremainder : Bool) (u v : Dlong) (result : Dlong × Dlong) : Prop :=
  ∃ q r, result = (signed negquotient q, signed negremainder r) ∧
    q.toNat = u.toNat / v.toNat ∧ r.toNat = u.toNat % v.toNat

variable {u v : Dlong} {negquotient negremainder : Bool}

theorem divides_of_lt (h : u.toNat < v.toNat) :
    Divides negquotient negremainder u v (zero, signed negremainder u) := by
  refine ⟨zero, u, by rw [signed_zero], ?_, (mod_eq_of_lt h).symm⟩
  rw [div_eq_of_lt h]
  rfl

theorem divides_of_sum {q r : Dlong} (hsum : q.toNat * v.toNat + r.toNat = u.toNat)
    (hlt : r.toNat < v.toNat) :
    Divides negquotient negremainder u v (signed negquotient q, signed negremainder r) := by
  have h := (Nat.div_mod_unique (a := u.toNat) (b := v.toNat) (d := q.toNat) (c := r.toNat)
    (by omega)).mpr ⟨by rw [← hsum, mul_comm, add_comm], hlt⟩
  exact ⟨q, r, rfl, h.1.symm, h.2.symm⟩

theorem toNat_of_two {c : ℕ} (hc : c ≤ 2) (h : ∀ i < 4 - c, x.d i = 0) :
    x.d2.toNat * dlongBase + x.d3.toNat = x.toNat := by
  have h0 : x.d0 = 0 := h 0 (by omega)
  have h1 : x.d1 = 0 := h 1 (by omega)
  rw [toNat_eq, h0, h1, dlongBase, UInt16.toNat_zero]
  omega

theorem toNat_of_one (h : ∀ i < 3, x.d i = 0) : x.toNat = x.d3.toNat := by
  have h2 : x.d2 = 0 := h 2 (by omega)
  rw [← toNat_of_two (c := 2) (le_refl _) fun i hi => h i (by omega), h2, UInt16.toNat_zero]
  omega

theorem divides_unsigned {lu lv : ℕ} (hu : lu = u.toNat) (hv : lv = v.toNat) (hfit : lu < 2 ^ 32) :
    Divides negquotient negremainder u v
      (signed negquotient (uLongToDlong (UInt32.ofNat (lu / lv))),
        signed negremainder (uLongToDlong (UInt32.ofNat (lu % lv)))) := by
  refine ⟨_, _, rfl, ?_, ?_⟩
  · rw [uLongToDlong_toNat ((div_le_self _ _).trans_lt hfit), hu, hv]
  · rw [uLongToDlong_toNat ((mod_le _ _).trans_lt hfit), hu, hv]

theorem divides_of_eq (h : u.toNat = v.toNat) (hv : 0 < v.toNat) :
    Divides negquotient negremainder u v
      (if negquotient then ⟨0xffff, 0xffff, 0xffff, 0xffff⟩ else ⟨0, 0, 0, 1⟩, zero) := by
  refine ⟨⟨0, 0, 0, 1⟩, zero, ?_, ?_, ?_⟩
  · rw [signed_zero]
    cases negquotient <;> rfl
  · rw [h, Nat.div_self hv]
    rfl
  · rw [h, mod_self]
    rfl

variable (ac negquotient negremainder) in
theorem divides_short {c : ℕ} (hc : c ≤ 4) (hu : ∀ i < 4 - c, u.d i = 0)
    (hv : v.toNat = v.d3.toNat) (hpos : 0 < v.toNat) :
    ∃ q prevu, shortDivide ac (ofDlong u) v.d3.toNat c (4 - c) (4 - c) (ofDlong zero) 0 =
        .ok (q, prevu) ∧
      Divides negquotient negremainder u v (signed negquotient (toDlong q),
        signed negremainder (uLongToDlong (UInt32.ofNat prevu))) := by
  have hdigit : v.d3.toNat < dlongBase := v.d3.toNat_lt
  obtain ⟨q, p, hrun, hp, hsum, hkept⟩ := shortDivide_spec ac (ofDlong u) (4 - c) (4 - c)
    0 (c := c) hdigit (by omega) (by omega)
    (by omega) (ofDlong zero)
  have hpnat : (uLongToDlong (UInt32.ofNat p)).toNat = p :=
    uLongToDlong_toNat (hp.trans (hdigit.trans (by decide)))
  refine ⟨q, p, hrun, divides_of_sum ?_ (by rwa [hpnat, hv])⟩
  rw [hpnat, hv, toDlong_count hc hkept, hsum, ← toNat_count hc hu, Nat.zero_mul, Nat.zero_add]

variable (ac u negquotient negremainder) in
theorem dividePositive_spec (f : Frame) (hv : v ≠ zero) :
    ∃ result, dividePositive ac f negquotient negremainder u v = .ok result ∧
      Divides negquotient negremainder u v result := by
  obtain ⟨hm, hu, -⟩ := digitCount_spec (x := u) (c := 4) (le_refl _) (by omega)
  obtain ⟨hn, hvzeros, hvfirst⟩ := digitCount_spec (x := v) (c := 4) (le_refl _) (by omega)
  have hutotal := toNat_count hm hu
  have hvtotal := toNat_count hn hvzeros
  rw [dividePositive]
  set m_n := digitCount u 4 with hmdef
  set n := digitCount v 4 with hndef
  have hvpos : 0 < v.toNat := Nat.pos_of_ne_zero fun h => hv (toNat_inj h)
  have hnpos : n ≠ 0 := by
    intro h
    rw [h] at hvtotal
    exact hvpos.ne' hvtotal
  have hfirst : v.d (4 - n) ≠ 0 := hvfirst.resolve_left hnpos
  have hgeneral (h2 : 2 ≤ n) (hle : n ≤ m_n) :
      ∃ q r, divideGeneral ac f u v m_n n = .ok (q, r) ∧
        Divides negquotient negremainder u v (signed negquotient q, signed negremainder r) := by
    obtain ⟨q, r, hrun, hsum, hlt⟩ := divideGeneral_spec ac h2 hle hm hu hvzeros hfirst f
    exact ⟨q, r, hrun, divides_of_sum hsum hlt⟩
  rw [if_neg hnpos]
  by_cases htwo : n ≤ 2 ∧ m_n ≤ 2
  · have hlu := toNat_of_two htwo.2 hu
    have hlv := toNat_of_two htwo.1 hvzeros
    have hfit {a b : UInt16} : a.toNat * dlongBase + b.toNat < 2 ^ 32 := by
      have ha := a.toNat_lt
      have hb := b.toNat_lt
      rw [dlongBase]
      omega
    rw [if_pos htwo, ac.put_mul_add hfit, ok_bind, ac.put_mul_add hfit, ok_bind]
    exact ⟨_, rfl, divides_unsigned hlu hlv hfit⟩
  rw [if_neg htwo]
  by_cases hone : n = 1
  · rw [hone] at hvzeros
    obtain ⟨q, p, hrun, hdivides⟩ := divides_short ac negquotient
      negremainder hm hu (toNat_of_one hvzeros) hvpos
    rw [if_pos hone, hrun, ok_bind]
    exact ⟨_, rfl, hdivides⟩
  rw [if_neg hone]
  by_cases hshort : m_n < n
  · rw [if_pos hshort]
    refine ⟨_, rfl, divides_of_lt ?_⟩
    obtain ⟨e, he⟩ := Nat.exists_eq_add_of_le' (Nat.pos_of_ne_zero hnpos)
    have hult := (ofDlong u).value_lt (4 - m_n) m_n
    have hpow : dlongBase ^ m_n ≤ dlongBase ^ e := Nat.pow_le_pow_right (by decide) (by omega)
    have hdigit : 1 * dlongBase ^ e ≤ ((ofDlong v).cell (4 - n)).toNat * dlongBase ^ e := by
      apply Nat.mul_le_mul_right
      apply Nat.pos_of_ne_zero
      intro hzero
      exact hfirst (UInt16.toNat_inj.mp hzero)
    rw [hutotal, hvtotal]
    conv_rhs => rw [he, Digits.value_cons, ← he]
    omega
  rw [if_neg hshort]
  by_cases hsame : m_n = n
  · have hcmp : cmpDigits (ofDlong u).cell (ofDlong v).cell (4 - m_n) (4 - n) m_n =
        ((u.toNat : ℤ) - v.toNat).sign := by
      rw [hutotal, hvtotal, ← hsame]
      exact cmpDigits_eq _ _ _ _ _
    rw [if_pos hsame, dlongCmpDigits_eq _ _ (by omega) (by omega), ok_bind, hcmp]
    rcases lt_trichotomy u.toNat v.toNat with hlt | heq | hgt
    · rw [sign_sub_of_gt hlt, if_pos (by decide)]
      exact ⟨_, rfl, divides_of_lt hlt⟩
    · rw [heq, sub_self, Int.sign_zero, if_neg (lt_irrefl 0), if_pos rfl]
      exact ⟨_, rfl, divides_of_eq heq hvpos⟩
    · rw [sign_sub_of_lt hgt, if_neg (by decide), if_neg (by decide)]
      obtain ⟨q, r, hrun, hdivides⟩ := hgeneral (by omega) (by omega)
      rw [hrun, ok_bind]
      exact ⟨_, rfl, hdivides⟩
  · rw [if_neg hsame]
    obtain ⟨q, r, hrun, hdivides⟩ := hgeneral (by omega) (by omega)
    rw [hrun, ok_bind]
    exact ⟨_, rfl, hdivides⟩

theorem signed_toInt (negative : Bool) (x : Dlong) :
    (signed negative x).toInt = (if negative then -(x.toNat : ℤ) else x.toNat).bmod (2 ^ 64) := by
  cases negative with
  | false =>
    rw [signed, if_neg Bool.false_ne_true, if_neg Bool.false_ne_true]
    exact Eq.refl _
  | true =>
    rw [signed, if_pos rfl, if_pos rfl]
    exact toInt_of_modEq (dlongNeg_modEq x)

theorem zero_toNat : zero.toNat = 0 := rfl

theorem zero_toInt : zero.toInt = 0 := by
  have h := toInt_eq zero
  rw [zero_toNat, if_pos (by decide)] at h
  exact h

theorem signed_isneg_toNat (x : Dlong) : (signed (isneg x) x).toNat = x.toInt.natAbs := by
  have hlt := x.toNat_lt
  have heq := toInt_eq x
  cases hneg : isneg x with
  | false =>
    have hpos : ¬ x.toInt < 0 := fun h => by simp [isneg_iff.mpr h] at hneg
    rw [signed, if_neg Bool.false_ne_true]
    split_ifs at heq <;> omega
  | true =>
    rw [isneg_iff] at hneg
    have hmod : ((dlongNeg x).toNat : ℤ) ≡ -x.toNat [ZMOD 2 ^ 64] := dlongNeg_modEq x
    have hneglt := (dlongNeg x).toNat_lt
    rw [signed, if_pos rfl]
    rw [Int.ModEq] at hmod
    split_ifs at heq <;> omega

theorem toInt_bounds (x : Dlong) : -2 ^ 63 ≤ x.toInt ∧ x.toInt < 2 ^ 63 := by
  have hlt := x.toNat_lt
  rw [toInt_eq]
  split_ifs <;> omega

theorem tdiv_eq (a b : ℤ) : a.tdiv b =
    if decide (a < 0) ^^ decide (b < 0) then -((a.natAbs / b.natAbs : ℕ) : ℤ)
    else (a.natAbs / b.natAbs : ℕ) := by
  rw [Int.ofNat_tdiv]
  rcases lt_or_ge a 0 with ha | ha <;> rcases lt_or_ge b 0 with hb | hb
  · rw [Int.ofNat_natAbs_of_nonpos ha.le, Int.ofNat_natAbs_of_nonpos hb.le, Int.neg_tdiv_neg]
    simp [ha, hb]
  · rw [Int.ofNat_natAbs_of_nonpos ha.le, Int.natAbs_of_nonneg hb, Int.neg_tdiv, neg_neg]
    simp [ha, hb]
  · rw [Int.natAbs_of_nonneg ha, Int.ofNat_natAbs_of_nonpos hb.le, Int.tdiv_neg, neg_neg]
    simp [ha, hb]
  · rw [Int.natAbs_of_nonneg ha, Int.natAbs_of_nonneg hb]
    simp [not_lt.mpr ha, not_lt.mpr hb]

theorem tmod_eq (a b : ℤ) : a.tmod b =
    if decide (a < 0) then -((a.natAbs % b.natAbs : ℕ) : ℤ) else (a.natAbs % b.natAbs : ℕ) := by
  have habs : ((a.natAbs % b.natAbs : ℕ) : ℤ) = (a.natAbs : ℤ).tmod b := by
    rw [Int.ofNat_tmod]
    rcases lt_or_ge b 0 with hb | hb
    · rw [Int.ofNat_natAbs_of_nonpos hb.le, Int.tmod_neg]
    · rw [Int.natAbs_of_nonneg hb]
  rw [habs]
  rcases lt_or_ge a 0 with ha | ha
  · rw [Int.ofNat_natAbs_of_nonpos ha.le, Int.neg_tmod, neg_neg, if_pos (decide_eq_true ha)]
  · rw [Int.natAbs_of_nonneg ha, if_neg (by simpa using ha)]

theorem isneg_eq (x : Dlong) : isneg x = decide (x.toInt < 0) := by
  rw [Bool.eq_iff_iff, isneg_iff, decide_eq_true_iff]

theorem signed_quotient {q : Dlong} {a b : ℤ} (hq : q.toNat = a.natAbs / b.natAbs) :
    (signed (decide (a < 0) ^^ decide (b < 0)) q).toInt = (a.tdiv b).bmod (2 ^ 64) := by
  rw [signed_toInt, hq, tdiv_eq]

theorem signed_remainder {r : Dlong} {a b : ℤ} (hr : r.toNat = a.natAbs % b.natAbs)
    (ha : -2 ^ 63 ≤ a ∧ a < 2 ^ 63) : (signed (decide (a < 0)) r).toInt = a.tmod b := by
  have hle : a.natAbs % b.natAbs ≤ a.natAbs := mod_le _ _
  rw [signed_toInt, hr, tmod_eq]
  apply Wrap.bmod_of_fit (w := 63)
  split_ifs with hneg
  · omega
  · rw [decide_eq_true_iff] at hneg
    omega

theorem quotient_range {a b : ℤ} (hb : b ≠ 0) (ha : -2 ^ 63 ≤ a ∧ a < 2 ^ 63) :
    a = -2 ^ 63 ∧ b = -1 ∨ -2 ^ 63 ≤ a.tdiv b ∧ a.tdiv b < 2 ^ 63 := by
  have habs : (a.tdiv b).natAbs = a.natAbs / b.natAbs := Int.natAbs_tdiv a b
  rcases lt_or_ge 1 b.natAbs with hlt | hle
  · right
    have hhalf : a.natAbs / b.natAbs ≤ a.natAbs / 2 := div_le_div_left hlt (by decide)
    omega
  · rcases (show b = 1 ∨ b = -1 by omega) with rfl | rfl
    · rw [Int.tdiv_one]
      exact Or.inr ha
    · rw [Int.tdiv_neg, Int.tdiv_one]
      omega

theorem sign_remainder (a b : ℤ) : a.tmod b = 0 ∨ (a.tmod b).sign = a.sign := by
  rw [or_iff_not_imp_left]
  intro hne
  rw [tmod_eq] at hne ⊢
  split_ifs at hne ⊢ with hneg
  · rw [decide_eq_true_iff] at hneg
    rw [Int.sign_eq_neg_one_of_neg hneg, Int.sign_eq_neg_one_of_neg (by omega)]
  · rw [decide_eq_true_iff] at hneg
    have hpos : 0 < a := by
      rcases (show a = 0 ∨ 0 < a by omega) with rfl | h
      · simp at hne
      · exact h
    rw [Int.sign_eq_one_of_pos hpos, Int.sign_eq_one_of_pos (by omega)]

theorem dlongDivrem_spec (ac : Accumulator) (f : Frame) (u v : Dlong) (hv : v ≠ zero) :
    ∃ q r, dlongDivrem ac f u v = .ok (q, r) ∧
      q.toInt = (u.toInt.tdiv v.toInt).bmod (2 ^ 64) ∧ r.toInt = u.toInt.tmod v.toInt := by
  have hpos : signed (isneg v) v ≠ zero := by
    intro h
    have habs := signed_isneg_toNat v
    rw [h] at habs
    rw [zero_toNat] at habs
    exact hv (toInt_inj (by rw [zero_toInt, Int.natAbs_eq_zero.mp habs.symm]))
  obtain ⟨_, hrun, q, r, rfl, hq, hr⟩ := dividePositive_spec ac
    (signed (isneg u) u) (if isneg v then !isneg u else isneg u)
    (isneg u) f hpos
  rw [signed_isneg_toNat, signed_isneg_toNat] at hq hr
  have hsign : (if isneg v then !isneg u else isneg u) =
      (decide (u.toInt < 0) ^^ decide (v.toInt < 0)) := by
    rw [isneg_eq, isneg_eq]
    cases decide (u.toInt < 0) <;> cases decide (v.toInt < 0) <;> rfl
  refine ⟨_, _, hrun, ?_, ?_⟩
  · rw [hsign]
    exact signed_quotient hq
  · rw [isneg_eq]
    exact signed_remainder hr (toInt_bounds u)

end Whole

theorem dlong_divrem_truncates (u v : Dlong) (hv : v ≠ zero) :
    ∃ q r, (∀ ac f, dlongDivrem ac f u v = .ok (q, r)) ∧
      (u.toInt = q.toInt * v.toInt + r.toInt ∨
        u.toInt = -2 ^ 63 ∧ v.toInt = -1 ∧ q.toInt = -2 ^ 63 ∧ r.toInt = 0) ∧
      |r.toInt| < |v.toInt| ∧ (r.toInt = 0 ∨ r.toInt.sign = u.toInt.sign) := by
  have hvint : v.toInt ≠ 0 := fun h => hv (toInt_inj (by rw [h, zero_toInt]))
  obtain ⟨q, r, -, hq, hr⟩ := dlongDivrem_spec Accumulator.exact
    ⟨⟨fun _ => 0⟩, ⟨fun _ => 0⟩, ⟨fun _ => 0⟩, ⟨fun _ => 0⟩⟩ u v hv
  refine ⟨q, r, ?_, ?_, ?_, ?_⟩
  · intro ac f
    obtain ⟨q', r', hrun, hq', hr'⟩ := dlongDivrem_spec ac f u v hv
    rw [hrun, toInt_inj (hq'.trans hq.symm), toInt_inj (hr'.trans hr.symm)]
  · rcases quotient_range hvint (toInt_bounds u) with ⟨hu, hone⟩ | hrange
    · right
      rw [hq, hr, hu, hone]
      exact ⟨rfl, rfl, by decide, by decide⟩
    · left
      rw [hq, hr, Wrap.bmod_of_fit (w := 63) hrange, Int.mul_comm]
      exact (Int.mul_tdiv_add_tmod _ _).symm
  · rw [hr, Int.abs_eq_natAbs, Int.abs_eq_natAbs, Int.natAbs_tmod, cast_lt]
    exact mod_lt _ (Int.natAbs_pos.mpr hvint)
  · rw [hr]
    exact sign_remainder _ _

theorem least_dlong_by_minus_one :
    ∃ q r, (∀ ac f, dlongDivrem ac f ⟨0x8000, 0, 0, 0⟩ ⟨0xffff, 0xffff, 0xffff, 0xffff⟩ =
        .ok (q, r)) ∧
      ((⟨0x8000, 0, 0, 0⟩ : Dlong).toInt =
        q.toInt * (⟨0xffff, 0xffff, 0xffff, 0xffff⟩ : Dlong).toInt + r.toInt ∨
        (⟨0x8000, 0, 0, 0⟩ : Dlong).toInt = -2 ^ 63 ∧
        (⟨0xffff, 0xffff, 0xffff, 0xffff⟩ : Dlong).toInt = -1 ∧ q.toInt = -2 ^ 63 ∧
        r.toInt = 0) ∧
      |r.toInt| < |(⟨0xffff, 0xffff, 0xffff, 0xffff⟩ : Dlong).toInt| ∧
      (r.toInt = 0 ∨ r.toInt.sign = (⟨0x8000, 0, 0, 0⟩ : Dlong).toInt.sign) :=
  dlong_divrem_truncates ⟨0x8000, 0, 0, 0⟩ ⟨0xffff, 0xffff, 0xffff, 0xffff⟩ (by decide)

end MachUS.Arith.Dlong
