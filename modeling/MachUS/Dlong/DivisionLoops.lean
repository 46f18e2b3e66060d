import MachUS.Dlong.Division
import Mathlib.Tactic.LinearCombination

namespace MachUS.Arith.Dlong

open Radix Digits Nat

theorem ok_bind {α β : Type} (x : α) (f : α → Run β) : (Except.ok x >>= f) = f x := rfl

theorem Accumulator.put_eq (ac : Accumulator) {x : ℤ} {t : ℕ} (h : x = t) (ht : t < 2 ^ 32) :
    ac.put x = .ok t := by
  rw [h, ac.put_of_fit t ht]

theorem Accumulator.put_mul_add (ac : Accumulator) {x y z : ℕ} (h : x * y + z < 2 ^ 32) :
    ac.put ((x : ℤ) * y + z) = .ok (x * y + z) := by
  apply ac.put_eq _ h
  rw [cast_add, cast_mul]

namespace Digits

variable {size : ℕ} {a : Digits size} {i x : ℕ}

theorem load_eq (h : i < size) : a.load i = .ok (a.cell i).toNat := if_pos h

theorem store_eq (h : i < size) : a.store i x = .ok (a.write i x) := if_pos h

theorem write_self : ((a.write i x).cell i).toNat = x % dlongBase := by
  have h : (a.write i x).cell i = UInt16.ofNat x := Function.update_self _ _ _
  rw [h]
  exact UInt16.toNat_ofNat

theorem write_of_ne {j : ℕ} (h : j ≠ i) : (a.write i x).cell j = a.cell j :=
  Function.update_of_ne h _ _

theorem cell_lt (a : Digits size) (i : ℕ) : (a.cell i).toNat < dlongBase := (a.cell i).toNat_lt

theorem value_snoc (a : Digits size) (lo len : ℕ) :
    a.value lo (len + 1) = a.value lo len * dlongBase + (a.cell (lo + len)).toNat :=
  Radix.value_snoc lo len

theorem value_cons (a : Digits size) (lo len : ℕ) :
    a.value lo (len + 1) = (a.cell lo).toNat * dlongBase ^ len + a.value (lo + 1) len :=
  Radix.value_cons lo len

theorem value_append (a : Digits size) (lo m n : ℕ) :
    a.value lo (m + n) = a.value lo m * dlongBase ^ n + a.value (lo + m) n :=
  Radix.value_append lo m n

theorem value_lt (a : Digits size) (lo len : ℕ) : a.value lo len < dlongBase ^ len :=
  Radix.value_lt (digits_lt a.cell) lo len

theorem value_congr {b : Digits size} {lo len : ℕ}
    (h : ∀ i, lo ≤ i → i < lo + len → a.cell i = b.cell i) : a.value lo len = b.value lo len :=
  Radix.value_congr fun i hi hlt => congrArg UInt16.toNat (h i hi hlt)

end Digits

section Specs

variable {ac : Accumulator} {s t c : ℕ} {src : Digits s} {start dest factor k : ℕ}

def Kept (dst dst' : Digits t) (dest c : ℕ) : Prop :=
  ∀ i, i < dest ∨ dest + c ≤ i → dst'.cell i = dst.cell i

theorem digit_split (x : ℕ) : x / dlongBase * dlongBase + x % dlongBase = x := by
  rw [mul_comm]
  exact div_add_mod _ _

theorem product_fit {x : ℕ} (hx : x < dlongBase) (hf : factor < dlongBase) (hk : k < dlongBase) :
    x * factor + k < 2 ^ 32 := by
  have hmul : x * factor ≤ 65535 * 65535 :=
    Nat.mul_le_mul (Nat.le_of_lt_succ hx) (Nat.le_of_lt_succ hf)
  rw [dlongBase] at hk
  omega

variable (ac src start dest factor) in
theorem scale_spec (hf : factor < dlongBase) (hs : start + c ≤ s) (ht : dest + c ≤ t)
    (hk : k < dlongBase) (dst : Digits t) :
    ∃ dst' k', scale ac src start dest factor c dst k = .ok (dst', k') ∧ k' < dlongBase ∧
      k' * dlongBase ^ c + dst'.value dest c = src.value start c * factor + k ∧
      Kept dst dst' dest c := by
  induction c generalizing dst k with
  | zero => exact ⟨dst, k, rfl, hk, by simp [Digits.value], fun _ _ => rfl⟩
  | succ c ih =>
    have hx := src.cell_lt (start + c)
    set x := (src.cell (start + c)).toNat with hxdef
    have hfit := product_fit hx hf hk
    have hmod : (x * factor + k) / dlongBase % dlongBase = (x * factor + k) / dlongBase := by
      apply mod_eq_of_lt
      rw [dlongBase]
      omega
    have hcarry : (x * factor + k) / dlongBase % dlongBase < dlongBase :=
      mod_lt _ (by decide)
    obtain ⟨dst', k', hrun, hk', hvalue, hkept⟩ := ih (by omega) (by omega) hcarry
      (dst.write (dest + c) (x * factor + k))
    refine ⟨dst', k', ?_, hk', ?_, ?_⟩
    · rw [scale, load_eq (by omega), ok_bind,
        ac.put_mul_add hfit, ok_bind,
        store_eq (by omega), ok_bind]
      exact hrun
    · have hlast : (dst'.cell (dest + c)).toNat = (x * factor + k) % dlongBase := by
        rw [hkept _ (Or.inr (le_refl _)), Digits.write_self]
      have hsplit := digit_split (x * factor + k)
      rw [hmod] at hvalue
      rw [Digits.value_snoc, Digits.value_snoc, hlast, ← hxdef, pow_succ]
      linear_combination dlongBase * hvalue + hsplit
    · intro i hi
      rw [hkept i (by omega), write_of_ne (by omega)]

variable (src start dest) in
theorem bcopy_spec (hs : start + c ≤ s) (ht : dest + c ≤ t) (dst : Digits t) :
    ∃ dst', bcopy src start dest c dst = .ok dst' ∧ dst'.value dest c = src.value start c ∧
      Kept dst dst' dest c := by
  induction c generalizing dst with
  | zero => exact ⟨dst, rfl, rfl, fun _ _ => rfl⟩
  | succ c ih =>
    obtain ⟨dst', hrun, hvalue, hkept⟩ := ih (by omega) (by omega)
      (dst.write (dest + c) (src.cell (start + c)).toNat)
    refine ⟨dst', ?_, ?_, ?_⟩
    · rw [bcopy, load_eq (by omega), ok_bind, store_eq (by omega), ok_bind]
      exact hrun
    · rw [Digits.value_snoc, Digits.value_snoc, hvalue, hkept _ (Or.inr (le_refl _)),
        Digits.write_self, mod_eq_of_lt (src.cell_lt _)]
    · intro i hi
      rw [hkept i (by omega), write_of_ne (by omega)]

variable (ac src start dest) in
theorem shortDivide_spec {divisor : ℕ} (prevu : ℕ) (hd : divisor < dlongBase) (hs : start + c ≤ s)
    (ht : dest + c ≤ t) (hp : prevu < divisor) (dst : Digits t) :
    ∃ dst' p, shortDivide ac src divisor c start dest dst prevu = .ok (dst', p) ∧ p < divisor ∧
      dst'.value dest c * divisor + p = prevu * dlongBase ^ c + src.value start c ∧
      Kept dst dst' dest c := by
  induction c generalizing dst prevu start dest with
  | zero => exact ⟨dst, prevu, rfl, hp, by simp [Digits.value], fun _ _ => rfl⟩
  | succ c ih =>
    have hx := src.cell_lt start
    set x := (src.cell start).toNat with hxdef
    have hlt : x + prevu * dlongBase < divisor * dlongBase := by
      have hmul : (prevu + 1) * dlongBase ≤ divisor * dlongBase := mul_le_mul_right _ hp
      linarith
    have hfit : x + prevu * dlongBase < 2 ^ 32 := by
      rw [dlongBase] at *
      omega
    set y := x + prevu * dlongBase with hy
    have hq : y / divisor % dlongBase = y / divisor :=
      mod_eq_of_lt ((div_lt_iff_lt_mul (by omega)).mpr (by rwa [mul_comm]))
    have hrest : ((y : ℤ) - (divisor : ℤ) * (y / divisor : ℕ)) = (y % divisor : ℕ) := by
      have h : (divisor : ℤ) * (y / divisor : ℕ) + (y % divisor : ℕ) = y :=
        mod_cast div_add_mod y divisor
      omega
    have hmod : y % divisor < divisor := mod_lt _ (by omega)
    obtain ⟨dst', p, hrun, hp', hvalue, hkept⟩ := ih (start + 1) (dest + 1) _
      (by omega) (by omega) hmod (dst.write dest (y / divisor))
    refine ⟨dst', p, ?_, hp', ?_, ?_⟩
    · rw [shortDivide, load_eq (by omega), ok_bind, ac.put_eq (t := y) (by rw [hy]; push_cast; rfl)
        hfit, ok_bind]
      simp only [hq]
      rw [store_eq (by omega), ok_bind, ac.put_eq hrest ((mod_le _ _).trans_lt hfit), ok_bind]
      exact hrun
    · have hfirst : (dst'.cell dest).toNat = y / divisor := by
        rw [hkept _ (Or.inl (by omega)), Digits.write_self, hq]
      have hsplit := div_add_mod y divisor
      rw [Digits.value_cons, Digits.value_cons, hfirst, pow_succ]
      linear_combination hvalue + dlongBase ^ c * hsplit + dlongBase ^ c * hy
    · intro i hi
      rw [hkept i (by omega), write_of_ne (by omega)]

theorem borrow_div (diff : UInt32) :
    (if diff / (65536 : UInt32) ≠ 0 then (1 : UInt32) else 0) = borrow diff := by
  have h : diff / (65536 : UInt32) = diff >>> 16 := by
    rw [← UInt32.toNat_inj, UInt32.toNat_div, UInt32.toNat_shiftRight]
    exact (shiftRight_eq_div_pow _ 16).symm
  rw [h, borrow]

theorem subtract_spec {j : ℕ} (borrow : UInt32) (hs : c ≤ s) (ht : j + c ≤ t)
    (hb : borrow.toNat ≤ 1) (nv : Digits s) (uv : Digits t) :
    ∃ uv' out, subtract nv j c uv borrow = .ok (uv', out) ∧ out.toNat ≤ 1 ∧
      uv'.value j c + nv.value 0 c + borrow.toNat = uv.value j c + out.toNat * dlongBase ^ c ∧
      Kept uv uv' j c := by
  induction c generalizing uv borrow with
  | zero => exact ⟨uv, borrow, rfl, hb, by simp [Digits.value], fun _ _ => rfl⟩
  | succ c ih =>
    set x := uv.cell (j + c) with hx
    set y := nv.cell c with hy
    set diff := x.toUInt32 - y.toUInt32 - borrow with hdiff
    have hstep := sub_step (a := x) (b := y) hb
    rw [← hdiff, UInt32.toNat_toUInt16] at hstep
    obtain ⟨uv', out, hrun, hout, hvalue, hkept⟩ := ih _ (by omega) (by omega) (borrow_le diff)
      (uv.write (j + c) diff.toNat)
    refine ⟨uv', out, ?_, hout, ?_, ?_⟩
    · rw [subtract, load_eq (by omega), ok_bind, load_eq (by omega), ok_bind,
        UInt32.ofNat_uInt16ToNat, UInt32.ofNat_uInt16ToNat, ← hx, ← hy]
      simp only [← hdiff]
      rw [store_eq (by omega), ok_bind, borrow_div]
      exact hrun
    · have hlast : (uv'.cell (j + c)).toNat = diff.toNat % dlongBase := by
        rw [hkept _ (Or.inr (le_refl _)), Digits.write_self]
      have hrest : (uv.write (j + c) diff.toNat).value j c = uv.value j c :=
        value_congr fun i _ hi => write_of_ne (by omega)
      rw [hrest] at hvalue
      rw [Digits.value_snoc, Digits.value_snoc, Digits.value_snoc, hlast, zero_add, pow_succ]
      rw [← hx, ← hy]
      rw [dlongBase] at *
      linear_combination 65536 * hvalue + hstep
    · intro i hi
      rw [hkept i (by omega), write_of_ne (by omega)]

variable (ac) in
theorem addBack_spec {j : ℕ} (hs : c ≤ s) (ht : j + 1 + c ≤ t) (hk : k ≤ 1) (vv : Digits s)
    (uv : Digits t) :
    ∃ uv' k', addBack ac vv j c uv k = .ok (uv', k') ∧ k' ≤ 1 ∧
      k' * dlongBase ^ c + uv'.value (j + 1) c = uv.value (j + 1) c + vv.value 0 c + k ∧
      Kept uv uv' (j + 1) c := by
  induction c generalizing uv k with
  | zero => exact ⟨uv, k, rfl, hk, by simp [Digits.value], fun _ _ => rfl⟩
  | succ c ih =>
    have hx := uv.cell_lt (j + 1 + c)
    have hy := vv.cell_lt c
    set x := (uv.cell (j + 1 + c)).toNat with hxdef
    set y := (vv.cell c).toNat with hydef
    set sum := x + y + k with hsum
    have hcarry : sum / dlongBase % dlongBase = sum / dlongBase ∧ sum / dlongBase ≤ 1 := by
      rw [dlongBase] at *
      omega
    obtain ⟨uv', k', hrun, hk', hvalue, hkept⟩ := ih (by omega) (by omega) hcarry.2
      (uv.write (j + 1 + c) sum)
    refine ⟨uv', k', ?_, hk', ?_, ?_⟩
    · rw [addBack, load_eq (by omega), ok_bind, load_eq (by omega), ok_bind,
        ac.put_eq (t := sum) (by rw [hsum]; push_cast; rfl) (by rw [dlongBase] at *; omega), ok_bind,
        store_eq (by omega), ok_bind, hcarry.1]
      exact hrun
    · have hlast : (uv'.cell (j + 1 + c)).toNat = sum % dlongBase := by
        rw [hkept _ (Or.inr (le_refl _)), Digits.write_self]
      have hrest : (uv.write (j + 1 + c) sum).value (j + 1) c = uv.value (j + 1) c :=
        value_congr fun i _ hi => write_of_ne (by omega)
      have hsplit := digit_split sum
      rw [hrest] at hvalue
      rw [Digits.value_snoc, Digits.value_snoc, Digits.value_snoc, hlast, zero_add, pow_succ]
      rw [← hxdef, ← hydef]
      linear_combination dlongBase * hvalue + hsplit
    · intro i hi
      rw [hkept i (by omega), write_of_ne (by omega)]

variable (ac) in
theorem estimate_spec {v1 v2 u0 u1 u2 q : ℕ} (h0 : u0 < dlongBase) (h1 : u1 < dlongBase)
    (h2 : u2 < dlongBase) (hv2 : v2 < dlongBase) (hq : q < dlongBase)
    (hle : q * v1 ≤ u0 * dlongBase + u1) :
    ∃ q', estimate ac v1 v2 u0 u1 u2 q = .ok q' ∧ q' ≤ q ∧
      q' * (v1 * dlongBase + v2) ≤ u0 * dlongBase * dlongBase + u1 * dlongBase + u2 ∧
      ∀ i, q' < i → i ≤ q →
        u0 * dlongBase * dlongBase + u1 * dlongBase + u2 < i * (v1 * dlongBase + v2) := by
  induction q with
  | zero => exact ⟨0, rfl, le_refl _, by simp, fun i hi hle => by omega⟩
  | succ q ih =>
    have hsquare : dlongBase * dlongBase = 2 ^ 32 := by decide
    have hsmall : v2 * (q + 1) < dlongBase * dlongBase :=
      mul_lt_mul'' hv2 hq
    have hfit : u0 * dlongBase + u1 < 2 ^ 32 := by
      rw [dlongBase] at *
      omega
    obtain ⟨r, hr⟩ := Nat.exists_eq_add_of_le hle
    have hdiff : ((u0 * dlongBase + u1 : ℕ) : ℤ) - ((q + 1) * v1 : ℕ) = (r : ℕ) := by omega
    have hsum : u0 * dlongBase * dlongBase + u1 * dlongBase + u2 =
        (q + 1) * v1 * dlongBase + (r * dlongBase + u2) := by
      linear_combination dlongBase * hr
    have hprod : (q + 1) * (v1 * dlongBase + v2) = (q + 1) * v1 * dlongBase + v2 * (q + 1) := by
      ring
    have hproduct : ac.put (((q : ℕ) + 1) * (v1 : ℕ)) = .ok ((q + 1) * v1) :=
      ac.put_eq (by push_cast; rfl) (by omega)
    rw [estimate, ac.put_mul_add hfit, ok_bind, hproduct, ok_bind,
      ac.put_eq hdiff (by omega), ok_bind]
    by_cases hbig : r / dlongBase ≠ 0
    · rw [if_pos hbig]
      refine ⟨q + 1, rfl, le_refl _, ?_, fun i hi hle => by omega⟩
      rw [hsum, hprod]
      rw [dlongBase] at *
      omega
    · have hdigit : r < dlongBase :=
        (div_eq_zero_iff_lt (by decide)).mp (not_not.mp hbig)
      have hrest : r * dlongBase + u2 < 2 ^ 32 := by
        have hmul : (r + 1) * dlongBase ≤ dlongBase * dlongBase := mul_le_mul_right _ hdigit
        rw [hsquare] at hmul
        linarith
      have hproduct : ac.put ((v2 : ℕ) * ((q : ℕ) + 1)) = .ok (v2 * (q + 1)) :=
        ac.put_eq (by push_cast; rfl) (by omega)
      rw [if_neg hbig, ac.put_mul_add hrest, ok_bind, hproduct, ok_bind]
      by_cases htest : v2 * (q + 1) ≤ r * dlongBase + u2
      · rw [if_pos htest]
        refine ⟨q + 1, rfl, le_refl _, ?_, fun i hi hle => by omega⟩
        rw [hsum, hprod]
        omega
      · rw [if_neg htest]
        have hle' : q * v1 ≤ u0 * dlongBase + u1 :=
          (mul_le_mul_right _ (le_succ q)).trans hle
        obtain ⟨q', hrun, hq', hpass, hfail⟩ := ih (by omega) hle'
        refine ⟨q', hrun, by omega, hpass, fun i hi hile => ?_⟩
        rcases lt_or_eq_of_le hile with hlt | heq
        · exact hfail i hi (by omega)
        · rw [heq, hsum, hprod]
          omega

end Specs

section Step

variable {ac : Accumulator} {n j : ℕ}

theorem three_digits {size : ℕ} (a : Digits size) (lo : ℕ) :
    a.value lo 3 = (a.cell lo).toNat * dlongBase * dlongBase +
      (a.cell (lo + 1)).toNat * dlongBase + (a.cell (lo + 2)).toNat := by
  rw [Digits.value_snoc, Digits.value_snoc, Digits.value, Radix.value_one, add_mul]
  rfl

theorem two_digits {size : ℕ} (a : Digits size) (lo : ℕ) :
    a.value lo 2 = (a.cell lo).toNat * dlongBase + (a.cell (lo + 1)).toNat := by
  rw [Digits.value_snoc, Digits.value, Radix.value_one]
  rfl

variable (ac) in
theorem guess_spec {u0 u1 v1 : ℕ} (h1 : u1 < dlongBase) (hv1 : v1 < dlongBase) (hv : 0 < v1)
    (hle : u0 ≤ v1) :
    ∃ q, guess ac u0 u1 v1 = .ok q ∧ q < dlongBase ∧ q * v1 ≤ u0 * dlongBase + u1 ∧
      (q = dlongBase - 1 ∨ q = (u0 * dlongBase + u1) / v1) := by
  by_cases heq : u0 = v1
  · refine ⟨dlongBase - 1, ?_, by decide, ?_, Or.inl rfl⟩
    · rw [guess, if_pos heq]
      exact ac.put_eq (by decide) (by decide)
    · rw [heq, mul_comm]
      exact (mul_le_mul_left _ (sub_le _ _)).trans (le_add_right _ _)
  · have hlt : u0 * dlongBase + u1 < v1 * dlongBase := by
      have hmul : (u0 + 1) * dlongBase ≤ v1 * dlongBase :=
        mul_le_mul_right _ (lt_of_le_of_ne hle heq)
      linarith
    have hdigit : (u0 * dlongBase + u1) / v1 < dlongBase := by
      rwa [div_lt_iff_lt_mul hv, mul_comm dlongBase]
    have hfit : u0 * dlongBase + u1 < 2 ^ 32 := by
      rw [dlongBase] at *
      omega
    refine ⟨(u0 * dlongBase + u1) / v1, ?_, hdigit, div_mul_le_self _ _, Or.inr rfl⟩
    rw [guess, if_neg heq, ac.put_mul_add hfit, ok_bind]
    exact ac.put_eq (Int.natCast_div _ _).symm (hdigit.trans (by decide))

theorem leading_digits {f : Frame} (h : f.uv.value j n < f.vv.value 0 n) (hn : 2 ≤ n) :
    (f.uv.cell j).toNat ≤ (f.vv.cell 0).toNat := by
  obtain ⟨e, rfl⟩ := Nat.exists_eq_add_of_le' hn
  have hv := f.vv.value_lt (0 + 1) (e + 1)
  rw [Digits.value_cons, Digits.value_cons f.vv] at h
  by_contra hlt
  have hmul : ((f.vv.cell 0).toNat + 1) * dlongBase ^ (e + 1) ≤
      (f.uv.cell j).toNat * dlongBase ^ (e + 1) := mul_le_mul_right _ (by omega)
  linarith

theorem added_back {w low x r p : ℕ} (hlow : low < p) (hr : r < p * dlongBase)
    (hsum : w * p + low = x) (hx : x = p * dlongBase + r) : w % dlongBase * p + low = r := by
  have hsplit := div_add_mod w dlongBase
  have hdigit : w % dlongBase < dlongBase := mod_lt _ (by decide)
  have hlt : w % dlongBase * p + low < p * dlongBase := by
    have hmul : (w % dlongBase + 1) * p ≤ dlongBase * p := mul_le_mul_right _ hdigit
    linarith
  have htotal : p * dlongBase * (w / dlongBase) + (w % dlongBase * p + low) =
      p * dlongBase * 1 + r := by
    linear_combination hsum + hx + p * hsplit
  have hmod := congrArg (· % (p * dlongBase)) htotal
  simpa [mul_add_mod, mod_eq_of_lt hlt, mod_eq_of_lt hr] using hmod

variable (ac) in
theorem testRemainder_spec (borrow : UInt32) {u v : ℕ} (f : Frame) (hj : j + n ≤ 4)
    (hborrow : borrow.toNat ≤ 1) (hv : f.vv.value 0 n = v) (hvpos : 0 < v)
    (hdiff : f.uv.value j (n + 1) + (f.qv.cell j).toNat * v = u + borrow.toNat * dlongBase ^ (n + 1))
    (hlow : u / v ≤ (f.qv.cell j).toNat) (hhigh : (f.qv.cell j).toNat ≤ u / v + 1) :
    ∃ f', testRemainder ac n j borrow f = .ok f' ∧ f'.vv = f.vv ∧
      (f'.qv.cell j).toNat = u / v ∧ f'.uv.value j (n + 1) = u % v ∧
      Kept f.uv f'.uv j (n + 1) ∧ Kept f.qv f'.qv j 1 := by
  have hsplit := div_add_mod u v
  have hmodlt := mod_lt u hvpos
  have hvlt : v < dlongBase ^ n := by
    rw [← hv]
    exact f.vv.value_lt 0 n
  have huvlt := f.uv.value_lt j (n + 1)
  set q := (f.qv.cell j).toNat with hq
  rw [testRemainder]
  by_cases hout : borrow = 0
  · rw [if_neg (not_not.mpr hout)]
    rw [hout, UInt32.toNat_zero, zero_mul, add_zero] at hdiff
    have heq : q = u / v := by
      apply le_antisymm _ hlow
      rw [le_div_iff_mul_le hvpos]
      omega
    refine ⟨f, rfl, rfl, heq, ?_, fun _ _ => rfl, fun _ _ => rfl⟩
    rw [heq, mul_comm] at hdiff
    omega
  · have hone : borrow.toNat = 1 := by
      rw [← UInt32.toNat_inj, UInt32.toNat_zero] at hout
      omega
    rw [hone, one_mul] at hdiff
    have heq : q = u / v + 1 := by
      by_contra hne
      have hq' : q = u / v := by omega
      rw [hq', mul_comm] at hdiff
      omega
    obtain ⟨uv, k, hadd, hk, hsum, huv⟩ := addBack_spec ac (k := 0) (c := n) (j := j)
      (by omega) (by omega) (by decide) f.vv f.uv
    rw [if_pos hout, hadd, ok_bind]
    simp only
    rw [load_eq (by omega), ok_bind, store_eq (by omega), ok_bind,
      load_eq (by omega), ok_bind, store_eq (by omega), ok_bind]
    refine ⟨_, rfl, rfl, ?_, ?_, ?_, ?_⟩
    · have hdigit := f.qv.cell_lt j
      rw [← hq, heq] at hdigit
      rw [Digits.write_self, ← hq, heq, add_assoc,
        Nat.add_sub_cancel' (show 1 ≤ dlongBase by decide), Nat.add_mod_right]
      exact mod_eq_of_lt (lt_of_succ_lt hdigit)
    · have hrest : (uv.write j ((uv.cell j).toNat + k)).value (j + 1) n = uv.value (j + 1) n :=
        value_congr fun i hi _ => write_of_ne (by omega)
      have hcell : uv.cell j = f.uv.cell j := huv j (Or.inl (by omega))
      rw [Digits.value_cons, hrest, Digits.write_self]
      rw [Digits.value_cons] at hdiff
      rw [heq] at hdiff
      have hpow : dlongBase ^ n ≤ dlongBase ^ (n + 1) := Nat.pow_le_pow_right (by decide) (by omega)
      apply added_back (x := dlongBase ^ (n + 1) + u % v) (uv.value_lt _ _) _ _ rfl
      · rw [← pow_succ]
        omega
      · rw [hcell]
        linear_combination hsum + hdiff - hsplit + hv
    · intro i hi
      rw [write_of_ne (by omega), huv i (by omega)]
    · intro i hi
      exact write_of_ne (by omega)

variable (ac) in
theorem divideStep_spec (f : Frame) (hn : 2 ≤ n) (hj : j + n ≤ 4)
    (hv : 0 < (f.vv.cell 0).toNat) (hlead : f.uv.value j n < f.vv.value 0 n) :
    ∃ f', divideStep ac n (f.vv.cell 0).toNat (f.vv.cell 1).toNat j f = .ok f' ∧ f'.vv = f.vv ∧
      (f'.qv.cell j).toNat = f.uv.value j (n + 1) / f.vv.value 0 n ∧
      f'.uv.value j (n + 1) = f.uv.value j (n + 1) % f.vv.value 0 n ∧
      Kept f.uv f'.uv j (n + 1) ∧ Kept f.qv f'.qv j 1 := by
  set u := f.uv.value j (n + 1) with hu
  set v := f.vv.value 0 n with hvdef
  obtain ⟨e, he⟩ := Nat.exists_eq_add_of_le hn
  have hudigits : u = ((f.uv.cell j).toNat * dlongBase * dlongBase +
      (f.uv.cell (j + 1)).toNat * dlongBase + (f.uv.cell (j + 2)).toNat) * dlongBase ^ e +
      f.uv.value (j + 3) e := by
    rw [hu, he, show 2 + e + 1 = 3 + e by omega, Digits.value_append, three_digits]
  have hvdigits : v = ((f.vv.cell 0).toNat * dlongBase + (f.vv.cell 1).toNat) * dlongBase ^ e +
      f.vv.value 2 e := by
    rw [hvdef, he, Digits.value_append, two_digits]
  have hvpos : 0 < v := lt_of_le_of_lt (zero_le _) hlead
  have hquotient : u / v < dlongBase := by
    rw [div_lt_iff_lt_mul hvpos, hu, Digits.value_snoc]
    have hmul : (f.uv.value j n + 1) * dlongBase ≤ v * dlongBase := mul_le_mul_right _ hlead
    linarith [f.uv.cell_lt (j + n)]
  obtain ⟨q0, hq0run, hq0, hq0le, hq0eq⟩ := guess_spec ac (f.uv.cell_lt (j + 1))
    (f.vv.cell_lt 0) hv (leading_digits hlead hn)
  have hq0ge : u / v ≤ q0 := by
    rcases hq0eq with h | h
    · omega
    · rw [h]
      exact quotient_le_of_digits hudigits (f.uv.cell_lt _) (f.uv.value_lt _ _) hvdigits hv
  obtain ⟨q, hqrun, hqle, hpass, hfail⟩ := estimate_spec ac (f.uv.cell_lt j)
    (f.uv.cell_lt (j + 1)) (f.uv.cell_lt (j + 2)) (f.vv.cell_lt 1) hq0 hq0le
  have hqlow : u / v ≤ q := by
    by_contra hlt
    have htest := hfail (q + 1) (by omega) (by omega)
    have h := quotient_lt_of_test hvpos hudigits (f.uv.value_lt _ _) hvdigits htest
    omega
  have hqhigh : q ≤ u / v + 1 :=
    le_quotient_of_test hvpos hudigits hvdigits (f.vv.value_lt _ _) hv (by omega) hpass
  obtain ⟨nv, k, hscale, hk, hnv, -⟩ := scale_spec ac f.vv 0 1 q (c := n) (k := 0)
    (by omega) (by omega) (by omega) (by decide) f.nv
  obtain ⟨uv, out, hsub, hout, hdiff, huv⟩ := subtract_spec (c := n + 1) (j := j) 0
    (by omega) (by omega) (by decide) (nv.write 0 k) f.uv
  have hproduct : (nv.write 0 k).value 0 (n + 1) = q * v := by
    have hrest : (nv.write 0 k).value (0 + 1) n = nv.value 1 n :=
      value_congr fun i hi _ => write_of_ne (by omega)
    rw [Digits.value_cons, hrest, Digits.write_self, mod_eq_of_lt hk]
    linarith
  rw [hproduct, UInt32.toNat_zero, add_zero] at hdiff
  have hcell : ((f.qv.write j q).cell j).toNat = q := by
    rw [Digits.write_self, mod_eq_of_lt (by omega)]
  obtain ⟨f', hrun, hvv, hqv, huv', hkept, hqkept⟩ := testRemainder_spec ac out (n := n) (j := j)
    (u := u) (v := v) { f with uv, qv := f.qv.write j q, nv := nv.write 0 k }
    hj hout rfl hvpos (by rw [hcell]; exact hdiff) (by rw [hcell]; exact hqlow)
    (by rw [hcell]; exact hqhigh)
  refine ⟨f', ?_, hvv, hqv, huv', ?_, ?_⟩
  · rw [divideStep, load_eq (by omega), ok_bind, load_eq (by omega), ok_bind,
      hq0run, ok_bind, load_eq (by omega), ok_bind, hqrun, ok_bind, hscale, ok_bind]
    simp only
    rw [store_eq (by omega), ok_bind, hsub, ok_bind]
    rw [store_eq (by omega), ok_bind]
    exact hrun
  · intro i hi
    rw [hkept i hi, huv i hi]
  · intro i hi
    rw [hqkept i hi]
    exact write_of_ne (by omega)

variable (ac) in
theorem divideLoop_spec {v1 v2 v c : ℕ} (hn : 2 ≤ n) (hv : 0 < v1) (f : Frame)
    (h1 : (f.vv.cell 0).toNat = v1) (h2 : (f.vv.cell 1).toNat = v2) (hvv : f.vv.value 0 n = v)
    (hj : j + c + n ≤ 5) (hlead : f.uv.value j n < v) :
    ∃ f', divideLoop ac n v1 v2 c j f = .ok f' ∧
      f'.qv.value j c * v + f'.uv.value (j + c) n = f.uv.value j (c + n) ∧
      f'.uv.value (j + c) n < v ∧ ∀ i < j, f'.qv.cell i = f.qv.cell i := by
  induction c generalizing j f with
  | zero => exact ⟨f, rfl, by simp [Digits.value], hlead, fun _ _ => rfl⟩
  | succ c ih =>
    obtain ⟨f1, hstep, hfix, hq, hr, huv, hqv⟩ := divideStep_spec ac f hn
      (show j + n ≤ 4 by omega) (by rwa [h1]) (by rwa [hvv])
    rw [hvv] at hq hr
    set u := f.uv.value j (n + 1) with hu
    have hvpos : 0 < v := lt_of_le_of_lt (zero_le _) hlead
    have hmodlt := mod_lt u hvpos
    have hvlt : v < dlongBase ^ n := by
      rw [← hvv]
      exact f.vv.value_lt 0 n
    have hzero : (f1.uv.cell j).toNat = 0 := by
      by_contra hne
      rw [Digits.value_cons] at hr
      have hmul : 1 * dlongBase ^ n ≤ (f1.uv.cell j).toNat * dlongBase ^ n :=
        mul_le_mul_right _ (pos_of_ne_zero hne)
      omega
    have hnext : f1.uv.value (j + 1) n = u % v := by
      rw [← hr, Digits.value_cons, hzero, zero_mul, zero_add]
    obtain ⟨f', hrun, hvalue, hlast, hkept⟩ := ih (j := j + 1) f1 (by rw [hfix, h1]) (by rw [hfix, h2])
      (by rw [hfix, hvv]) (by omega) (by rwa [hnext])
    have hrest : f1.uv.value (j + 1 + n) c = f.uv.value (j + 1 + n) c :=
      value_congr fun i hi _ => huv i (Or.inr (by omega))
    have hdigit : (f'.qv.cell j).toNat = u / v := by
      rw [hkept j (by omega), hq]
    refine ⟨f', ?_, ?_, ?_, ?_⟩
    · rw [divideLoop, ← h1, ← h2, hstep, ok_bind, h1, h2]
      exact hrun
    · have hsplit := div_add_mod u v
      rw [add_comm c n, Digits.value_append, hnext, hrest] at hvalue
      rw [Digits.value_cons, hdigit, show c + 1 + n = n + 1 + c by omega, Digits.value_append,
        ← hu, show j + (n + 1) = j + 1 + n by omega, show j + (c + 1) = j + 1 + c by omega]
      linear_combination hvalue + dlongBase ^ c * hsplit
    · rwa [show j + (c + 1) = j + 1 + c by omega]
    · intro i hi
      rw [hkept i (by omega), hqv i (Or.inl hi)]

end Step

end MachUS.Arith.Dlong
