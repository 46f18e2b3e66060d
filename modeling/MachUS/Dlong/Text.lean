import MachUS.Dlong.LongDivision

namespace MachUS.Arith.Dlong

open List Wrap Nat

def dlongDigits : List UInt8 := (range' 48 10 ++ range' 97 26).map UInt8.ofNat

def minus : UInt8 := 45

def isspace (c : UInt8) : Bool := c = 32 || (9 ≤ c && c ≤ 13)

def isupper (c : UInt8) : Bool := 65 ≤ c && c ≤ 90

def tolower (c : UInt8) : UInt8 := c - 65 + 97

def dlongSgn (x : Dlong) : ℤ :=
  if x.d3 = 0 ∧ x.d2 = 0 ∧ x.d1 = 0 ∧ x.d0 = 0 then 0
  else if x.d0 &&& 0x8000 ≠ 0 then -1 else 1

def digitAt (i : Int32) : Run UInt8 :=
  match dlongDigits[i.toInt.toNat]? with
  | some c => if 0 ≤ i then .ok c else .error .index
  | none => .error .index

section Write

variable (ac : Accumulator) (f : Frame)

def toStringLoop (b minusB : Dlong) : ℕ → Dlong → List UInt8 → Run (Dlong × List UInt8)
  | room, t, low =>
    if dlongCmp t minusB ≤ 0 then
      match room with
      | 0 => .error .index
      | room + 1 => do
        let (div, rem) ← dlongDivrem ac f t b
        let c ← digitAt (-dlongToInt rem)
        toStringLoop b minusB room div (c :: low)
    else .ok (t, low)

def dlongToString (x : Dlong) (base : Int32) : Run (List UInt8) := do
  let b := intToDlong (if 2 ≤ base ∧ base ≤ 36 then base else 10)
  let minusB := dlongNeg b
  let t := if dlongSgn x < 0 then x else dlongNeg x
  let (t, low) ← toStringLoop ac f b minusB 64 t []
  let c ← digitAt (-dlongToInt t)
  .ok ((if dlongSgn x < 0 then [minus] else []) ++ c :: low ++ [0])

end Write

section Read

def stringLoop (b : Dlong) : Dlong → List UInt8 → Dlong × List UInt8
  | t, [] => (t, [])
  | t, c :: s =>
    let lower := if isupper c then tolower c else c
    match if lower = 0 then none else dlongDigits.idxOf? lower with
    | none => (t, c :: s)
    | some dx => stringLoop b (dlongSub (dlongMul t b) (intToDlong (Int32.ofNat dx))) s

def skipMinus : List UInt8 → Bool × List UInt8
  | [] => (false, [])
  | c :: s => if c = minus then (true, s) else (false, c :: s)

def stringToDlong (str : List UInt8) (base : Int32) : Dlong × List UInt8 :=
  let (negative, s) := skipMinus (str.dropWhile isspace)
  let (t, s) := stringLoop (intToDlong base) zero s
  (if negative then t else dlongNeg t, s)

end Read

def digitValue (c : UInt8) : Option ℕ :=
  if 48 ≤ c ∧ c ≤ 57 then some (c.toNat - 48)
  else if 97 ≤ c ∧ c ≤ 122 then some (c.toNat - 87)
  else if 65 ≤ c ∧ c ≤ 90 then some (c.toNat - 55)
  else none

def isDigitOf (base : ℕ) (c : UInt8) : Bool := (digitValue c).any (· < base)

def textValue (base a : ℕ) : List UInt8 → ℕ
  | [] => a
  | c :: s => textValue base (a * base + (digitValue c).getD 0) s

def charOf (i : ℕ) : UInt8 := dlongDigits.getD i 0

section Characters

theorem of_all_bytes {p : UInt8 → Prop} (h : ∀ n : Fin 256, p (UInt8.ofNat n.val)) (c : UInt8) :
    p c := by
  have hc := h ⟨c.toNat, c.toNat_lt⟩
  rwa [UInt8.ofNat_toNat] at hc

theorem index_digitValue (c : UInt8) :
    (if (if isupper c then tolower c else c) = 0 then none
      else dlongDigits.idxOf? (if isupper c then tolower c else c)) = digitValue c :=
  of_all_bytes (p := fun c => (if (if isupper c then tolower c else c) = 0 then none
    else dlongDigits.idxOf? (if isupper c then tolower c else c)) = digitValue c)
    (by decide +kernel) c

theorem digitValue_lt (c : UInt8) : (digitValue c).getD 0 < 36 :=
  of_all_bytes (p := fun c => (digitValue c).getD 0 < 36) (by decide +kernel) c

theorem charOf_spec {i : ℕ} (h : i < 36) :
    dlongDigits[i]? = some (charOf i) ∧ digitValue (charOf i) = some i ∧
      isspace (charOf i) = false ∧ charOf i ≠ minus := by
  have hall : ∀ i : Fin 36, dlongDigits[i.val]? = some (charOf i) ∧
      digitValue (charOf i) = some i.val ∧ isspace (charOf i) = false ∧ charOf i ≠ minus := by
    decide +kernel
  exact hall ⟨i, h⟩

end Characters

section Reader

variable {b t : Dlong} {base a : ℕ} {s : List UInt8}

theorem intToDlong_ofNat {i : ℕ} (h : i < 36) : (intToDlong (Int32.ofNat i)).toInt = i := by
  rw [intToDlong_toInt]
  exact int32_of_small (by omega)

theorem step_modEq {d : Dlong} {v : ℕ} (hb : b.toInt = base) (hd : d.toInt = v)
    (ht : t.toInt ≡ -(a : ℤ) [ZMOD 2 ^ 64]) :
    (dlongSub (dlongMul t b) d).toInt ≡ -((a * base + v : ℕ) : ℤ) [ZMOD 2 ^ 64] := by
  rw [dlongSub_toInt, dlongMul_toInt, hb, hd]
  have hsum : -((a * base + v : ℕ) : ℤ) = -(a : ℤ) * base - v := by
    push_cast
    ring
  rw [hsum]
  exact (bmod_modEq 64 _).trans (((bmod_modEq 64 _).trans (ht.mul_right _)).sub_right _)

theorem stringLoop_spec (hb : b.toInt = base) (ht : t.toInt ≡ -(a : ℤ) [ZMOD 2 ^ 64]) :
    (stringLoop b t s).2 = s.dropWhile (fun c => (digitValue c).isSome) ∧
      (stringLoop b t s).1.toInt ≡
        -(textValue base a (s.takeWhile fun c => (digitValue c).isSome) : ℤ) [ZMOD 2 ^ 64] := by
  induction s generalizing t a with
  | nil => exact ⟨rfl, ht⟩
  | cons c s ih =>
    rw [stringLoop]
    simp only [index_digitValue]
    cases hc : digitValue c with
    | none => simpa [hc, textValue] using ht
    | some v =>
      have hv := digitValue_lt c
      rw [hc, Option.getD_some] at hv
      simpa [hc, textValue] using ih (step_modEq hb (intToDlong_ofNat hv) ht)

def digitsPart (str : List UInt8) : List UInt8 := (skipMinus (str.dropWhile isspace)).2

def isNegative (str : List UInt8) : Bool := (skipMinus (str.dropWhile isspace)).1

theorem stringToDlong_spec {base : Int32} (str : List UInt8) (h : 0 ≤ base.toInt) :
    (stringToDlong str base).2 = (digitsPart str).dropWhile (fun c => (digitValue c).isSome) ∧
      (stringToDlong str base).1.toInt =
        (if isNegative str
          then -(textValue base.toInt.toNat 0
            ((digitsPart str).takeWhile fun c => (digitValue c).isSome) : ℤ)
          else textValue base.toInt.toNat 0
            ((digitsPart str).takeWhile fun c => (digitValue c).isSome)).bmod (2 ^ 64) := by
  have hb : (intToDlong base).toInt = base.toInt.toNat := by
    rw [intToDlong_toInt, Int.toNat_of_nonneg h]
  have hzero : zero.toInt ≡ -((0 : ℕ) : ℤ) [ZMOD 2 ^ 64] := by
    rw [zero_toInt]
    rfl
  obtain ⟨hrest, hvalue⟩ := stringLoop_spec (s := digitsPart str) hb hzero
  have hrun : stringToDlong str base =
      (if isNegative str then (stringLoop (intToDlong base) zero (digitsPart str)).1
        else dlongNeg (stringLoop (intToDlong base) zero (digitsPart str)).1,
        (stringLoop (intToDlong base) zero (digitsPart str)).2) := rfl
  set r := stringLoop (intToDlong base) zero (digitsPart str)
  refine ⟨by rw [hrun, hrest], ?_⟩
  rw [hrun]
  cases isNegative str with
  | true =>
    rw [if_pos rfl, if_pos rfl, ← bmod_of_fit (w := 63) (toInt_bounds r.1)]
    exact bmod_congr hvalue
  | false =>
    rw [if_neg Bool.false_ne_true, if_neg Bool.false_ne_true, dlongNeg_toInt]
    have hneg := hvalue.neg
    rw [neg_neg] at hneg
    exact bmod_congr hneg

theorem dropWhile_of_imp {α : Type} {p q : α → Bool} (h : ∀ c, p c = true → q c = true)
    (l : List α) : l.dropWhile q = (l.dropWhile p).dropWhile q := by
  induction l with
  | nil => rfl
  | cons c l ih =>
    cases hp : p c with
    | false => simp [hp]
    | true => simp [hp, h c hp, ih]

theorem dropWhile_eq_iff {α : Type} {p q : α → Bool} (h : ∀ c, p c = true → q c = true)
    (l : List α) :
    l.dropWhile q = l.dropWhile p ↔ ∀ c ∈ (l.dropWhile p).head?, q c = false := by
  rw [dropWhile_of_imp h]
  cases hrest : l.dropWhile p with
  | nil => simp
  | cons c s =>
    cases hq : q c with
    | false => simp [hq]
    | true =>
      have hlt : (s.dropWhile q).length < (c :: s).length :=
        lt_succ_of_le (dropWhile_suffix q).length_le
      simp only [dropWhile_cons, hq, if_true, head?_cons, Option.mem_some_iff,
        forall_eq', Bool.true_eq_false, iff_false]
      intro heq
      rw [heq] at hlt
      exact lt_irrefl _ hlt

theorem takeWhile_eq_of_dropWhile {α : Type} {p q : α → Bool} {l : List α}
    (h : l.dropWhile q = l.dropWhile p) : l.takeWhile q = l.takeWhile p := by
  have hq := takeWhile_append_dropWhile (p := q) (l := l)
  have hp := takeWhile_append_dropWhile (p := p) (l := l)
  rw [h] at hq
  exact append_cancel_right (hq.trans hp.symm)

def Reads (str : List UInt8) (base : Int32) : Prop :=
  let prefixOf := (digitsPart str).takeWhile (isDigitOf base.toInt.toNat)
  let value : ℤ := textValue base.toInt.toNat 0 prefixOf
  (stringToDlong str base).2 = (digitsPart str).dropWhile (isDigitOf base.toInt.toNat) ∧
    (stringToDlong str base).1.toInt = (if isNegative str then -value else value).bmod (2 ^ 64)

theorem string_to_dlong_reads_iff (str : List UInt8) (base : Int32)
    (h : 2 ≤ base.toInt ∧ base.toInt ≤ 36) :
    Reads str base ↔ ∀ c ∈ ((digitsPart str).dropWhile (isDigitOf base.toInt.toNat)).head?,
      digitValue c = none := by
  obtain ⟨hrest, hvalue⟩ := stringToDlong_spec str (show 0 ≤ base.toInt by omega)
  have himp : ∀ c, isDigitOf base.toInt.toNat c = true → (digitValue c).isSome = true := by
    intro c hc
    rw [isDigitOf] at hc
    cases hd : digitValue c with
    | none => simp [hd] at hc
    | some v => rfl
  have hiff := dropWhile_eq_iff himp (digitsPart str)
  simp only [Option.isSome_eq_false_iff, Option.isNone_iff_eq_none] at hiff
  rw [← hiff, Reads, hrest]
  constructor
  · exact And.left
  · intro heq
    refine ⟨heq, ?_⟩
    rw [hvalue, takeWhile_eq_of_dropWhile heq]

theorem reads_digits_above_the_base : ¬ Reads [49, 50] 2 := by
  rintro ⟨hrest, -⟩
  revert hrest
  decide +kernel

theorem reads_ten_in_base_two :
    Reads [49, 48] 2 ↔ ∀ c ∈ ((digitsPart [49, 48]).dropWhile
      (isDigitOf (2 : Int32).toInt.toNat)).head?, digitValue c = none :=
  string_to_dlong_reads_iff [49, 48] 2 (by decide)

end Reader

section Writer

variable {ac : Accumulator} {f : Frame} {base : ℕ} {b minusB x t : Dlong}

theorem digitAt_spec {d : ℕ} (hd : d < 36) (h : x.toInt = -(d : ℤ)) :
    digitAt (-dlongToInt x) = .ok (charOf d) := by
  have hint : (dlongToInt x).toInt = -(d : ℤ) := by
    rw [dlongToInt_toInt (by omega), h]
  have hneg : (-dlongToInt x).toInt = d := by
    rw [int32_neg (by omega), hint, neg_neg]
  rw [digitAt, hneg, Int.toNat_natCast, (charOf_spec hd).1]
  exact if_pos (by rw [Int32.le_iff_toInt_le, hneg]; exact Int.natCast_nonneg d)

variable (ac f) in
theorem divideBase {n : ℕ} (hb : b.toInt = base) (hbase : 2 ≤ base) (ht : t.toInt = -(n : ℤ)) :
    ∃ div rem, dlongDivrem ac f t b = .ok (div, rem) ∧ div.toInt = -((n / base : ℕ) : ℤ) ∧
      rem.toInt = -((n % base : ℕ) : ℤ) := by
  have hne : b ≠ zero := by
    rintro rfl
    rw [zero_toInt] at hb
    omega
  obtain ⟨q, r, hrun, hq, hr⟩ := dlongDivrem_spec ac f t b hne
  rw [ht, hb, Int.neg_tdiv, ← Int.ofNat_tdiv] at hq
  rw [ht, hb, Int.neg_tmod, ← Int.ofNat_tmod] at hr
  refine ⟨q, r, hrun, ?_, hr⟩
  have hle : n / base ≤ n := div_le_self n base
  have hbounds := toInt_bounds t
  rw [hq]
  generalize n / base = m at hle
  exact bmod_of_fit (w := 63) (by omega)

theorem textValue_append (base a : ℕ) (l s : List UInt8) :
    textValue base a (l ++ s) = textValue base (textValue base a l) s := by
  induction l generalizing a with
  | nil => rfl
  | cons c l ih => exact ih _

variable (ac f) in
theorem toStringLoop_spec (hb : b.toInt = base) (hm : minusB.toInt = -(base : ℤ))
    (hbase : 2 ≤ base ∧ base ≤ 36) (room : ℕ) {k n : ℕ} (hroom : k ≤ room) (hn : n < base ^ (k + 1))
    (ht : t.toInt = -(n : ℤ)) (low : List UInt8) :
    ∃ (t' : Dlong) (d : ℕ) (ds : List ℕ), toStringLoop ac f b minusB room t low = .ok (t', ds.map charOf ++ low) ∧
      t'.toInt = -(d : ℤ) ∧ (∀ i ∈ d :: ds, i < base) ∧ ds.length ≤ k ∧
      textValue base 0 ((d :: ds).map charOf) = n := by
  have hdigit {a d : ℕ} (hd : d < base) : textValue base a [charOf d] = a * base + d := by
    rw [textValue, textValue, (charOf_spec (by omega)).2.1, Option.getD_some]
  have hcmp {m : ℕ} {y : Dlong} (hy : y.toInt = -(m : ℤ)) : dlongCmp y minusB ≤ 0 ↔ base ≤ m := by
    rw [dlongCmp_eq, hy, hm, Int.sign_nonpos_iff]
    omega
  induction k generalizing room n t low with
  | zero =>
    rw [zero_add, pow_one] at hn
    refine ⟨t, n, [], ?_, ht, by simpa using hn, le_refl _, ?_⟩
    · cases room <;> rw [toStringLoop, if_neg (by rw [hcmp ht]; omega)] <;> rfl
    · rw [map_singleton, hdigit hn, zero_mul, zero_add]
  | succ k ih =>
    by_cases hlt : n < base
    · refine ⟨t, n, [], ?_, ht, by simpa using hlt, zero_le _, ?_⟩
      · cases room <;> rw [toStringLoop, if_neg (by rw [hcmp ht]; omega)] <;> rfl
      · rw [map_singleton, hdigit hlt, zero_mul, zero_add]
    · obtain ⟨room, rfl⟩ := Nat.exists_eq_add_of_le' (show 1 ≤ room by omega)
      obtain ⟨div, rem, hrun, hdiv, hrem⟩ := divideBase ac f hb hbase.1 ht
      have hmod : n % base < base := mod_lt _ (by omega)
      have hnext : n / base < base ^ (k + 1) := by
        rw [div_lt_iff_lt_mul (by omega), ← pow_succ]
        exact hn
      obtain ⟨t', d, ds, hloop, ht', hall, hlen, hvalue⟩ := ih room (by omega) hnext hdiv
        (charOf (n % base) :: low)
      refine ⟨t', d, ds ++ [n % base], ?_, ht', ?_, ?_, ?_⟩
      · rw [toStringLoop, if_pos ((hcmp ht).mpr (not_lt.mp hlt))]
        simp only
        rw [hrun, ok_bind, digitAt_spec (by omega) hrem, ok_bind]
        simpa using hloop
      · intro i hi
        rw [← cons_append, mem_append, mem_singleton] at hi
        rcases hi with hi | rfl
        · exact hall i hi
        · exact hmod
      · simpa using hlen
      · rw [← cons_append, map_append, textValue_append, hvalue, map_singleton,
          hdigit hmod, mul_comm]
        exact div_add_mod _ _

theorem dlongSgn_eq (x : Dlong) : dlongSgn x < 0 ↔ x.toInt < 0 := by
  have hneg := isneg_iff (x := x)
  rw [isneg, decide_eq_true_iff] at hneg
  rw [dlongSgn]
  split_ifs with hzero hsign
  · have hx : x = zero := by
      obtain ⟨x0, x1, x2, x3⟩ := x
      obtain ⟨h3, h2, h1, h0⟩ := hzero
      rw [show x0 = 0 from h0, show x1 = 0 from h1, show x2 = 0 from h2, show x3 = 0 from h3]
      rfl
    rw [hx, zero_toInt]
  · simpa using hneg.mp hsign
  · simpa using fun h => hsign (hneg.mpr h)

theorem negative_temporary (x : Dlong) :
    (if dlongSgn x < 0 then x else dlongNeg x).toInt = -(x.toInt.natAbs : ℤ) := by
  have hbounds := toInt_bounds x
  split_ifs with h
  · rw [dlongSgn_eq] at h
    omega
  · rw [dlongSgn_eq] at h
    rw [dlongNeg_toInt, bmod_of_fit (w := 63) (by omega)]
    omega

theorem sign_value (x : Dlong) :
    (if decide (dlongSgn x < 0) then -(x.toInt.natAbs : ℤ) else x.toInt.natAbs) = x.toInt := by
  split_ifs with h <;> rw [decide_eq_true_iff, dlongSgn_eq] at h <;> omega

theorem takeWhile_digits {ds : List ℕ} (after : List UInt8) (h : ∀ i ∈ ds, i < 36) :
    (ds.map charOf ++ 0 :: after).takeWhile (fun c => (digitValue c).isSome) = ds.map charOf ∧
      (ds.map charOf ++ 0 :: after).dropWhile (fun c => (digitValue c).isSome) = 0 :: after := by
  have hall : ∀ c ∈ ds.map charOf, (digitValue c).isSome = true := by
    intro c hc
    obtain ⟨i, hi, rfl⟩ := mem_map.mp hc
    rw [(charOf_spec (h i hi)).2.1]
    rfl
  have hzero : (digitValue 0).isSome = false := by decide
  constructor
  · rw [takeWhile_append_of_pos hall, takeWhile_cons, hzero, if_neg Bool.false_ne_true, append_nil]
  · rw [dropWhile_append_of_pos hall, dropWhile_cons, hzero, if_neg Bool.false_ne_true]

theorem written_text_parts (negative : Bool) {d : ℕ} (ds : List ℕ) (after : List UInt8)
    (h : d < 36) :
    skipMinus (((if negative then [minus] else []) ++ (d :: ds).map charOf ++ 0 :: after).dropWhile
      isspace) = (negative, (d :: ds).map charOf ++ 0 :: after) := by
  obtain ⟨-, -, hspace, hminus⟩ := charOf_spec h
  have hminusspace : isspace minus = false := by decide
  cases negative with
  | true => simp [hminusspace, skipMinus]
  | false => simp [hspace, skipMinus, hminus]

theorem dlong_text_round_trip (ac : Accumulator) (f : Frame) (x : Dlong) (base : Int32)
    (h : 2 ≤ base.toInt ∧ base.toInt ≤ 36) :
    ∃ (sign : List UInt8) (indices : List ℕ),
      dlongToString ac f x base = .ok (sign ++ indices.map charOf ++ [0]) ∧
      (sign ++ indices.map charOf ++ [0]).length ≤ 66 ∧
      (∀ i ∈ indices, (i : ℤ) < base.toInt) ∧
      ∀ after, stringToDlong (sign ++ indices.map charOf ++ 0 :: after) base = (x, 0 :: after) := by
  obtain ⟨b, hb⟩ := Int.eq_ofNat_of_zero_le (show 0 ≤ base.toInt by omega)
  have hcond : 2 ≤ base ∧ base ≤ 36 := by
    rw [Int32.le_iff_toInt_le, Int32.le_iff_toInt_le]
    exact h
  have hbase : (intToDlong base).toInt = b := by rw [intToDlong_toInt, hb]
  have hminus : (dlongNeg (intToDlong base)).toInt = -(b : ℤ) := by
    rw [dlongNeg_toInt, hbase, bmod_of_fit (w := 63) (by omega)]
  have habs : x.toInt.natAbs < b ^ (63 + 1) := by
    have hbounds := toInt_bounds x
    have hpow : 2 ^ 64 ≤ b ^ (63 + 1) := Nat.pow_le_pow_left (by omega) 64
    omega
  obtain ⟨t, d, ds, hloop, ht, hall, hlen, hvalue⟩ := toStringLoop_spec ac f
    hbase hminus (by omega) 64 (by decide) habs (negative_temporary x) []
  have hd : d < b := hall d mem_cons_self
  refine ⟨if dlongSgn x < 0 then [minus] else [], d :: ds, ?_, ?_, ?_, ?_⟩
  · rw [dlongToString, if_pos hcond]
    rw [hloop, ok_bind]
    simp only
    rw [digitAt_spec (by omega) ht, ok_bind]
    simp
  · split_ifs <;> simp <;> omega
  · intro i hi
    rw [hb]
    exact_mod_cast hall i hi
  · intro after
    have hparts : skipMinus (((if dlongSgn x < 0 then [minus] else []) ++ (d :: ds).map charOf ++
        0 :: after).dropWhile isspace) =
        (decide (dlongSgn x < 0), (d :: ds).map charOf ++ 0 :: after) := by
      have hwritten := written_text_parts (decide (dlongSgn x < 0)) ds after (show d < 36 by omega)
      simpa only [decide_eq_true_eq] using hwritten
    set text := (if dlongSgn x < 0 then [minus] else []) ++ (d :: ds).map charOf ++ 0 :: after
    obtain ⟨hrest, hread⟩ := stringToDlong_spec text (show 0 ≤ base.toInt by omega)
    obtain ⟨htake, hdrop⟩ := takeWhile_digits after
      fun i (hi : i ∈ d :: ds) => (hall i hi).trans_le (by omega)
    rw [digitsPart, hparts] at hrest hread
    rw [isNegative, hparts, htake, hb, Int.toNat_natCast, hvalue] at hread
    apply Prod.ext
    · apply toInt_inj
      have hsign := congrArg (fun a : ℤ => a.bmod (2 ^ 64)) (sign_value x)
      exact (hread.trans hsign).trans (bmod_of_fit (w := 63) (toInt_bounds x))
    · rw [hrest, hdrop]

theorem least_dlong_round_trip :
    ∃ (sign : List UInt8) (indices : List ℕ),
      dlongToString .exact ⟨⟨fun _ => 0⟩, ⟨fun _ => 0⟩, ⟨fun _ => 0⟩, ⟨fun _ => 0⟩⟩
        ⟨0x8000, 0, 0, 0⟩ 2 = .ok (sign ++ indices.map charOf ++ [0]) ∧
      (sign ++ indices.map charOf ++ [0]).length ≤ 66 ∧
      (∀ i ∈ indices, (i : ℤ) < (2 : Int32).toInt) ∧
      ∀ after, stringToDlong (sign ++ indices.map charOf ++ 0 :: after) 2 =
        (⟨0x8000, 0, 0, 0⟩, 0 :: after) :=
  dlong_text_round_trip .exact ⟨⟨fun _ => 0⟩, ⟨fun _ => 0⟩, ⟨fun _ => 0⟩, ⟨fun _ => 0⟩⟩
    ⟨0x8000, 0, 0, 0⟩ 2 (by decide)

end Writer

end MachUS.Arith.Dlong
