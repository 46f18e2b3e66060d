import Mathlib.Data.Nat.Digits.Lemmas

namespace Text

open List UInt8

abbrev Bytes := List UInt8

structure CString (size : ℕ) where
  bytes : Bytes
  fits : bytes.length < size
  terminated : (0 : UInt8) ∉ bytes
  deriving DecidableEq

namespace CString

variable {size : ℕ}

theorem ext_bytes {s t : CString size} (h : s.bytes = t.bytes) : s = t := by
  cases s
  cases t
  subst h
  rfl

def ofBytes? (size : ℕ) (b : Bytes) : Option (CString size) :=
  if h : b.length < size ∧ (0 : UInt8) ∉ b then some ⟨b, h.1, h.2⟩ else none

theorem ofBytes?_self (s : CString size) : ofBytes? size s.bytes = some s := by
  rw [ofBytes?, dif_pos ⟨s.fits, s.terminated⟩]

theorem ofBytes?_bytes {b : Bytes} {s : CString size} (h : ofBytes? size b = some s) :
    s.bytes = b := by
  rw [ofBytes?] at h
  split_ifs at h
  exact (congrArg CString.bytes (Option.some.inj h)).symm

def empty (h : 0 < size) : CString size := ⟨[], h, by simp⟩

end CString

def toLowerByte (c : UInt8) : UInt8 := if 65 ≤ c ∧ c ≤ 90 then c + 32 else c

theorem toLowerByte_ne_zero {c : UInt8} (h : c ≠ 0) : toLowerByte c ≠ 0 := by
  rw [toLowerByte]
  split_ifs with hc
  · rw [le_iff_toNat_le, le_iff_toNat_le] at hc
    rw [Ne, ← UInt8.toNat_inj, UInt8.toNat_add]
    simp only [reduceToNat, toNat_ofNat] at hc ⊢
    omega
  · exact h

def toLower {size : ℕ} (s : CString size) : CString size where
  bytes := s.bytes.map toLowerByte
  fits := by simpa using s.fits
  terminated := by
    intro h
    obtain ⟨c, hc, hz⟩ := mem_map.mp h
    exact toLowerByte_ne_zero (fun h0 => s.terminated (h0 ▸ hc)) hz

def digit (d : ℕ) : UInt8 := ofNat (48 + d)

def decimalFrom : ℕ → ℕ → Bytes
  | 0, _ => []
  | fuel + 1, n => if n < 10 then [digit n] else decimalFrom fuel (n / 10) ++ [digit (n % 10)]

def decimal (n : ℕ) : Bytes := decimalFrom (n + 1) n

def formatInt (z : ℤ) : Bytes := if z < 0 then 45 :: decimal z.natAbs else decimal z.natAbs

def isDigit (c : UInt8) : Bool := 48 ≤ c && c ≤ 57

def isSpace (c : UInt8) : Bool := c == 32 || (9 ≤ c && c ≤ 13)

def scanDigits : ℕ → Bytes → ℕ
  | acc, [] => acc
  | acc, c :: cs => if isDigit c then scanDigits (acc * 10 + (c.toNat - 48)) cs else acc

def atoi (s : Bytes) : ℤ :=
  match s.dropWhile isSpace with
  | 45 :: cs => -(scanDigits 0 cs : ℤ)
  | 43 :: cs => scanDigits 0 cs
  | cs => scanDigits 0 cs

theorem digit_toNat {d : ℕ} (h : d < 10) : (digit d).toNat = 48 + d := by
  rw [digit, toNat_ofNat']
  omega

theorem isDigit_iff {c : UInt8} : isDigit c = true ↔ 48 ≤ c.toNat ∧ c.toNat ≤ 57 := by
  simp [isDigit, le_iff_toNat_le]

theorem isDigit_digit {d : ℕ} (h : d < 10) : isDigit (digit d) = true := by
  rw [isDigit_iff, digit_toNat h]
  omega

theorem scanDigits_append (xs ys : Bytes) (hx : ∀ c ∈ xs, isDigit c = true) (acc : ℕ) :
    scanDigits acc (xs ++ ys) = scanDigits (scanDigits acc xs) ys := by
  induction xs generalizing acc with
  | nil => rfl
  | cons c xs ih =>
    have hc : isDigit c = true := hx c (by simp)
    simp only [cons_append, scanDigits, hc, if_true]
    exact ih (fun d hd => hx d (by simp [hd])) _

theorem decimalFrom_digits (fuel n : ℕ) : ∀ c ∈ decimalFrom fuel n, isDigit c = true := by
  induction fuel generalizing n with
  | zero => simp [decimalFrom]
  | succ fuel ih =>
    intro c hc
    rw [decimalFrom] at hc
    split_ifs at hc with hn
    · rw [mem_singleton.mp hc]
      exact isDigit_digit hn
    · rcases mem_append.mp hc with hc | hc
      · exact ih _ c hc
      · rw [mem_singleton.mp hc]
        exact isDigit_digit (Nat.mod_lt _ (by omega))

theorem scanDigits_decimalFrom (fuel n : ℕ) (h : n < fuel) :
    scanDigits 0 (decimalFrom fuel n) = n := by
  induction fuel generalizing n with
  | zero => omega
  | succ fuel ih =>
    rw [decimalFrom]
    split_ifs with hn
    · simp only [scanDigits, isDigit_digit hn, if_true, digit_toNat hn]
      omega
    · have hm : n % 10 < 10 := Nat.mod_lt _ (by omega)
      rw [scanDigits_append _ _ (decimalFrom_digits _ _), ih (n / 10) (by omega)]
      simp only [scanDigits, isDigit_digit hm, if_true, digit_toNat hm]
      omega

theorem decimal_digits (n : ℕ) : ∀ c ∈ decimal n, isDigit c = true := decimalFrom_digits _ _

theorem scanDigits_decimal (n : ℕ) : scanDigits 0 (decimal n) = n :=
  scanDigits_decimalFrom _ _ (by omega)

theorem decimal_ne_nil (n : ℕ) : decimal n ≠ [] := by
  rw [decimal, decimalFrom]
  split_ifs <;> simp

theorem not_isSpace_of_isDigit {c : UInt8} (h : isDigit c = true) : isSpace c = false := by
  rw [isDigit_iff] at h
  have h32 : c ≠ 32 := by rintro rfl; simp at h
  simp only [isSpace, Bool.or_eq_false_iff, beq_eq_false_iff_ne, Bool.and_eq_false_iff,
    decide_eq_false_iff_not, le_iff_toNat_le]
  refine ⟨h32, Or.inr ?_⟩
  simp only [reduceToNat]
  omega

theorem scanDigits_stop {rest : Bytes} (h : ∀ c ∈ rest.head?, isDigit c = false) (acc : ℕ) :
    scanDigits acc rest = acc := by
  cases rest with
  | nil => rfl
  | cons c rest => rw [scanDigits, h c rfl, if_neg Bool.false_ne_true]

theorem atoi_decimal (n : ℕ) {rest : Bytes} (h : ∀ c ∈ rest.head?, isDigit c = false) :
    atoi (decimal n ++ rest) = n := by
  obtain ⟨c, cs, hcs⟩ := exists_cons_of_ne_nil (decimal_ne_nil n)
  have hc : isDigit c = true := decimal_digits n c (by simp [hcs])
  have hdrop : (decimal n ++ rest).dropWhile isSpace = c :: (cs ++ rest) := by
    rw [hcs, cons_append, dropWhile_cons_of_neg (by simp [not_isSpace_of_isDigit hc])]
  have hrange := isDigit_iff.mp hc
  rw [atoi, hdrop]
  split
  · rename_i heq
    obtain ⟨rfl, -⟩ := cons.inj heq
    simp at hrange
  · rename_i heq
    obtain ⟨rfl, -⟩ := cons.inj heq
    simp at hrange
  · rw [← cons_append, ← hcs, scanDigits_append _ _ (decimal_digits n), scanDigits_decimal,
      scanDigits_stop h]

theorem atoi_formatInt_append (z : ℤ) {rest : Bytes} (h : ∀ c ∈ rest.head?, isDigit c = false) :
    atoi (formatInt z ++ rest) = z := by
  rw [formatInt]
  split_ifs with hz
  · have hs : isSpace 45 = false := by decide
    rw [atoi, cons_append, dropWhile_cons_of_neg (by simp [hs])]
    simp only [scanDigits_append _ _ (decimal_digits _), scanDigits_decimal, scanDigits_stop h]
    omega
  · rw [atoi_decimal _ h]
    omega

theorem atoi_formatInt (z : ℤ) : atoi (formatInt z) = z := by
  have h : atoi (formatInt z ++ []) = z := atoi_formatInt_append z (by simp)
  rwa [append_nil] at h

theorem decimalFrom_length (fuel n d : ℕ) (h : n < 10 ^ (d + 1)) :
    (decimalFrom fuel n).length ≤ d + 1 := by
  induction fuel generalizing n d with
  | zero => simp [decimalFrom]
  | succ fuel ih =>
    rw [decimalFrom]
    split_ifs with hn
    · simp
    · cases d with
      | zero => simp at h; omega
      | succ d =>
        have hdiv : n / 10 < 10 ^ (d + 1) := by
          rw [Nat.div_lt_iff_lt_mul (by omega), ← pow_succ]
          exact h
        have := ih (n / 10) d hdiv
        simp
        omega

theorem formatInt_length {z : ℤ} {d : ℕ} (h : z.natAbs < 10 ^ (d + 1)) :
    (formatInt z).length ≤ d + 2 := by
  have := decimalFrom_length (z.natAbs + 1) z.natAbs d h
  rw [formatInt]
  split_ifs
  · simp [decimal]
    omega
  · simp [decimal]
    omega

theorem formatInt_ne_nil (z : ℤ) : formatInt z ≠ [] := by
  rw [formatInt]
  split_ifs
  · simp
  · exact decimal_ne_nil _

theorem formatInt_mem {z : ℤ} {c : UInt8} (h : c ∈ formatInt z) : c = 45 ∨ isDigit c = true := by
  rw [formatInt] at h
  split_ifs at h
  · exact (mem_cons.mp h).imp id (decimal_digits _ c)
  · exact Or.inr (decimal_digits _ c h)

end Text
