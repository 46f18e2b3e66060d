import Mathlib.Algebra.Order.Ring.Int
import Mathlib.Data.Int.ConditionallyCompleteOrder
import Mathlib.Data.List.Basic
import Mathlib.Data.List.GetD
import Mathlib.Order.ConditionallyCompleteLattice.Basic

namespace Memory

open List

abbrev Mem := ℤ → UInt8

structure Region where
  start : ℤ
  length : ℕ
  deriving DecidableEq

namespace Region

def Holds (r : Region) (a : ℤ) (n : ℕ) : Prop := r.start ≤ a ∧ a + n ≤ r.start + r.length

instance (r : Region) (a : ℤ) (n : ℕ) : Decidable (r.Holds a n) := inferInstanceAs (Decidable (_ ∧ _))

end Region

def Covered (rs : List Region) (a : ℤ) (n : ℕ) : Prop := n = 0 ∨ ∃ r ∈ rs, r.Holds a n

instance (rs : List Region) (a : ℤ) (n : ℕ) : Decidable (Covered rs a n) :=
  inferInstanceAs (Decidable (_ ∨ _))

def bytes (m : Mem) (a : ℤ) (n : ℕ) : List UInt8 := (range n).map fun i : ℕ => m (a + i)

def store (m : Mem) (a : ℤ) (bs : List UInt8) : Mem := fun x =>
  if a ≤ x then bs.getD (x - a).toNat (m x) else m x

def ofBytes : List UInt8 → ℤ
  | [] => 0
  | b :: bs => b.toNat + 256 * ofBytes bs

def toBytes : ℕ → ℤ → List UInt8
  | 0, _ => []
  | n + 1, w => UInt8.ofNat (w % 256).toNat :: toBytes n (w / 256)

def word (m : Mem) (a : ℤ) : ℤ := ofBytes (bytes m a 4)

def storeWord (m : Mem) (a w : ℤ) : Mem := store m a (toBytes 4 w)

@[simp] theorem bytes_length (m : Mem) (a : ℤ) (n : ℕ) : (bytes m a n).length = n := by
  simp [bytes]

theorem bytes_congr {m m' : Mem} {a : ℤ} {n : ℕ}
    (h : ∀ x, a ≤ x → x < a + n → m' x = m x) : bytes m' a n = bytes m a n := by
  refine map_congr_left fun i hi => h _ (by omega) ?_
  rw [mem_range] at hi
  omega

theorem bytes_append (m : Mem) (a : ℤ) (n k : ℕ) :
    bytes m a (n + k) = bytes m a n ++ bytes m (a + n) k := by
  simp only [bytes, range_add, map_append, map_map]
  congr 1
  refine map_congr_left fun i _ => ?_
  simp only [Function.comp_apply, Nat.cast_add, add_assoc]

theorem take_bytes (m : Mem) (a : ℤ) {n k : ℕ} (h : k ≤ n) :
    (bytes m a n).take k = bytes m a k := by
  obtain ⟨d, rfl⟩ := Nat.exists_eq_add_of_le h
  rw [bytes_append, take_left' (bytes_length m a k)]

theorem store_of_outside {m : Mem} {a x : ℤ} {bs : List UInt8}
    (h : x < a ∨ a + bs.length ≤ x) : store m a bs x = m x := by
  rw [store]
  split_ifs with hax
  · exact getD_eq_default _ _ (by omega)
  · rfl

theorem bytes_store_outside {m : Mem} {a b : ℤ} {bs : List UInt8} {n : ℕ}
    (h : b + n ≤ a ∨ a + bs.length ≤ b) : bytes (store m a bs) b n = bytes m b n :=
  bytes_congr fun x hbx hxn => store_of_outside (by omega)

theorem bytes_store_self (m : Mem) (a : ℤ) (bs : List UInt8) :
    bytes (store m a bs) a bs.length = bs := by
  apply ext_getElem
  · simp
  · intro i h₁ h₂
    simp [bytes, store, h₂]

variable {m m' : Mem}

theorem bytes_eq_iff {a b : ℤ} {n : ℕ} :
    bytes m' b n = bytes m a n ↔ ∀ i : ℕ, i < n → m' (b + i) = m (a + i) := by
  simp [bytes, map_inj_left]

def follow (m : Mem) : ℕ → ℤ → ℤ
  | 0, a => a
  | n + 1, a => follow m n (word m a)

def strlenUpTo (m : Mem) : ℕ → ℤ → ℕ
  | 0, _ => 0
  | n + 1, a => if m a = 0 then 0 else strlenUpTo m n (a + 1) + 1

def strlen (m : Mem) (a : ℤ) : ℕ := strlenUpTo m (2 ^ 32) a

end Memory
