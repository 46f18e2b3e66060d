import Mathlib.Algebra.BigOperators.Ring.Finset
import Mathlib.Algebra.Order.BigOperators.Group.Finset

namespace Tally

open Function Finset

variable {α : Type}

def tally (n : ℕ) (g : ℕ → α) (f : α → ℕ) : ℕ := ∑ k ∈ range n, f (g k)

variable {n k : ℕ} {g : ℕ → α} {f : α → ℕ} {a : α}

theorem tally_update (hk : k < n) : tally n (update g k a) f + f (g k) = tally n g f + f a := by
  have hmem : k ∈ range n := mem_range.mpr hk
  have hrest : ∑ i ∈ (range n).erase k, f (update g k a i) = ∑ i ∈ (range n).erase k, f (g i) :=
    sum_congr rfl fun i hi => by rw [update_of_ne (ne_of_mem_erase hi)]
  have hnew := add_sum_erase (range n) (fun i => f (update g k a i)) hmem
  have hold := add_sum_erase (range n) (fun i => f (g i)) hmem
  rw [update_self] at hnew
  simp only [tally]
  omega

theorem tally_extend : tally (n + 1) (update g n a) f = tally n g f + f a := by
  rw [tally, sum_range_succ, update_self, tally]
  congr 1
  refine sum_congr rfl fun i hi => ?_
  rw [update_of_ne (Nat.ne_of_lt (mem_range.mp hi))]

theorem le_tally (hk : k < n) : f (g k) ≤ tally n g f :=
  single_le_sum (f := fun i => f (g i)) (fun _ _ => Nat.zero_le _) (mem_range.mpr hk)

theorem tally_eq_card (P : ℕ → Prop) [DecidablePred P] (h : ∀ k, f (g k) = if P k then 1 else 0) :
    tally n g f = ((range n).filter P).card := by
  rw [tally, card_filter]
  exact sum_congr rfl fun k _ => h k

end Tally
