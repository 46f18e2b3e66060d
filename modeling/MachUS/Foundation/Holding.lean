import Mathlib.Data.List.Count

structure Holding (H : Type) where
  refs : ℕ
  owners : List H

namespace Holding

section Counting

variable {H : Type} (x : Holding H) (h : H)

def reference : Holding H := ⟨x.refs + 1, h :: x.owners⟩

def Balanced : Prop := x.refs = x.owners.length

variable {x h}

theorem Balanced.reference (hx : x.Balanced) : (x.reference h).Balanced := congrArg (· + 1) hx

theorem Balanced.refs_ne_zero (hx : x.Balanced) (hh : h ∈ x.owners) : x.refs ≠ 0 := by
  have := List.length_pos_of_mem hh
  rw [hx]
  omega

end Counting

variable {H : Type} [DecidableEq H] (x : Holding H) (h i : H)

def dereference : Holding H := ⟨x.refs - 1, x.owners.erase h⟩

def handOver : Holding H := ⟨x.refs, i :: x.owners.erase h⟩

variable {x h i} {j : H}

theorem count_reference :
    (x.reference h).owners.count j = x.owners.count j + if h = j then 1 else 0 := by
  rw [reference, List.count_cons]
  rcases eq_or_ne h j with rfl | hne
  · rw [if_pos rfl, if_pos (by simp)]
  · rw [if_neg hne, if_neg (by simpa using hne)]

theorem count_dereference :
    (x.dereference h).owners.count j = x.owners.count j - if h = j then 1 else 0 := by
  rw [dereference, List.count_erase]
  rcases eq_or_ne h j with rfl | hne
  · rw [if_pos rfl, if_pos (by simp)]
  · rw [if_neg hne, if_neg (by simpa using hne)]

theorem count_handOver : (x.handOver h i).owners.count j =
    (x.owners.count j - if h = j then 1 else 0) + if i = j then 1 else 0 := by
  change (i :: (x.dereference h).owners).count j = _
  rw [← count_dereference]
  exact count_reference

theorem Balanced.dereference (hx : x.Balanced) (hh : h ∈ x.owners) : (x.dereference h).Balanced := by
  change x.refs - 1 = (x.owners.erase h).length
  rw [List.length_erase_of_mem hh, hx]

theorem Balanced.handOver (hx : x.Balanced) (hh : h ∈ x.owners) : (x.handOver h i).Balanced := by
  change x.refs = (x.owners.erase h).length + 1
  rw [List.length_erase_of_mem hh, hx]
  have := List.length_pos_of_mem hh
  omega

end Holding
