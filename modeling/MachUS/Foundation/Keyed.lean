import Mathlib.Data.List.Nodup

namespace Keyed

open List

variable {α κ : Type} [DecidableEq κ] (key : α → κ)

def find (k : κ) (l : List α) : Option α := l.find? fun x => key x = k

def amend (k : κ) (f : α → α) : List α → List α
  | [] => []
  | x :: l => if key x = k then f x :: l else x :: amend k f l

def drop (k : κ) (l : List α) : List α := l.eraseP fun x => key x = k

variable {key} {k : κ} {f : α → α} {x : α} {l l' A B : List α}

theorem mem_of_find (h : find key k l = some x) : x ∈ l ∧ key x = k :=
  ⟨mem_of_find?_eq_some h, by simpa using find?_some h⟩

theorem find_of_mem (hnd : (l.map key).Nodup) (hx : x ∈ l) : find key (key x) l = some x := by
  cases h : find key (key x) l with
  | none =>
    have := find?_eq_none.mp h x hx
    simp at this
  | some y =>
    obtain ⟨hy, hkey⟩ := mem_of_find h
    rw [inj_on_of_nodup_map hnd hy hx hkey]

theorem find_perm (hp : l.Perm l') (hnd : (l'.map key).Nodup) : find key k l = find key k l' := by
  have hnd' : (l.map key).Nodup := (hp.map key).nodup_iff.mpr hnd
  cases h : find key k l with
  | some x =>
    obtain ⟨hx, rfl⟩ := mem_of_find h
    exact (find_of_mem hnd (hp.subset hx)).symm
  | none =>
    cases h' : find key k l' with
    | none => rfl
    | some x =>
      obtain ⟨hx, rfl⟩ := mem_of_find h'
      exact h.symm.trans (find_of_mem hnd' (hp.symm.subset hx))

theorem amend_eq_map (hnd : (l.map key).Nodup) :
    amend key k f l = l.map fun x => if key x = k then f x else x := by
  induction l with
  | nil => rfl
  | cons x l ih =>
    obtain ⟨hx, hl⟩ := nodup_cons.mp hnd
    by_cases hk : key x = k
    · have hrest : (l.map fun x => if key x = k then f x else x) = l := by
        refine (map_congr_left fun y hy => if_neg ?_).trans (map_id l)
        intro hyk
        exact hx ((hk.trans hyk.symm) ▸ mem_map_of_mem hy)
      simp [amend, hk, hrest]
    · simp [amend, hk, ih hl]

section

variable (hp : l.Perm (A ++ x :: B)) (hnd : ((A ++ x :: B).map key).Nodup)

include hp hnd

theorem amend_perm : (amend key (key x) f l).Perm (A ++ f x :: B) := by
  rw [amend_eq_map ((hp.map key).nodup_iff.mpr hnd)]
  have hother (y : α) (hy : y ∈ A ∨ y ∈ B) : (if key y = key x then f y else y) = y := by
    rw [if_neg]
    intro hkey
    have hmem : y ∈ A ++ x :: B := by grind
    obtain rfl := inj_on_of_nodup_map hnd hmem (by simp) hkey
    have := Nodup.of_map key hnd
    grind
  have hA : (A.map fun y => if key y = key x then f y else y) = A :=
    (map_congr_left fun y hy => hother y (Or.inl hy)).trans (map_id A)
  have hB : (B.map fun y => if key y = key x then f y else y) = B :=
    (map_congr_left fun y hy => hother y (Or.inr hy)).trans (map_id B)
  have hmap := hp.map fun y => if key y = key x then f y else y
  simpa [hA, hB] using hmap

theorem drop_perm : (drop key (key x) l).Perm (A ++ B) := by
  have hpair : ((A ++ x :: B).Pairwise fun a b =>
      decide (key a = key x) = true → decide (key b = key x) = true → False) := by
    refine (pairwise_map.mp hnd).imp ?_
    intro a b hab ha hb
    exact hab ((of_decide_eq_true ha).trans (of_decide_eq_true hb).symm)
  have herase := (hp.symm.eraseP _ hpair).symm
  have hnot : ∀ a ∈ A, ¬decide (key a = key x) = true := by
    intro a ha hax
    have := pairwise_append.mp (pairwise_map.mp hnd)
    exact this.2.2 a ha x (by simp) (of_decide_eq_true hax)
  rw [eraseP_append_right _ hnot] at herase
  simpa [drop, eraseP_cons] using herase

end

end Keyed
