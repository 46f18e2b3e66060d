import MachUS.Foundation.Chain
import Mathlib.Data.List.Chain

namespace Chain

open Function List

variable {α β : Type} (next prev : β → Option α)

def Back (l : List (α × β)) : Prop := l.IsChain fun x y => prev y.2 = some x.1

structure Doubly (heap : α → Option β) (p : Option α) (l : List (α × β)) : Prop where
  along : Along next heap p l none
  back : Back prev l

variable {next prev} {heap heap' : α → Option β} {p : Option α} {l l' m m' : List (α × β)}
  {a c : α} {b b' d e : β}

theorem back_congr (h : l.map (fun x => (x.1, prev x.2)) = l'.map fun x => (x.1, prev x.2)) :
    Back prev l ↔ Back prev l' := by
  have hmap (k : List (α × β)) : Back prev k ↔
      (k.map fun x => (x.1, prev x.2)).IsChain fun x y => y.2 = some x.1 := by
    rw [isChain_map, Back]
  rw [hmap, hmap, h]

theorem back_amend (hprev : prev b' = prev b) :
    Back prev (l ++ (a, b') :: m) ↔ Back prev (l ++ (a, b) :: m) :=
  back_congr (by simp [hprev])

theorem Along.nonempty (h : Along next heap (some a) l none) : ∃ b m, l = (a, b) :: m := by
  cases l with
  | nil => cases h
  | cons x m =>
    obtain rfl : a = x.1 := Option.some.inj h.1
    exact ⟨x.2, m, rfl⟩

namespace Doubly

theorem nodup (h : Doubly next prev heap p l) : (keys l).Nodup := h.along.nodup

theorem congr (h : Doubly next prev heap p l) (hheap : ∀ a ∈ keys l, heap' a = heap a) :
    Doubly next prev heap' p l := ⟨h.along.congr hheap, h.back⟩

theorem notMem (h : Doubly next prev heap p (l ++ (a, b) :: m)) : a ∉ keys l ∧ a ∉ keys m := by
  have hnodup := h.nodup
  rw [keys_append, keys_cons, nodup_middle, nodup_cons, mem_append, not_or] at hnodup
  exact hnodup.1

theorem prev_eq (h : Doubly next prev heap p (l ++ (a, b) :: (c, e) :: m)) : prev e = some a :=
  (isChain_append_cons_cons.mp h.back).2.1

theorem tail (h : Doubly next prev heap p (l ++ (a, b) :: m)) : Along next heap (next b) m none := by
  obtain ⟨q, -, -, -, hm⟩ := h.along.split
  exact hm

theorem splice (h : Doubly next prev heap p (l ++ (a, b) :: m))
    (hheap : ∀ r ∈ keys l, heap' r = heap r) (ha : heap' a = some b') (hprev : prev b' = prev b)
    (hrest : Along next heap' (next b') m' none) (hback : Back prev ((a, b') :: m')) :
    Doubly next prev heap' p (l ++ (a, b') :: m') := by
  obtain ⟨q, hl, hq, -, -⟩ := h.along.split
  refine ⟨(hl.congr hheap).append ⟨hq, ha, hrest⟩, ?_⟩
  have hleft : Back prev (l ++ [(a, b')]) := by
    refine (back_amend hprev).mpr ?_
    have hall := h.back
    rw [show l ++ (a, b) :: m = (l ++ [(a, b)]) ++ m by simp] at hall
    exact hall.left_of_append
  exact isChain_split.mpr ⟨hleft, hback⟩

variable [DecidableEq α]

theorem snoc (h : Doubly next prev heap p (l ++ [(a, b)])) (hc : heap c = none)
    (hb' : next b' = some c) (hprev : prev b' = prev b) (hd : next d = none)
    (hback : prev d = some a) :
    Doubly next prev (update (update heap a (some b')) c (some d)) p (l ++ [(a, b'), (c, d)]) := by
  have hfresh := h.along.fresh hc
  have hac : a ≠ c := by
    rintro rfl
    simp at hfresh
  refine h.splice (fun r hr => ?_) ?_ hprev ?_ ?_
  · have hra : r ≠ a := ne_of_mem_of_not_mem hr h.notMem.1
    have hrc : r ≠ c := by
      rintro rfl
      simp [hr] at hfresh
    rw [update_of_ne hrc, update_of_ne hra]
  · rw [update_of_ne hac, update_self]
  · exact ⟨hb', update_self _ _ _, hd⟩
  · exact isChain_pair.mpr hback

theorem unlink_last (h : Doubly next prev heap p (l ++ [(a, b), (c, e)])) (hb' : next b' = none)
    (hprev : prev b' = prev b) :
    Doubly next prev (update (update heap a (some b')) c none) p (l ++ [(a, b')]) := by
  have hc : c ∉ keys (l ++ [(a, b)]) := by
    have h' : Doubly next prev heap p ((l ++ [(a, b)]) ++ [(c, e)]) := by simpa using h
    exact h'.notMem.1
  rw [keys_append, mem_append, not_or] at hc
  have hac : a ≠ c := by
    rintro rfl
    simp at hc
  refine h.splice (fun r hr => ?_) ?_ hprev hb' (isChain_singleton _)
  · have hra : r ≠ a := ne_of_mem_of_not_mem hr h.notMem.1
    have hrc : r ≠ c := ne_of_mem_of_not_mem hr hc.1
    rw [update_of_ne hrc, update_of_ne hra]
  · rw [update_of_ne hac, update_self]

theorem unlink {f : α} {g g' : β}
    (h : Doubly next prev heap p (l ++ (a, b) :: (c, e) :: (f, g) :: m)) (hb' : next b' = some f)
    (hprev : prev b' = prev b) (hg' : next g' = next g) (hback : prev g' = some a) :
    Doubly next prev
      (update (update (update heap a (some b')) f (some g')) c none) p
      (l ++ (a, b') :: (f, g') :: m) := by
  have hnodup := h.nodup
  simp only [keys_append, keys_cons, nodup_append, nodup_cons, mem_cons, not_or] at hnodup
  obtain ⟨-, ⟨⟨hac, haf, ham⟩, ⟨hcf, hcm⟩, hfm, -⟩, hl⟩ := hnodup
  have hkeep (r : α) (hra : r ≠ a) (hrf : r ≠ f) (hrc : r ≠ c) :
      update (update (update heap a (some b')) f (some g')) c none r = heap r := by
    rw [update_of_ne hrc, update_of_ne hrf, update_of_ne hra]
  refine h.splice (fun r hr => ?_) ?_ hprev ⟨hb', ?_, ?_⟩ ?_
  · exact hkeep r (hl r hr a (Or.inl rfl)) (hl r hr f (Or.inr (Or.inr (Or.inl rfl))))
      (hl r hr c (Or.inr (Or.inl rfl)))
  · rw [update_of_ne hac, update_of_ne haf, update_self]
  · rw [update_of_ne (Ne.symm hcf), update_self]
  · obtain ⟨q, -, -, -, -, -, -, -, hm⟩ := h.along.split
    rw [hg']
    refine hm.congr fun r hr => ?_
    exact hkeep r (ne_of_mem_of_not_mem hr ham) (ne_of_mem_of_not_mem hr hfm)
      (ne_of_mem_of_not_mem hr hcm)
  · have hrest : Back prev ([(a, b'), (f, g')] ++ m) := by
      have hfg : Back prev ((f, g) :: m) := by
        have hall := h.back
        rw [show l ++ (a, b) :: (c, e) :: (f, g) :: m = (l ++ [(a, b), (c, e)]) ++ (f, g) :: m by
          simp] at hall
        exact hall.right_of_append
      cases m with
      | nil => exact isChain_pair.mpr hback
      | cons x m =>
        obtain ⟨hx, hm⟩ := isChain_cons_cons.mp hfg
        exact isChain_cons_cons.mpr ⟨hback, isChain_cons_cons.mpr ⟨hx, hm⟩⟩
    exact hrest

end Doubly

end Chain
