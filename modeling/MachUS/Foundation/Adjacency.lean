import Mathlib.Data.List.Count

namespace Adjacency

open List Function

variable {V : Type} [DecidableEq V]

structure Balanced (ins outs : V → List V) : Prop where
  equal : ∀ a b, (ins b).count a = (outs a).count b
  once : ∀ a b, (ins b).count a ≤ 1

def Erases (f : List V → V → List V) : Prop :=
  ∀ l x y, (f l x).count y = l.count y - if y = x then 1 else 0

namespace Balanced

variable {ins outs ins' outs' : V → List V} {a b v : V}

section

variable (h : Balanced ins outs)

include h

theorem mem_iff : a ∈ ins b ↔ b ∈ outs a := by
  rw [← count_pos_iff, ← count_pos_iff, h.equal]

theorem link (hab : a ∉ ins b) :
    Balanced (update ins b (ins b ++ [a])) (update outs a (outs a ++ [b])) := by
  have hzero : (ins b).count a = 0 := count_eq_zero.mpr hab
  refine ⟨fun x y => ?_, fun x y => ?_⟩
  · have hxy := h.equal x y
    by_cases hy : y = b
    · subst hy
      by_cases hx : x = a
      · subst hx
        simp [count_append, hxy]
      · simp [count_append, hx, Ne.symm hx, hxy]
    · by_cases hx : x = a
      · subst hx
        simp [count_append, hy, Ne.symm hy, hxy]
      · simp [hx, hy, hxy]
  · have hxy := h.once x y
    by_cases hy : y = b
    · subst hy
      by_cases hx : x = a
      · subst hx
        simp [count_append, hzero]
      · simpa [count_append, count_singleton, Ne.symm hx] using hxy
    · simpa [hy] using hxy

theorem unlink {f : List V → V → List V} (hf : Erases f) :
    Balanced (update ins b (f (ins b) a)) (update outs a (f (outs a) b)) := by
  refine ⟨fun x y => ?_, fun x y => ?_⟩
  · have hxy := h.equal x y
    by_cases hy : y = b
    · subst hy
      by_cases hx : x = a
      · subst hx
        simp [hf _ _ _, hxy]
      · simp [hf _ _ _, hx, hxy]
    · by_cases hx : x = a
      · subst hx
        simp [hf _ _ _, hy, hxy]
      · simp [hx, hy, hxy]
  · have hxy := h.once x y
    by_cases hy : y = b
    · subst hy
      simp only [update_self, hf _ _ _]
      omega
    · simpa [hy] using hxy

theorem isolate (hins : ins' v = []) (houts : outs' v = []) (hin : ∀ x, x ≠ v → ∀ y,
      (ins' x).count y = (ins x).count y - if y = v then (outs v).count x else 0)
    (hout : ∀ x, x ≠ v → ∀ y,
      (outs' x).count y = (outs x).count y - if y = v then (ins v).count x else 0) :
    Balanced ins' outs' := by
  refine ⟨fun x y => ?_, fun x y => ?_⟩
  · by_cases hy : y = v
    · subst hy
      by_cases hx : x = y
      · simp [hx, hins, houts]
      · simp [hins, hout x hx, h.equal]
    · by_cases hx : x = v
      · subst hx
        simp [houts, hin y hy, h.equal]
      · simp [hin y hy, hout x hx, hx, hy, h.equal]
  · by_cases hy : y = v
    · simp [hy, hins]
    · have hxy := h.once x y
      rw [hin y hy]
      omega

end

end Balanced

end Adjacency
