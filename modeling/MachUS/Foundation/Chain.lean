import Mathlib.Data.List.Nodup

namespace Chain

open List Option

variable {α β : Type} (next : β → Option α)

def Along (heap : α → Option β) : Option α → List (α × β) → Option α → Prop
  | p, [], q => p = q
  | p, x :: l, q => p = some x.1 ∧ heap x.1 = some x.2 ∧ Along heap (next x.2) l q

def keys (l : List (α × β)) : List α := l.map Prod.fst

@[simp] theorem keys_nil : keys ([] : List (α × β)) = [] := rfl

@[simp] theorem keys_cons (x : α × β) (l : List (α × β)) : keys (x :: l) = x.1 :: keys l := rfl

@[simp] theorem keys_append (l l' : List (α × β)) : keys (l ++ l') = keys l ++ keys l' :=
  map_append

variable {next} {heap heap' : α → Option β} {p q r : Option α} {l l' : List (α × β)}

namespace Along

theorem append (h : Along next heap p l q) (h' : Along next heap q l' r) :
    Along next heap p (l ++ l') r := by
  induction l generalizing p with
  | nil =>
    obtain rfl : p = q := h
    exact h'
  | cons x l ih => exact ⟨h.1, h.2.1, ih h.2.2⟩

theorem split (h : Along next heap p (l ++ l') r) :
    ∃ q, Along next heap p l q ∧ Along next heap q l' r := by
  induction l generalizing p with
  | nil => exact ⟨p, rfl, h⟩
  | cons x l ih =>
    obtain ⟨q, hl, hl'⟩ := ih h.2.2
    exact ⟨q, ⟨h.1, h.2.1, hl⟩, hl'⟩

theorem heap_eq (h : Along next heap p l q) : ∀ x ∈ l, heap x.1 = some x.2 := by
  induction l generalizing p with
  | nil => simp
  | cons x l ih =>
    intro y hy
    rcases mem_cons.mp hy with rfl | hy
    · exact h.2.1
    · exact ih h.2.2 y hy

theorem congr (h : Along next heap p l q) (hheap : ∀ a ∈ keys l, heap' a = heap a) :
    Along next heap' p l q := by
  induction l generalizing p with
  | nil => exact h
  | cons x l ih =>
    refine ⟨h.1, (hheap x.1 (by simp)).trans h.2.1, ih h.2.2 fun a ha => hheap a ?_⟩
    exact mem_cons_of_mem _ ha

theorem update [DecidableEq α] (h : Along next heap p l q) {a : α} {b : Option β}
    (ha : a ∉ keys l) : Along next (Function.update heap a b) p l q := by
  apply h.congr
  intro c hc
  apply Function.update_of_ne
  rintro rfl
  exact ha hc

theorem eq_none (h : Along next heap p l none) : p = none ↔ l = [] := by
  cases l with
  | nil => exact ⟨fun _ => rfl, fun _ => h⟩
  | cons x l => simp [h.1]

theorem rest (h : Along next heap p l q) (h' : Along next heap p l' none) :
    ∃ tail, l' = l ++ tail ∧ Along next heap q tail none := by
  induction l generalizing p l' with
  | nil =>
    obtain rfl : p = q := h
    exact ⟨l', rfl, h'⟩
  | cons x l ih =>
    cases l' with
    | nil => exact absurd (h.1.symm.trans h') (some_ne_none _)
    | cons y l' =>
      have hkey : x.1 = y.1 := some.inj (h.1.symm.trans h'.1)
      have hnode : x.2 = y.2 := some.inj (h.2.1.symm.trans (hkey ▸ h'.2.1))
      obtain rfl : x = y := Prod.ext hkey hnode
      obtain ⟨tail, rfl, htail⟩ := ih h.2.2 h'.2.2
      exact ⟨tail, rfl, htail⟩

theorem stuck {a : α} (h : Along next heap p l (some a)) (ha : heap a = none) :
    ¬Along next heap p l' none := by
  intro h'
  obtain ⟨tail, -, htail⟩ := h.rest h'
  cases tail with
  | nil => exact some_ne_none _ htail
  | cons x tail =>
    obtain rfl : a = x.1 := some.inj htail.1
    exact some_ne_none _ (htail.2.1.symm.trans ha)

theorem unique (h : Along next heap p l none) (h' : Along next heap p l' none) : l = l' := by
  obtain ⟨tail, rfl, htail⟩ := h.rest h'
  rw [htail.eq_none.mp rfl, append_nil]

theorem nodup (h : Along next heap p l none) : (keys l).Nodup := by
  induction l generalizing p with
  | nil => exact nodup_nil
  | cons x l ih =>
    refine nodup_cons.mpr ⟨fun hmem => ?_, ih h.2.2⟩
    obtain ⟨y, hy, hkey⟩ := mem_map.mp hmem
    obtain ⟨l₁, l₂, rfl⟩ := append_of_mem hy
    obtain ⟨q, -, htail⟩ := h.2.2.split
    have hq : q = p := htail.1.trans ((congrArg some hkey).trans h.1.symm)
    rw [hq] at htail
    have hlen := congrArg length (htail.unique h)
    simp only [length_append, length_cons] at hlen
    omega

theorem relink [DecidableEq α] {a : α} {b b' : β} (h : Along next heap p (l ++ [(a, b)]) q)
    (ha : a ∉ keys l) (hnext : next b' = r) :
    Along next (Function.update heap a (some b')) p (l ++ [(a, b')]) r := by
  obtain ⟨c, hl, hlast⟩ := h.split
  exact (hl.update ha).append ⟨hlast.1, Function.update_self _ _ _, hnext⟩

theorem fresh (h : Along next heap p l q) {a : α} (ha : heap a = none) : a ∉ keys l := by
  intro hmem
  obtain ⟨x, hx, rfl⟩ := mem_map.mp hmem
  rw [h.heap_eq x hx] at ha
  cases ha

end Along

end Chain
