import Mathlib.Data.List.Chain
import Mathlib.Data.List.Nodup

@[ext]
structure LinkRing (α : Type) where
  next : α → α
  prev : α → α

namespace LinkRing

open Function List

variable {α : Type} (r : LinkRing α)

def Link (a b : α) : Prop := r.next a = b ∧ r.prev b = a

def Holds (head : α) (l : List α) : Prop := (head :: l).Nodup ∧ (head :: l ++ [head]).IsChain r.Link

def Reaches (head e : α) : Prop := ∃ k, r.next^[k + 1] head = e ∧ ∀ j ≤ k, r.next^[j + 1] head ≠ head

section Operations

variable [DecidableEq α]

def init (head : α) : LinkRing α :=
  ⟨update r.next head head, update r.prev head head⟩

def remove (e : α) : LinkRing α :=
  ⟨update r.next (r.prev e) (r.next e), update r.prev (r.next e) (r.prev e)⟩

def removeFirst (head : α) : LinkRing α :=
  let n := r.next (r.next head)
  ⟨update r.next head n, update r.prev n head⟩

def enter (head e : α) : LinkRing α :=
  if r.next head = head then
    ⟨update (update r.next head e) e head,
      update (update r.prev head e) e head⟩
  else
    ⟨update (update r.next e head) (r.prev head) e,
      update (update r.prev e (r.prev head)) head e⟩

def enterFirst (head e : α) : LinkRing α :=
  if r.next head = head then
    ⟨update (update r.next head e) e head,
      update (update r.prev head e) e head⟩
  else
    ⟨update (update r.next e (r.next head)) head e,
      update (update r.prev e head) (r.next head) e⟩

end Operations

variable {r} {r' : LinkRing α} {head e p n : α} {l l₁ l₂ : List α}

theorem chain_congr (h : l.IsChain r.Link) (hnext : ∀ a ∈ l.dropLast, r'.next a = r.next a)
    (hprev : ∀ a ∈ l.tail, r'.prev a = r.prev a) : l.IsChain r'.Link := by
  induction l with
  | nil => exact .nil
  | cons a l ih =>
    cases l with
    | nil => exact .singleton a
    | cons b l =>
      obtain ⟨hab, hl⟩ := isChain_cons_cons.mp h
      refine isChain_cons_cons.mpr ⟨⟨?_, ?_⟩, ih hl ?_ ?_⟩
      · exact (hnext a (by simp)).trans hab.1
      · exact (hprev b (by simp)).trans hab.2
      · exact fun c hc => hnext c (by simp [hc])
      · exact fun c hc => hprev c (by simpa using Or.inr hc)

def Gap (head : α) (l₁ l₂ : List α) (p n : α) : Prop :=
  (∃ A, head :: l₁ = A ++ [p]) ∧ ∃ B, l₂ ++ [head] = n :: B

theorem exists_gap (head : α) (l₁ l₂ : List α) : ∃ p n, Gap head l₁ l₂ p n := by
  obtain hnil | ⟨A, p, hA⟩ := eq_nil_or_concat (head :: l₁)
  · cases hnil
  · cases l₂ with
    | nil => exact ⟨p, head, ⟨A, by simpa using hA⟩, [], rfl⟩
    | cons n l₂ => exact ⟨p, n, ⟨A, by simpa using hA⟩, l₂ ++ [head], rfl⟩

namespace Gap

variable (h : Gap head l₁ l₂ p n)

include h

theorem mem_left : p ∈ head :: l₁ := by
  obtain ⟨⟨A, hA⟩, -⟩ := h
  rw [hA]
  simp

theorem mem_right : n ∈ l₂ ++ [head] := by
  obtain ⟨-, B, hB⟩ := h
  rw [hB]
  simp

section

variable (hnodup : (head :: (l₁ ++ l₂)).Nodup)

include hnodup

theorem notMem_dropLast : p ∉ (head :: l₁).dropLast := by
  obtain ⟨⟨A, hA⟩, -⟩ := h
  rw [← cons_append, hA] at hnodup
  rw [hA, dropLast_concat]
  have := hnodup.of_append_left
  grind

theorem notMem_right : p ∉ l₂ := by
  have := h.mem_left
  grind

theorem notMem_left : n ∉ l₁ := by
  have := h.mem_right
  grind

theorem notMem_tail : n ∉ (l₂ ++ [head]).tail := by
  obtain ⟨-, B, hB⟩ := h
  have hnd : (l₂ ++ [head]).Nodup := by grind
  rw [hB] at hnd ⊢
  exact (nodup_cons.mp hnd).1

end

theorem holds_iff : r.Holds head (l₁ ++ l₂) ↔ (head :: (l₁ ++ l₂)).Nodup ∧
    (head :: l₁).IsChain r.Link ∧ r.Link p n ∧ (l₂ ++ [head]).IsChain r.Link := by
  obtain ⟨⟨A, hA⟩, B, hB⟩ := h
  have hpath : head :: (l₁ ++ l₂) ++ [head] = A ++ p :: n :: B := by
    calc head :: (l₁ ++ l₂) ++ [head] = (head :: l₁) ++ (l₂ ++ [head]) := by simp
      _ = A ++ p :: n :: B := by simp [hA, hB]
  rw [Holds, hpath, isChain_append_cons_cons, hA, hB]

theorem holds_cons_iff : r.Holds head (l₁ ++ e :: l₂) ↔ (head :: (l₁ ++ e :: l₂)).Nodup ∧
    (head :: l₁).IsChain r.Link ∧ r.Link p e ∧ r.Link e n ∧ (l₂ ++ [head]).IsChain r.Link := by
  obtain ⟨⟨A, hA⟩, B, hB⟩ := h
  have hpath : head :: (l₁ ++ e :: l₂) ++ [head] = A ++ p :: e :: n :: B := by
    calc head :: (l₁ ++ e :: l₂) ++ [head] = (head :: l₁) ++ e :: (l₂ ++ [head]) := by simp
      _ = A ++ p :: e :: n :: B := by simp [hA, hB]
  rw [Holds, hpath, isChain_append_cons_cons, isChain_cons_cons, hA, hB]

end Gap

theorem Holds.notMem (h : r.Holds head l) : head ∉ l := (nodup_cons.mp h.1).1

theorem Holds.nodup (h : r.Holds head l) : l.Nodup := (nodup_cons.mp h.1).2

theorem Holds.link (h : r.Holds head (l₁ ++ l₂)) (hgap : Gap head l₁ l₂ p n) : r.Link p n :=
  (hgap.holds_iff.mp h).2.2.1

theorem Holds.first (h : r.Holds head l) : r.next head = l.head?.getD head := by
  have hlink : r.Link head (l.head?.getD head) := by
    cases l with
    | nil =>
      have hgap : Gap head [] [] head head := ⟨⟨[], rfl⟩, [], rfl⟩
      exact Holds.link h hgap
    | cons a l =>
      have hgap : Gap head [] (a :: l) head a := ⟨⟨[], rfl⟩, l ++ [head], rfl⟩
      exact Holds.link h hgap
  exact hlink.1

theorem Holds.next_eq (h : r.Holds head (l₁ ++ e :: l₂)) : r.next e = l₂.head?.getD head := by
  obtain ⟨p, n, hA, B, hB⟩ := exists_gap head l₁ l₂
  have hlink := ((Gap.holds_cons_iff (n := n) (p := p) ⟨hA, B, hB⟩).mp h).2.2.2.1.1
  have hhead := congrArg head? hB
  cases l₂ with
  | nil => exact hlink.trans (Option.some.inj hhead).symm
  | cons a l₂ => exact hlink.trans (Option.some.inj hhead).symm

theorem Holds.prev_eq (h : r.Holds head (l₁ ++ e :: l₂)) : r.prev e = l₁.getLast?.getD head := by
  obtain ⟨p, n, ⟨A, hA⟩, hB⟩ := exists_gap head l₁ l₂
  have hlink := ((Gap.holds_cons_iff (n := n) (p := p) ⟨⟨A, hA⟩, hB⟩).mp h).2.2.1.2
  have hlast := congrArg getLast? hA
  rw [getLast?_cons, getLast?_concat] at hlast
  exact hlink.trans (Option.some.inj hlast).symm

theorem Holds.last (h : r.Holds head l) : r.prev head = l.getLast?.getD head := by
  have hgap : Gap head l [] (l.getLast?.getD head) head := by
    refine ⟨?_, [], rfl⟩
    obtain rfl | ⟨A, a, rfl⟩ := eq_nil_or_concat l
    · exact ⟨[], rfl⟩
    · exact ⟨head :: A, by simp⟩
  exact (Holds.link (by simpa using h) hgap).2

theorem Holds.next_iterate (h : r.Holds head l) (k : ℕ) (hk : k ≤ l.length) :
    r.next^[k + 1] head = (l[k]?).getD head := by
  induction k with
  | zero =>
    rw [iterate_one, h.first]
    cases l <;> rfl
  | succ k ih =>
    have hlt : k < l.length := by omega
    rw [iterate_succ_apply', ih (by omega), getElem?_eq_getElem hlt, Option.getD_some]
    have hsplit : l = l.take k ++ l[k] :: l.drop (k + 1) := by
      rw [← drop_eq_getElem_cons hlt, take_append_drop]
    have hnext := Holds.next_eq (hsplit ▸ h)
    rw [hnext, head?_drop]

theorem Holds.reaches_iff (h : r.Holds head l) : r.Reaches head e ↔ e ∈ l := by
  constructor
  · rintro ⟨k, rfl, hne⟩
    by_cases hk : k < l.length
    · rw [h.next_iterate k hk.le, getElem?_eq_getElem hk]
      exact getElem_mem hk
    · refine absurd ?_ (hne l.length (by omega))
      rw [h.next_iterate l.length le_rfl]
      simp
  · intro he
    obtain ⟨k, hk, rfl⟩ := getElem_of_mem he
    refine ⟨k, ?_, fun j hj => ?_⟩
    · rw [h.next_iterate k hk.le, getElem?_eq_getElem hk, Option.getD_some]
    · have hlt : j < l.length := by omega
      rw [h.next_iterate j hlt.le, getElem?_eq_getElem hlt]
      exact ne_of_mem_of_not_mem (getElem_mem _) h.notMem

section

variable (h : r.Holds head (l₁ ++ l₂)) (hgap : Gap head l₁ l₂ p n)

include h hgap

theorem Holds.eq_of_next_self (hself : r.next n = n) : p = n := by
  rcases mem_append.mp hgap.mem_right with hmem | hmem
  · obtain ⟨A, B, rfl⟩ := append_of_mem hmem
    rw [← append_assoc] at h
    have hnext := h.next_eq
    have hnodup := h.1
    cases B <;> grind
  · obtain rfl := mem_singleton.mp hmem
    have hnil : l₁ = [] := by
      have hfirst := h.first
      have hmem := h.notMem
      cases l₁ <;> grind
    subst hnil
    simpa using hgap.mem_left

theorem Holds.splice (he : e ∉ head :: (l₁ ++ l₂)) (hne : ∀ a, a ≠ p → a ≠ e → r'.next a = r.next a)
    (hpr : ∀ a, a ≠ n → a ≠ e → r'.prev a = r.prev a) (hpe : r'.Link p e) (hen : r'.Link e n) :
    r'.Holds head (l₁ ++ e :: l₂) := by
  obtain ⟨hnodup, hleft, -, hright⟩ := hgap.holds_iff.mp h
  have hnd : (head :: (l₁ ++ e :: l₂)).Nodup := by grind
  refine hgap.holds_cons_iff.mpr ⟨hnd, chain_congr hleft ?_ ?_, hpe, hen, chain_congr hright ?_ ?_⟩
  · intro a ha
    have hmem := (dropLast_sublist _).subset ha
    exact hne a (ne_of_mem_of_not_mem ha (hgap.notMem_dropLast hnodup)) (by grind)
  · intro a ha
    exact hpr a (ne_of_mem_of_not_mem ha (hgap.notMem_left hnodup)) (by grind)
  · intro a ha
    rw [dropLast_concat] at ha
    exact hne a (ne_of_mem_of_not_mem ha (hgap.notMem_right hnodup)) (by grind)
  · intro a ha
    have hmem := mem_of_mem_tail ha
    exact hpr a (ne_of_mem_of_not_mem ha (hgap.notMem_tail hnodup)) (by grind)

end

variable [DecidableEq α]

theorem init_holds (r : LinkRing α) (head : α) : (r.init head).Holds head [] := by
  refine ⟨nodup_singleton head, ?_⟩
  simp [Link, init]

theorem Holds.remove (h : r.Holds head (l₁ ++ e :: l₂)) : (r.remove e).Holds head (l₁ ++ l₂) := by
  obtain ⟨p, n, hgap⟩ := exists_gap head l₁ l₂
  obtain ⟨hnodup, hleft, hpe, hen, hright⟩ := hgap.holds_cons_iff.mp h
  have hnd : (head :: (l₁ ++ l₂)).Nodup := by grind
  have heq : r.remove e = ⟨update r.next p n, update r.prev n p⟩ := by
    rw [LinkRing.remove, hpe.2, hen.1]
  rw [heq]
  refine hgap.holds_iff.mpr ⟨hnd, chain_congr hleft ?_ ?_, ⟨?_, ?_⟩, chain_congr hright ?_ ?_⟩
  · intro a ha
    exact update_of_ne (ne_of_mem_of_not_mem ha (hgap.notMem_dropLast hnd)) _ _
  · intro a ha
    exact update_of_ne (ne_of_mem_of_not_mem ha (hgap.notMem_left hnd)) _ _
  · exact update_self _ _ _
  · exact update_self _ _ _
  · intro a ha
    rw [dropLast_concat] at ha
    exact update_of_ne (ne_of_mem_of_not_mem ha (hgap.notMem_right hnd)) _ _
  · intro a ha
    exact update_of_ne (ne_of_mem_of_not_mem ha (hgap.notMem_tail hnd)) _ _

theorem Holds.enter (h : r.Holds head (l₁ ++ l₂)) (hgap : Gap head l₁ l₂ p n)
    (he : e ∉ head :: (l₁ ++ l₂)) : (r.enter n e).Holds head (l₁ ++ e :: l₂) := by
  have hpn := h.link hgap
  have hep : e ≠ p := by
    have := hgap.mem_left
    grind
  have hen : e ≠ n := by
    have := hgap.mem_right
    grind
  by_cases hself : r.next n = n
  · obtain rfl := h.eq_of_next_self hgap hself
    rw [LinkRing.enter, if_pos hself]
    apply h.splice hgap he <;> grind [Link]
  · rw [LinkRing.enter, if_neg hself, hpn.2]
    apply h.splice hgap he <;> grind [Link]

theorem Holds.enterFirst (h : r.Holds head l) (he : e ∉ head :: l) :
    (r.enterFirst head e).Holds head (e :: l) := by
  obtain ⟨p, n, hgap⟩ := exists_gap head [] l
  obtain rfl : p = head := by simpa using hgap.mem_left
  have hpn := Holds.link h hgap
  have hen : e ≠ n := by
    have := hgap.mem_right
    grind
  by_cases hself : r.next p = p
  · obtain rfl : n = p := hpn.1.symm.trans hself
    rw [LinkRing.enterFirst, if_pos hself]
    apply Holds.splice h hgap he <;> grind [Link]
  · rw [LinkRing.enterFirst, if_neg hself, hpn.1]
    apply Holds.splice h hgap he <;> grind [Link]

theorem Holds.removeFirst_eq (h : r.Holds head (e :: l)) : r.removeFirst head = r.remove e := by
  have hfirst : r.next head = e := h.first
  have hprev : r.prev e = head := Holds.prev_eq (by simpa using h : r.Holds head ([] ++ e :: l))
  rw [LinkRing.removeFirst, LinkRing.remove, hfirst, hprev]

omit [DecidableEq α] in
theorem Holds.frame (h : r.Holds head l) (hnext : ∀ a ∈ head :: l, r'.next a = r.next a)
    (hprev : ∀ a ∈ head :: l, r'.prev a = r.prev a) : r'.Holds head l := by
  refine ⟨h.1, chain_congr h.2 (fun a ha => ?_) (fun a ha => ?_)⟩
  · rw [dropLast_concat] at ha
    exact hnext a ha
  · have : a ∈ l ++ [head] := by simpa using ha
    exact hprev a (by grind)

section Neighbours

variable {head' : α} {l' : List α} (h : r.Holds head l) (hapart : ∀ a ∈ head' :: l', a ∉ head :: l)

include h hapart

theorem Holds.remove_apart (h' : r.Holds head' l') (he : e ∈ l') : (r.remove e).Holds head l := by
  obtain ⟨l₁, l₂, rfl⟩ := append_of_mem he
  have hnext : r.next e ∈ head' :: (l₁ ++ e :: l₂) := by
    rw [h'.next_eq]
    cases l₂ <;> simp
  have hprev : r.prev e ∈ head' :: (l₁ ++ e :: l₂) := by
    rw [h'.prev_eq]
    cases hl : l₁.getLast? with
    | none => simp
    | some a => simp [mem_of_getLast? hl]
  refine h.frame (fun a ha => update_of_ne ?_ _ _) fun a ha => update_of_ne ?_ _ _
  · rintro rfl
    exact hapart _ hprev ha
  · rintro rfl
    exact hapart _ hnext ha

theorem Holds.enterFirst_apart (h' : r.Holds head' l') (he : e ∉ head :: l) :
    (r.enterFirst head' e).Holds head l := by
  have hnext : r.next head' ∈ head' :: l' := by
    rw [h'.first]
    cases l' <;> simp
  have hhead : ∀ a ∈ head :: l, a ≠ head' ∧ a ≠ r.next head' ∧ a ≠ e := by
    refine fun a ha => ⟨?_, ?_, ?_⟩
    · rintro rfl
      exact hapart _ (by simp) ha
    · rintro rfl
      exact hapart _ hnext ha
    · rintro rfl
      exact he ha
  refine h.frame (fun a ha => ?_) fun a ha => ?_
  · obtain ⟨h₁, h₂, h₃⟩ := hhead a ha
    rw [LinkRing.enterFirst]
    split <;> simp [h₁, h₃]
  · obtain ⟨h₁, h₂, h₃⟩ := hhead a ha
    rw [LinkRing.enterFirst]
    split <;> simp [h₁, h₂, h₃]

theorem Holds.enter_apart (h' : r.Holds head' l') (he : e ∉ head :: l) :
    (r.enter head' e).Holds head l := by
  have hprev : r.prev head' ∈ head' :: l' := by
    rw [h'.last]
    cases hl : l'.getLast? with
    | none => simp
    | some a => simp [mem_of_getLast? hl]
  have hhead : ∀ a ∈ head :: l, a ≠ head' ∧ a ≠ r.prev head' ∧ a ≠ e := by
    refine fun a ha => ⟨?_, ?_, ?_⟩
    · rintro rfl
      exact hapart _ (by simp) ha
    · rintro rfl
      exact hapart _ hprev ha
    · rintro rfl
      exact he ha
  refine h.frame (fun a ha => ?_) fun a ha => ?_
  · obtain ⟨h₁, h₂, h₃⟩ := hhead a ha
    rw [LinkRing.enter]
    split <;> simp [h₁, h₂, h₃]
  · obtain ⟨h₁, h₂, h₃⟩ := hhead a ha
    rw [LinkRing.enter]
    split <;> simp [h₁, h₃]

end Neighbours

end LinkRing
