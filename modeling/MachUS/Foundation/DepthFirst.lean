import Mathlib.Data.List.Nodup
import Mathlib.Data.List.Perm.Subperm

namespace DepthFirst

open Relation List Option

variable {α : Type}

def visit [DecidableEq α] (live : α → Bool) (next : α → List α) : ℕ → α → List α → Option (List α)
  | 0, _, _ => none
  | depth + 1, x, seen =>
    if live x = true ∧ x ∉ seen then
      foldlM (fun s y => visit live next depth y s) (seen ++ [x]) (next x)
    else some seen

def visitAll [DecidableEq α] (live : α → Bool) (next : α → List α) (depth : ℕ) (xs seen : List α) :
    Option (List α) :=
  foldlM (fun s y => visit live next depth y s) seen xs

variable {live : α → Bool} {next : α → List α} {xs ys seen seen' seen'' all : List α} {x y : α}

@[simp] theorem visitAll_nil [DecidableEq α] (depth : ℕ) : visitAll live next depth [] seen = some seen := rfl

theorem visitAll_cons [DecidableEq α] (depth : ℕ) : visitAll live next depth (x :: xs) seen =
    (visit live next depth x seen).bind fun s => visitAll live next depth xs s := by
  rw [visitAll, foldlM_cons]
  rfl

theorem visit_succ [DecidableEq α] (depth : ℕ) : visit live next (depth + 1) x seen =
    if live x = true ∧ x ∉ seen then visitAll live next depth (next x) (seen ++ [x])
    else some seen := rfl

def Reached (live : α → Bool) (next : α → List α) (xs : List α) (y : α) : Prop :=
  live y = true ∧ ∃ x ∈ xs, ReflTransGen (fun a b => b ∈ next a) x y

structure Extends (live : α → Bool) (next : α → List α) (xs seen seen' : List α) : Prop where
  grows : seen <+: seen'
  nodup : seen.Nodup → seen'.Nodup
  found : ∀ x ∈ xs, live x = true → x ∈ seen'
  closed : ∀ y ∈ seen', y ∉ seen → ∀ z ∈ next y, live z = true → z ∈ seen'
  reached : ∀ y ∈ seen', y ∉ seen → Reached live next xs y

namespace Extends

theorem nil (seen : List α) : Extends live next [] seen seen where
  grows := prefix_refl _
  nodup := id
  found := by simp
  closed y hy hy' := absurd hy hy'
  reached y hy hy' := absurd hy hy'

theorem append (h : Extends live next xs seen seen') (h' : Extends live next ys seen' seen'') :
    Extends live next (xs ++ ys) seen seen'' where
  grows := h.grows.trans h'.grows
  nodup := h'.nodup ∘ h.nodup
  found := by
    intro x hx hlive
    rcases mem_append.mp hx with hx | hx
    · exact h'.grows.subset (h.found x hx hlive)
    · exact h'.found x hx hlive
  closed := by
    intro y hy hnew z hz hlive
    by_cases hmid : y ∈ seen'
    · exact h'.grows.subset (h.closed y hmid hnew z hz hlive)
    · exact h'.closed y hy hmid z hz hlive
  reached := by
    intro y hy hnew
    by_cases hmid : y ∈ seen'
    · obtain ⟨hlive, x, hx, hpath⟩ := h.reached y hmid hnew
      exact ⟨hlive, x, mem_append_left _ hx, hpath⟩
    · obtain ⟨hlive, x, hx, hpath⟩ := h'.reached y hy hmid
      exact ⟨hlive, x, mem_append_right _ hx, hpath⟩

theorem enter (hlive : live x = true) (hx : x ∉ seen)
    (h : Extends live next (next x) (seen ++ [x]) seen') : Extends live next [x] seen seen' := by
  have hself : x ∈ seen' := h.grows.subset (by simp)
  have hcases : ∀ y ∈ seen', y ∉ seen → y = x ∨ y ∉ seen ++ [x] := by
    intro y _ hnew
    by_cases hyx : y = x
    · exact Or.inl hyx
    · exact Or.inr (by simp [hnew, hyx])
  refine ⟨(prefix_append _ _).trans h.grows, fun hnodup => h.nodup ?_, ?_, ?_, ?_⟩
  · rw [← concat_eq_append]
    exact hnodup.concat hx
  · intro y hy _
    rw [mem_singleton.mp hy]
    exact hself
  · intro y hy hnew z hz hz'
    rcases hcases y hy hnew with rfl | hlater
    · exact h.found z hz hz'
    · exact h.closed y hy hlater z hz hz'
  · intro y hy hnew
    rcases hcases y hy hnew with rfl | hlater
    · exact ⟨hlive, y, mem_singleton_self y, ReflTransGen.refl⟩
    · obtain ⟨hy', z, hz, hpath⟩ := h.reached y hy hlater
      exact ⟨hy', x, mem_singleton_self x, ReflTransGen.head hz hpath⟩

theorem skip (h : ¬(live x = true ∧ x ∉ seen)) : Extends live next [x] seen seen := by
  refine ⟨prefix_refl _, id, fun y hy hlive => ?_, fun y hy hy' => absurd hy hy',
    fun y hy hy' => absurd hy hy'⟩
  rw [mem_singleton.mp hy] at hlive ⊢
  by_contra hx
  exact h ⟨hlive, hx⟩

theorem mem_iff (h : Extends live next xs [] seen') (hdead : ∀ x, ¬live x = true → next x = []) :
    y ∈ seen' ↔ Reached live next xs y := by
  constructor
  · intro hy
    exact h.reached y hy not_mem_nil
  · rintro ⟨hlive, x, hx, hpath⟩
    induction hpath with
    | refl => exact h.found x hx hlive
    | tail _ hstep ih =>
      refine h.closed _ (ih ?_) not_mem_nil _ hstep hlive
      by_contra hb
      rw [hdead _ hb] at hstep
      exact absurd hstep not_mem_nil

end Extends

section Depth

variable [DecidableEq α] {depth : ℕ}

theorem visitAll_of_visit (xs : List α)
    (hvisit : ∀ x (seen : List α), seen.Nodup → seen ⊆ all → all.length < depth + seen.length →
      ∃ seen', visit live next depth x seen = some seen' ∧ seen' ⊆ all ∧
        Extends live next [x] seen seen')
    (hnodup : seen.Nodup) (hseen : seen ⊆ all) (hdepth : all.length < depth + seen.length) :
    ∃ seen', visitAll live next depth xs seen = some seen' ∧ seen' ⊆ all ∧
      Extends live next xs seen seen' := by
  induction xs generalizing seen with
  | nil => exact ⟨seen, rfl, hseen, Extends.nil seen⟩
  | cons x xs ih =>
    obtain ⟨t, hrun, ht, hfirst⟩ := hvisit x seen hnodup hseen hdepth
    have hlen := hfirst.grows.length_le
    obtain ⟨u, hrun', hu, hrest⟩ := ih (hfirst.nodup hnodup) ht (by omega)
    rw [visitAll_cons, hrun]
    exact ⟨u, hrun', hu, hfirst.append hrest⟩

theorem visit_spec (hall : ∀ x, live x = true → x ∈ all) (hnodup : seen.Nodup)
    (hseen : seen ⊆ all) (hdepth : all.length < depth + seen.length) :
    ∃ seen', visit live next depth x seen = some seen' ∧ seen' ⊆ all ∧
      Extends live next [x] seen seen' := by
  induction depth generalizing x seen with
  | zero =>
    have hle := (hnodup.subperm hseen).length_le
    omega
  | succ depth ih =>
    rw [visit_succ]
    by_cases hx : live x = true ∧ x ∉ seen
    · have hsub : seen ++ [x] ⊆ all := by
        intro y hy
        rcases mem_append.mp hy with hy | hy
        · exact hseen hy
        · rw [mem_singleton.mp hy]
          exact hall x hx.1
      have hfresh : (seen ++ [x]).Nodup := by
        rw [← concat_eq_append]
        exact hnodup.concat hx.2
      have hlen : (seen ++ [x]).length = seen.length + 1 := by simp
      obtain ⟨seen', hrun, hseen', hext⟩ :=
        visitAll_of_visit (next x) (fun _ _ hs hs' hlt => ih hs hs' hlt) hfresh hsub (by omega)
      rw [if_pos hx]
      exact ⟨seen', hrun, hseen', Extends.enter hx.1 hx.2 hext⟩
    · exact ⟨seen, if_neg hx, hseen, Extends.skip hx⟩

theorem visitAll_spec (next : α → List α) (xs : List α) (hall : ∀ x, live x = true → x ∈ all)
    (hdepth : all.length < depth) :
    ∃ seen', visitAll live next depth xs [] = some seen' ∧ Extends live next xs [] seen' := by
  obtain ⟨seen', hrun, -, hext⟩ := visitAll_of_visit xs (fun x _ => visit_spec hall)
    nodup_nil (nil_subset _) (by simpa using hdepth)
  exact ⟨seen', hrun, hext⟩

end Depth

section Grows

variable [DecidableEq α]

theorem visitAll_grows_of {depth : ℕ}
    (hvisit : ∀ x (s t : List α), visit live next depth x s = some t → s <+: t)
    (h : visitAll live next depth xs seen = some seen') : seen <+: seen' := by
  induction xs generalizing seen with
  | nil =>
    cases h
    exact prefix_refl _
  | cons x xs ih =>
    rw [visitAll_cons] at h
    obtain ⟨t, hrun, hrest⟩ := bind_eq_some_iff.mp h
    exact (hvisit x seen t hrun).trans (ih hrest)

theorem visit_grows {depth : ℕ} (h : visit live next depth x seen = some seen') :
    seen <+: seen' := by
  induction depth generalizing x seen seen' with
  | zero => cases h
  | succ depth ih =>
    rw [visit_succ] at h
    split_ifs at h with hx
    · exact (prefix_append _ _).trans (visitAll_grows_of (fun x s t => ih) h)
    · cases h
      exact prefix_refl _

theorem visitAll_grows {depth : ℕ} (h : visitAll live next depth xs seen = some seen') :
    seen <+: seen' := visitAll_grows_of (fun _ _ _ => visit_grows) h

end Grows

structure Follows [DecidableEq α] {σ ε : Type} (live : α → Bool) (next : α → List α)
    (search : ℕ → α → σ → Except ε σ) (R : σ → List α → Prop) (Q : List α → Prop)
    (V : α → Prop) : Prop where
  skips : ∀ depth x s seen, R s seen → V x → ¬(live x = true ∧ x ∉ seen) →
    search (depth + 1) x s = .ok s
  enters : ∀ depth x s seen, R s seen → V x → live x = true → x ∉ seen → Q (seen ++ [x]) →
    ∃ t, search (depth + 1) x s = foldlM (fun s y => search depth y s) t (next x) ∧
      R t (seen ++ [x])
  listed : ∀ x, V x → live x = true → ∀ y ∈ next x, V y
  shorter : ∀ l l' : List α, l <+: l' → Q l' → Q l

namespace Follows

variable [DecidableEq α] {σ ε : Type} {search : ℕ → α → σ → Except ε σ} {R : σ → List α → Prop}
  {Q : List α → Prop} {V : α → Prop} {s : σ} {depth : ℕ}

section

variable (h : Follows live next search R Q V)

include h

theorem list_of (hvisit : ∀ x (s : σ) (seen seen' : List α), R s seen → V x → Q seen' →
      visit live next depth x seen = some seen' → ∃ t, search depth x s = .ok t ∧ R t seen')
    (hs : R s seen) (hxs : ∀ x ∈ xs, V x) (hQ : Q seen')
    (hrun : visitAll live next depth xs seen = some seen') :
    ∃ t, foldlM (fun s y => search depth y s) s xs = .ok t ∧ R t seen' := by
  induction xs generalizing s seen with
  | nil =>
    cases hrun
    exact ⟨s, rfl, hs⟩
  | cons x xs ih =>
    rw [visitAll_cons] at hrun
    obtain ⟨mid, hfirst, hrest⟩ := bind_eq_some_iff.mp hrun
    have hmid : Q mid := h.shorter _ _ (visitAll_grows hrest) hQ
    obtain ⟨t, ht, hR⟩ := hvisit x s seen mid hs (hxs x mem_cons_self) hmid hfirst
    obtain ⟨u, hu, hR'⟩ := ih hR (fun y hy => hxs y (mem_cons_of_mem _ hy)) hrest
    refine ⟨u, ?_, hR'⟩
    rw [foldlM_cons, ht]
    exact hu

theorem node (hs : R s seen) (hx : V x) (hQ : Q seen')
    (hrun : visit live next depth x seen = some seen') :
    ∃ t, search depth x s = .ok t ∧ R t seen' := by
  induction depth generalizing x s seen seen' with
  | zero => cases hrun
  | succ depth ih =>
    rw [visit_succ] at hrun
    split_ifs at hrun with hnew
    · have hQ' : Q (seen ++ [x]) := h.shorter _ _ (visitAll_grows hrun) hQ
      obtain ⟨t, ht, hR⟩ := h.enters depth x s seen hs hx hnew.1 hnew.2 hQ'
      rw [ht]
      exact h.list_of (fun y s seen seen' hs hy hQ => ih hs hy hQ) hR (h.listed x hx hnew.1) hQ hrun
    · cases hrun
      exact ⟨s, h.skips depth x s seen hs hx hnew, hs⟩

theorem list (hs : R s seen) (hxs : ∀ x ∈ xs, V x)
    (hQ : Q seen') (hrun : visitAll live next depth xs seen = some seen') :
    ∃ t, foldlM (fun s y => search depth y s) s xs = .ok t ∧ R t seen' :=
  h.list_of (fun _ _ _ _ hs hx hQ hrun => h.node hs hx hQ hrun) hs hxs hQ hrun

end

end Follows

end DepthFirst
