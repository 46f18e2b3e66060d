import Mathlib.Data.Fintype.Card

def Guards {A S : Type} (holds : S → Bool) (lock : Option A) (phase : A → S) : Prop :=
  ∀ a, holds (phase a) = true ↔ lock = some a

namespace Guards

open Function

variable {A S : Type} {holds : S → Bool} {lock : Option A} {phase : A → S} {a b : A} {q : S}

theorem unique (h : Guards holds lock phase) (ha : holds (phase a) = true)
    (hb : holds (phase b) = true) : a = b :=
  Option.some.inj (((h a).mp ha).symm.trans ((h b).mp hb))

theorem idle (h : Guards holds lock phase) (ha : holds (phase a) = true) (hb : b ≠ a) :
    holds (phase b) = false :=
  Bool.eq_false_iff.mpr fun hheld => hb (h.unique hheld ha)

variable [DecidableEq A]

theorem same (h : Guards holds lock phase) (hq : holds q = holds (phase a)) :
    Guards holds lock (update phase a q) := by
  intro b
  rcases eq_or_ne b a with rfl | hne
  · rw [update_self, hq]
    exact h b
  · rw [update_of_ne hne]
    exact h b

theorem take (h : Guards holds none phase) (hq : holds q = true) :
    Guards holds (some a) (update phase a q) := by
  intro b
  rcases eq_or_ne b a with rfl | hne
  · rw [update_self]
    exact ⟨fun _ => rfl, fun _ => hq⟩
  · rw [update_of_ne hne]
    exact ⟨fun hb => (Option.some_ne_none b ((h b).mp hb).symm).elim,
      fun hb => (hne (Option.some.inj hb).symm).elim⟩

theorem free (h : Guards holds lock phase) (ha : holds (phase a) = true) (hq : holds q = false) :
    Guards holds none (update phase a q) := by
  intro b
  rcases eq_or_ne b a with rfl | hne
  · rw [update_self, hq]
    exact ⟨fun hb => Bool.noConfusion hb, fun hb => (Option.some_ne_none b hb.symm).elim⟩
  · rw [update_of_ne hne, h.idle ha hne]
    exact ⟨fun hb => Bool.noConfusion hb, fun hb => (Option.some_ne_none b hb.symm).elim⟩

end Guards

def Flags {A S : Type} (holds : S → Bool) (flag : Bool) (phase : A → S) : Prop :=
  ∃ lock, Guards holds lock phase ∧ flag = lock.isSome

namespace Flags

variable {A S : Type} {holds : S → Bool} {flag : Bool} {phase phase' : A → S} {a b : A} {q : S}

section

variable (h : Flags holds flag phase)

include h

theorem up (ha : holds (phase a) = true) : flag = true := by
  obtain ⟨lock, hlock, rfl⟩ := h
  rw [(hlock a).mp ha]
  rfl

theorem unique (ha : holds (phase a) = true) (hb : holds (phase b) = true) : a = b := by
  obtain ⟨lock, hlock, -⟩ := h
  exact hlock.unique ha hb

theorem up_iff : flag = true ↔ ∃ a, holds (phase a) = true := by
  refine ⟨fun hup => ?_, fun ⟨a, ha⟩ => h.up ha⟩
  obtain ⟨lock, hlock, rfl⟩ := h
  obtain ⟨a, rfl⟩ := Option.isSome_iff_exists.mp hup
  exact ⟨a, (hlock a).mpr rfl⟩

theorem congr (heq : ∀ a, holds (phase' a) = holds (phase a)) : Flags holds flag phase' := by
  obtain ⟨lock, hlock, hflag⟩ := h
  refine ⟨lock, fun a => ?_, hflag⟩
  rw [heq]
  exact hlock a

end

theorem down (h : ∀ a, holds (phase a) = false) : Flags holds false phase := by
  refine ⟨none, fun a => ?_, rfl⟩
  rw [h]
  exact ⟨fun ha => Bool.noConfusion ha, fun ha => (Option.some_ne_none a ha.symm).elim⟩

variable [DecidableEq A]

theorem same (h : Flags holds flag phase) (hq : holds q = holds (phase a)) :
    Flags holds flag (Function.update phase a q) := by
  obtain ⟨lock, hlock, hflag⟩ := h
  exact ⟨lock, hlock.same hq, hflag⟩

theorem take (h : Flags holds false phase) (hq : holds q = true) :
    Flags holds true (Function.update phase a q) := by
  obtain ⟨lock, hlock, hflag⟩ := h
  cases lock with
  | none => exact ⟨some a, hlock.take hq, rfl⟩
  | some b => cases hflag

theorem free (h : Flags holds flag phase) (ha : holds (phase a) = true) (hq : holds q = false) :
    Flags holds false (Function.update phase a q) := by
  obtain ⟨lock, hlock, -⟩ := h
  exact ⟨none, hlock.free ha hq, rfl⟩

end Flags

def census {A S : Type} [Fintype A] (counts : S → Bool) (phase : A → S) : ℕ :=
  (Finset.univ.filter fun a => counts (phase a) = true).card

namespace Census

open Finset

variable {A S : Type} [Fintype A] {counts : S → Bool} {phase phase' : A → S} {a : A} {q : S}

theorem congr (h : ∀ a, counts (phase' a) = counts (phase a)) : census counts phase' = census counts phase := by
  rw [census, census]
  simp only [h]

theorem ne_zero (ha : counts (phase a) = true) : census counts phase ≠ 0 :=
  card_ne_zero_of_mem (mem_filter.mpr ⟨mem_univ a, ha⟩)

theorem eq_zero (h : ∀ a, counts (phase a) = false) : census counts phase = 0 := by
  refine card_eq_zero.mpr (filter_eq_empty_iff.mpr fun a _ => ?_)
  rw [h a]
  exact Bool.false_ne_true

variable [DecidableEq A]

theorem join (ha : counts (phase a) = false) (hq : counts q = true) :
    census counts (Function.update phase a q) = census counts phase + 1 := by
  have hset : (univ.filter fun b => counts (Function.update phase a q b) = true) =
      insert a (univ.filter fun b => counts (phase b) = true) := by
    ext b
    rw [mem_insert, mem_filter, mem_filter]
    rcases eq_or_ne b a with rfl | hne
    · simp [hq]
    · simp [hne]
  rw [census, hset, card_insert_of_notMem (by simp [ha]), census]

theorem same (hq : counts q = counts (phase a)) :
    census counts (Function.update phase a q) = census counts phase := by
  refine congr fun b => ?_
  rcases eq_or_ne b a with rfl | hne
  · rw [Function.update_self, hq]
  · rw [Function.update_of_ne hne]

theorem leave (ha : counts (phase a) = true) (hq : counts q = false) :
    census counts (Function.update phase a q) + 1 = census counts phase := by
  have hback : census counts (Function.update (Function.update phase a q) a (phase a)) =
      census counts (Function.update phase a q) + 1 := join (by rw [Function.update_self, hq]) ha
  rw [Function.update_idem, Function.update_eq_self] at hback
  exact hback.symm

end Census
