import Mathlib.Algebra.GroupWithZero.Nat
import Mathlib.Logic.Relation

namespace Transition

open Relation Option

instance two_parties : NeZero 2 := ⟨Nat.succ_ne_zero 1⟩

variable {σ ε : Type} (next : σ → ε → Option σ)

def Under (P : σ → ε → Prop) (x y : σ) : Prop := ∃ e, P x e ∧ next x e = some y

def Free : σ → ε → Prop := fun _ _ => True

def exec : σ → List ε → Option σ
  | x, [] => some x
  | x, e :: es => (next x e).bind fun y => exec y es

def Admits (P : σ → ε → Prop) : σ → List ε → Prop
  | _, [] => True
  | x, e :: es => P x e ∧ ∀ y ∈ next x e, Admits P y es

instance Admits.decidable (P : σ → ε → Prop) [∀ x e, Decidable (P x e)] :
    ∀ x es, Decidable (Admits next P x es)
  | _, [] => isTrue trivial
  | x, e :: es =>
    have (y : σ) : Decidable (Admits next P y es) := Admits.decidable P y es
    inferInstanceAs (Decidable (P x e ∧ ∀ y ∈ next x e, Admits next P y es))

variable {next} {P : σ → ε → Prop}

theorem invariant {I : σ → Prop} (hstep : ∀ x e y, I x → P x e → next x e = some y → I y)
    {x y : σ} (hrun : ReflTransGen (Under next P) x y) (hx : I x) : I y := by
  induction hrun with
  | refl => exact hx
  | tail _ hmove ih =>
    obtain ⟨e, he, hy⟩ := hmove
    exact hstep _ e _ ih he hy

theorem drains {I Done : σ → Prop} (rest : σ → ℕ) (hprogress : ∀ x, I x → Done x ∨
      ∃ e y, P x e ∧ next x e = some y ∧ I y ∧ rest y < rest x) {x : σ} (hx : I x) :
    ∃ y, ReflTransGen (Under next P) x y ∧ Done y := by
  induction hn : rest x using Nat.strongRecOn generalizing x with
  | ind n ih =>
    rcases hprogress x hx with hdone | ⟨e, y, he, hy, hI, hlt⟩
    · exact ⟨x, .refl, hdone⟩
    · obtain ⟨z, hrun, hz⟩ := ih (rest y) (hn ▸ hlt) hI rfl
      exact ⟨z, .head ⟨e, he, hy⟩ hrun, hz⟩

theorem run_of_exec {x y : σ} {es : List ε} (hP : Admits next P x es)
    (h : exec next x es = some y) : ReflTransGen (Under next P) x y := by
  induction es generalizing x with
  | nil =>
    cases h
    exact .refl
  | cons e es ih =>
    obtain ⟨z, hz, h⟩ := bind_eq_some_iff.mp h
    exact .head ⟨e, hP.1, hz⟩ (ih (hP.2 z hz) h)

theorem free_admits (x : σ) (es : List ε) : Admits next Free x es := by
  induction es generalizing x with
  | nil => trivial
  | cons e es ih => exact ⟨trivial, fun y _ => ih y⟩

theorem admits_last {x y : σ} {es : List ε} {e : ε} (hP : Admits next P x (es ++ [e]))
    (h : exec next x es = some y) : P y e := by
  induction es generalizing x with
  | nil =>
    cases h
    exact hP.1
  | cons a es ih =>
    obtain ⟨z, hz, h⟩ := bind_eq_some_iff.mp h
    exact ih (hP.2 z hz) h

theorem admits_congr {I : σ → Prop} {Q R : σ → ε → Prop}
    (hsame : ∀ x e, I x → P x e → (Q x e ↔ R x e))
    (hkeep : ∀ x e y, I x → P x e → R x e → next x e = some y → I y) {x : σ} {es : List ε}
    (hx : I x) (hP : Admits next P x es) : Admits next Q x es ↔ Admits next R x es := by
  induction es generalizing x with
  | nil => exact Iff.rfl
  | cons e es ih =>
    have htail (hR : R x e) (y : σ) (hy : y ∈ next x e) : Admits next Q y es ↔ Admits next R y es :=
      ih (hkeep x e y hx hP.1 hR hy) (hP.2 y hy)
    constructor
    · rintro ⟨hQ, hrest⟩
      have hR := (hsame x e hx hP.1).mp hQ
      exact ⟨hR, fun y hy => (htail hR y hy).mp (hrest y hy)⟩
    · rintro ⟨hR, hrest⟩
      exact ⟨(hsame x e hx hP.1).mpr hR, fun y hy => (htail hR y hy).mpr (hrest y hy)⟩

variable (next)

def Throughout (Q : σ → Prop) : σ → List ε → Prop
  | x, [] => Q x
  | x, e :: es => Q x ∧ ∀ y ∈ next x e, Throughout Q y es

variable {next}

theorem throughout {I Q : σ → Prop} (hQ : ∀ x, I x → Q x)
    (hkeep : ∀ x e y, I x → next x e = some y → I y) {x : σ} (hx : I x) (es : List ε) :
    Throughout next Q x es := by
  induction es generalizing x with
  | nil => exact hQ x hx
  | cons e es ih => exact ⟨hQ x hx, fun y hy => ih (hkeep x e y hx hy)⟩

theorem throughout_iff {I Q : σ → Prop} (hQ : ∀ x, I x → Q x)
    (hkeep : ∀ x e y, I x → P x e → next x e = some y → I y)
    (hneeds : ∀ x e y, I x → next x e = some y → Q y → P x e) {x y : σ} {es : List ε} (hx : I x)
    (hrun : exec next x es = some y) : Throughout next Q x es ↔ Admits next P x es := by
  induction es generalizing x with
  | nil => exact ⟨fun _ => trivial, fun _ => hQ x hx⟩
  | cons e es ih =>
    obtain ⟨z, hz, hrun⟩ := bind_eq_some_iff.mp hrun
    have htail (h : P x e) : Throughout next Q z es ↔ Admits next P z es :=
      ih (hkeep x e z hx h hz) hrun
    constructor
    · intro ⟨_, h⟩
      have hQz : Q z := by
        have := h z hz
        cases es with
        | nil => exact this
        | cons _ _ => exact this.1
      have hP := hneeds x e z hx hz hQz
      refine ⟨hP, fun u hu => ?_⟩
      cases hz.symm.trans hu
      exact (htail hP).mp (h z hz)
    · intro ⟨hP, h⟩
      refine ⟨hQ x hx, fun u hu => ?_⟩
      cases hz.symm.trans hu
      exact (htail hP).mpr (h z hz)

variable (next)

def check (x : σ) (es : List ε) (test : σ → Bool) : Bool :=
  match exec next x es with
  | some y => test y
  | none => false

variable {next}

theorem exec_of_check {x : σ} {es : List ε} {test : σ → Bool} (h : check next x es test = true) :
    ∃ y, exec next x es = some y ∧ test y = true := by
  rw [check] at h
  cases hr : exec next x es with
  | none => simp [hr] at h
  | some y => exact ⟨y, rfl, by simpa [hr] using h⟩

section Simulation

variable {τ : Type} {next : σ → ε → Option σ} {P : σ → ε → Prop} {next' : τ → ε → Option τ}
  {Q : τ → ε → Prop} {R : σ → τ → Prop}

theorem simulated (hstep : ∀ x e x' y, R x y → P x e → next x e = some x' →
      ∃ y', (y' = y ∨ Under next' Q y y') ∧ R x' y') {x x' : σ} {y : τ} (hR : R x y)
    (hrun : ReflTransGen (Under next P) x x') :
    ∃ y', ReflTransGen (Under next' Q) y y' ∧ R x' y' := by
  induction hrun with
  | refl => exact ⟨y, .refl, hR⟩
  | tail _ hmove ih =>
    obtain ⟨z, hz, hRz⟩ := ih
    obtain ⟨e, he, hx'⟩ := hmove
    obtain ⟨y', rfl | hy', hR'⟩ := hstep _ e _ z hRz he hx'
    · exact ⟨y', hz, hR'⟩
    · exact ⟨y', hz.tail hy', hR'⟩

end Simulation

end Transition
