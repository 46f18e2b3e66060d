import Mathlib.Tactic.SplitIfs

namespace Outcome

variable {ε α β : Type}

theorem bind_eq_ok {x : Except ε α} {f : α → Except ε β} {b : β} :
    (x >>= f) = .ok b ↔ ∃ a, x = .ok a ∧ f a = .ok b := by
  rcases x with t | a
  · exact ⟨nofun, fun ⟨_, h, _⟩ => nomatch h⟩
  · exact ⟨fun h => ⟨a, rfl, h⟩, fun ⟨_, ha, h⟩ => Except.ok.inj ha ▸ h⟩

@[simp] theorem pure_eq_ok {a b : α} : (pure a : Except ε α) = .ok b ↔ a = b :=
  ⟨Except.ok.inj, congrArg Except.ok⟩

@[simp] theorem ok_bind (a : α) (f : α → Except ε β) : ((.ok a : Except ε α) >>= f) = f a := rfl

@[simp] theorem error_bind (t : ε) (f : α → Except ε β) :
    ((.error t : Except ε α) >>= f) = .error t := rfl

def trap? : Except ε α → Option ε
  | .error t => some t
  | .ok _ => none

theorem trap?_eq_some {x : Except ε α} {t : ε} : trap? x = some t ↔ x = .error t := by
  cases x <;> simp [trap?]

def Avoids (t : ε) (x : Except ε α) : Prop := x ≠ .error t

namespace Avoids

variable {t : ε}

@[simp] theorem ok (a : α) : Avoids t (.ok a : Except ε α) := by
  rw [Avoids]
  simp

@[simp] theorem error_iff {u : ε} : Avoids t (.error u : Except ε α) ↔ u ≠ t := by
  simp [Avoids]

theorem bind_iff {x : Except ε α} {f : α → Except ε β} :
    Avoids t (x >>= f) ↔ Avoids t x ∧ ∀ a, x = .ok a → Avoids t (f a) := by
  cases x with
  | error u => simp [Avoids]
  | ok a => simp

theorem ite_iff {p : Prop} [Decidable p] {x y : Except ε α} :
    Avoids t (if p then x else y) ↔ (p → Avoids t x) ∧ (¬p → Avoids t y) := by
  split_ifs with h <;> simp [h]

end Avoids

theorem bind_ne_error {t : ε} {x : Except ε α} {f : α → Except ε β} (hx : x ≠ .error t)
    (hf : ∀ a, x = .ok a → f a ≠ .error t) : (x >>= f) ≠ .error t :=
  Avoids.bind_iff.mpr ⟨hx, hf⟩

theorem Avoids.mapM {t : ε} {f : α → Except ε β} {l : List α} (hf : ∀ a ∈ l, Avoids t (f a)) :
    Avoids t (l.mapM f) := by
  induction l with
  | nil => exact Avoids.ok []
  | cons a l ih =>
    rw [List.mapM_cons]
    refine bind_ne_error (hf a List.mem_cons_self) fun b _ => ?_
    exact bind_ne_error (ih fun c hc => hf c (List.mem_cons_of_mem a hc)) fun bs _ => Avoids.ok _

def Yields (t : ε) (P : α → Prop) (x : Except ε α) : Prop :=
  Avoids t x ∧ ∀ a, x = .ok a → P a

namespace Yields

variable {t : ε} {P : α → Prop} {Q : β → Prop}

theorem ok {a : α} (h : P a) : Yields t P (.ok a : Except ε α) :=
  ⟨Avoids.ok a, fun _ ha => Except.ok.inj ha ▸ h⟩

theorem error {u : ε} (h : u ≠ t) : Yields t P (.error u : Except ε α) := by
  refine ⟨Avoids.error_iff.mpr h, fun a ha => ?_⟩
  cases ha

theorem bind {x : Except ε α} {f : α → Except ε β} (hx : Yields t P x)
    (hf : ∀ a, P a → Yields t Q (f a)) : Yields t Q (x >>= f) := by
  refine ⟨bind_ne_error hx.1 fun a ha => (hf a (hx.2 a ha)).1, fun b hb => ?_⟩
  obtain ⟨a, ha, hb⟩ := bind_eq_ok.mp hb
  exact (hf a (hx.2 a ha)).2 b hb

theorem after {x : Except ε α} {f : α → Except ε β} (hx : Avoids t x)
    (hf : ∀ a, x = .ok a → Yields t Q (f a)) : Yields t Q (x >>= f) :=
  bind (P := fun a => x = .ok a) ⟨hx, fun _ ha => ha⟩ hf

theorem ite {p : Prop} [Decidable p] {x y : Except ε α} (hx : p → Yields t P x)
    (hy : ¬p → Yields t P y) : Yields t P (if p then x else y) := by
  split_ifs with h
  · exact hx h
  · exact hy h

theorem map {x : Except ε α} {f : α → β} (hx : Yields t (fun a => Q (f a)) x) :
    Yields t Q (x.map f) := by
  cases x with
  | error u => exact error fun h => hx.1 (congrArg Except.error h)
  | ok a => exact ok (hx.2 a rfl)

theorem foldlM {σ : Type} {P : σ → Prop} {f : σ → α → Except ε σ} {l : List α} {s : σ}
    (hf : ∀ s, ∀ a ∈ l, P s → Yields t P (f s a)) (hs : P s) : Yields t P (l.foldlM f s) := by
  induction l generalizing s with
  | nil => exact ok hs
  | cons a l ih =>
    rw [List.foldlM_cons]
    exact bind (hf s a List.mem_cons_self hs) fun s' hs' =>
      ih (fun s b hb => hf s b (List.mem_cons_of_mem a hb)) hs'

end Yields

end Outcome

namespace Program

open Except

variable {σ ε α β : Type}

abbrev Prog (σ ε α : Type) := StateT σ (Except ε) α

def Returns (m : Prog σ ε α) (s : σ) (a : α) (s' : σ) : Prop := m s = .ok (a, s')

def lift (x : Except ε α) : Prog σ ε α := fun s => x.map fun a => (a, s)

section Returns

variable {m : Prog σ ε α} {k : α → Prog σ ε β} {s s' s'' : σ} {a : α} {b : β}

@[simp] theorem returns_pure {a' : α} :
    Returns (pure a : Prog σ ε α) s a' s' ↔ a = a' ∧ s = s' := by
  show (ok (a, s) : Except ε (α × σ)) = .ok (a', s') ↔ a = a' ∧ s = s'
  rw [ok.injEq, Prod.mk.injEq]

theorem returns_bind :
    Returns (m >>= k) s b s'' ↔ ∃ a s', Returns m s a s' ∧ Returns (k a) s' b s'' := by
  simp only [Returns, bind, StateT.bind]
  cases hm : m s with
  | error e => simp [Except.bind]
  | ok r =>
    obtain ⟨a, s'⟩ := r
    constructor
    · exact fun h => ⟨a, s', rfl, h⟩
    · rintro ⟨a', t, heq, h⟩
      cases heq
      exact h

theorem returns_then_pure {f : α → β} (h : Returns (m >>= fun a => pure (f a)) s b s') :
    ∃ a, Returns m s a s' ∧ f a = b := by
  obtain ⟨a, _, hm, hb⟩ := returns_bind.mp h
  obtain ⟨rfl, rfl⟩ := returns_pure.mp hb
  exact ⟨a, hm, rfl⟩

@[simp] theorem returns_get {t : σ} : Returns (get : Prog σ ε σ) s t s' ↔ s = t ∧ s = s' := by
  simp [Returns, get, getThe, MonadStateOf.get, StateT.get, pure, Except.pure]

@[simp] theorem returns_set {t : σ} {u : PUnit} : Returns (set t : Prog σ ε PUnit) s u s' ↔ t = s' := by
  show (ok (PUnit.unit, t) : Except ε (PUnit × σ)) = .ok (u, s') ↔ t = s'
  simp

@[simp] theorem returns_modify {f : σ → σ} {u : PUnit} :
    Returns (modify f : Prog σ ε PUnit) s u s' ↔ f s = s' := by
  simp [Returns, modify, modifyGet, MonadStateOf.modifyGet, StateT.modifyGet, pure, Except.pure]

@[simp] theorem returns_lift {x : Except ε α} :
    Returns (lift x : Prog σ ε α) s a s' ↔ x = .ok a ∧ s = s' := by
  cases x <;> simp [Returns, lift, Except.map]

end Returns

def Yields (m : Prog σ ε α) (P : α → Prop) : Prop := ∀ s a s', Returns m s a s' → P a

theorem Yields.bind {m : Prog σ ε α} {k : α → Prog σ ε β} {P : α → Prop} {Q : β → Prop}
    (hm : Yields m P) (hk : ∀ a, P a → Yields (k a) Q) : Yields (m >>= k) Q := by
  intro s b s'' h
  obtain ⟨a, s', ha, hb⟩ := returns_bind.mp h
  exact hk a (hm s a s' ha) s' b s'' hb

theorem Yields.then {m : Prog σ ε α} {k : α → Prog σ ε β} {Q : β → Prop}
    (hk : ∀ a, Yields (k a) Q) : Yields (m >>= k) Q :=
  Yields.bind (P := fun _ => True) (fun _ _ _ _ => trivial) fun a _ => hk a

theorem Yields.lifted {x : Except ε α} {k : α → Prog σ ε β} {Q : β → Prop}
    (hk : ∀ a, x = .ok a → Yields (k a) Q) : Yields (lift x >>= k) Q :=
  Yields.bind (fun _ _ _ h => (returns_lift.mp h).1) hk

theorem Yields.pure {a : α} {P : α → Prop} (h : P a) : Yields (Pure.pure a : Prog σ ε α) P := by
  intro s b s' hb
  obtain ⟨rfl, -⟩ := returns_pure.mp hb
  exact h

theorem Yields.fault {e : ε} {P : α → Prop} : Yields (lift (.error e) : Prog σ ε α) P := by
  intro s a s' h
  cases (returns_lift.mp h).1

section Within

def Within (R : σ → σ → Prop) (m : Prog σ ε α) : Prop := ∀ s a s', Returns m s a s' → R s s'

theorem Within.seq {R Q S : σ → σ → Prop} (hS : ∀ s t u, R s t → Q t u → S s u)
    {m : Prog σ ε α} {k : α → Prog σ ε β} (hm : Within R m) (hk : ∀ a, Within Q (k a)) :
    Within S (m >>= k) := by
  intro s b s'' h
  obtain ⟨a, s', ha, hb⟩ := returns_bind.mp h
  exact hS s s' s'' (hm s a s' ha) (hk a s' b s'' hb)

structure Chains (R : σ → σ → Prop) : Prop where
  refl : ∀ s, R s s
  trans : ∀ s t u, R s t → R t u → R s u

variable {R : σ → σ → Prop} (hR : Chains R)

include hR

theorem Within.bind {m : Prog σ ε α} {k : α → Prog σ ε β} (hm : Within R m)
    (hk : ∀ a, Within R (k a)) : Within R (m >>= k) :=
  hm.seq hR.trans hk

theorem Within.pure (a : α) : Within R (Pure.pure a : Prog σ ε α) := by
  intro s b s' h
  obtain ⟨-, rfl⟩ := returns_pure.mp h
  exact hR.refl s

theorem Within.look {k : σ → Prog σ ε β} (hk : ∀ s, Within R (k s)) : Within R (get >>= k) := by
  refine Within.bind hR (fun s t s' h => ?_) hk
  obtain ⟨-, rfl⟩ := returns_get.mp h
  exact hR.refl s

omit hR

theorem Within.modify {f : σ → σ} (hf : ∀ s, R s (f s)) : Within R (modify f : Prog σ ε PUnit) := by
  intro s u s' h
  rw [← returns_modify.mp h]
  exact hf s

theorem Within.ite {p : Prop} [Decidable p] {m n : Prog σ ε α} (hm : Within R m) (hn : Within R n) :
    Within R (if p then m else n) := by
  split_ifs
  · exact hm
  · exact hn

theorem Within.fault {e : ε} : Within R (lift (.error e) : Prog σ ε α) := by
  intro s a s' h
  cases (returns_lift.mp h).1

end Within

def after (m : Prog σ ε α) (s : σ) (test : α → σ → Bool) : Bool :=
  match m s with
  | .ok (a, s') => test a s'
  | .error _ => false

theorem exists_returns {m : Prog σ ε α} {s : σ} {test : α → σ → Bool}
    (h : after m s test = true) : ∃ a s', Returns m s a s' ∧ test a s' = true := by
  rw [after] at h
  split at h
  · next a s' hm => exact ⟨a, s', hm, h⟩
  · cases h

variable {σ ε ν α β : Type} (view : σ → ν) (bad : ε → Prop)

def Gives (m : Prog σ ε α) (v : ν) (Q : α → ν → Prop) : Prop :=
  ∀ s, view s = v → (∀ e, m s = .error e → ¬bad e) ∧ ∀ a s', Returns m s a s' → Q a (view s')

variable {view bad} {v : ν}

theorem Gives.bind {m : Prog σ ε α} {k : α → Prog σ ε β} {Q : β → ν → Prop}
    (hm : Gives view bad m v fun a v' => Gives view bad (k a) v' Q) :
    Gives view bad (m >>= k) v Q := by
  intro s hs
  obtain ⟨hsafe, hret⟩ := hm s hs
  cases hrun : m s with
  | error e =>
    have heq : (m >>= k) s = .error e := by simp [Bind.bind, StateT.bind, Except.bind, hrun]
    constructor
    · intro e' he'
      rw [← error.inj (heq.symm.trans he')]
      exact hsafe e hrun
    · intro b s'' hb
      cases heq.symm.trans hb
  | ok r =>
    obtain ⟨a, s'⟩ := r
    have heq : (m >>= k) s = k a s' := by simp [Bind.bind, StateT.bind, Except.bind, hrun]
    obtain ⟨hsafe', hret'⟩ := hret a s' hrun s' rfl
    exact ⟨fun e he => hsafe' e (heq.symm.trans he), fun b s'' hb => hret' b s'' (heq.symm.trans hb)⟩

theorem Gives.mono {m : Prog σ ε α} {P Q : α → ν → Prop} (hm : Gives view bad m v P)
    (hPQ : ∀ a v', P a v' → Q a v') : Gives view bad m v Q := by
  intro s hs
  obtain ⟨hsafe, hret⟩ := hm s hs
  exact ⟨hsafe, fun a s' ha => hPQ a (view s') (hret a s' ha)⟩

theorem Gives.then {m : Prog σ ε α} {k : α → Prog σ ε β} {P : α → ν → Prop} {Q : β → ν → Prop}
    (hm : Gives view bad m v P) (hk : ∀ a v', P a v' → Gives view bad (k a) v' Q) :
    Gives view bad (m >>= k) v Q :=
  (hm.mono hk).bind

theorem Gives.pure {a : α} {Q : α → ν → Prop} (h : Q a v) :
    Gives view bad (Pure.pure a : Prog σ ε α) v Q := by
  rintro s rfl
  refine ⟨nofun, fun b s' hb => ?_⟩
  obtain ⟨rfl, rfl⟩ := returns_pure.mp hb
  exact h

theorem Gives.look {k : σ → Prog σ ε β} {Q : β → ν → Prop}
    (h : ∀ s, view s = v → Gives view bad (k s) v Q) : Gives view bad (get >>= k) v Q := by
  refine Gives.bind fun s hs => ⟨nofun, fun t s' ht => ?_⟩
  obtain ⟨rfl, rfl⟩ := returns_get.mp ht
  rw [hs]
  exact h s hs

theorem Gives.modify {f : σ → σ} {g : ν → ν} {Q : PUnit → ν → Prop} (hf : ∀ s, view (f s) = g (view s))
    (h : Q ⟨⟩ (g v)) : Gives view bad (modify f : Prog σ ε PUnit) v Q := by
  rintro s rfl
  refine ⟨nofun, fun a s' ha => ?_⟩
  rw [← returns_modify.mp ha, hf]
  exact h

theorem Gives.fault {e : ε} {Q : α → ν → Prop} (he : ¬bad e) :
    Gives view bad (lift (.error e) : Prog σ ε α) v Q := by
  intro s _
  constructor
  · intro e' he'
    rw [← error.inj he']
    exact he
  · intro a s' ha
    cases (returns_lift.mp ha).1

theorem Gives.ite {p : Prop} [Decidable p] {m n : Prog σ ε α} {Q : α → ν → Prop}
    (hm : p → Gives view bad m v Q) (hn : ¬p → Gives view bad n v Q) :
    Gives view bad (if p then m else n) v Q := by
  split_ifs with h
  · exact hm h
  · exact hn h

end Program
