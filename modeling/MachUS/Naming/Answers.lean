import MachUS.Naming.SimpleBalance

namespace MachUS.Naming

open Program Yields

variable {W : Type} {sv : Servers W} {c : Callees W}

structure Answering (sv : Servers W) : Prop where
  authenticate : ∀ w o access token r, (sv.authenticate w o access token).1 = .ok r → r ≠ none
  duplicate : ∀ w o access r, (sv.duplicate w o access).1 = .ok r → r ≠ none
  resolve : ∀ w o path mode access r, (sv.resolve w o path mode access).1 = .ok r →
    r.obj = none → r.forwards = true ∧ r.path.bytes ≠ []

def Reply.Answers (r : Reply) : Prop := r.obj = none → r.forwards = true ∧ r.path.bytes ≠ []

def Definite : Except NsError Resolved → Prop
  | .error _ => True
  | .ok q => q.obj ≠ none

def DefiniteTurn : Except NsError Turn → Prop
  | .ok (.done q) => q.obj ≠ none
  | _ => True

theorem yields_authenticate (h : Answering sv) (o : Obj) (access : UInt32) :
    Yields (authenticate sv o access) fun r => ∀ obj, r = .ok obj → obj ≠ none := by
  intro s r s' hm obj hr
  have hr' := (returns_authenticate hm).1
  exact h.authenticate _ _ _ _ obj (hr'.symm.trans hr)

theorem yields_ask (h : Answering sv) (p : Plan) (l : Locals) :
    Yields (ask sv p l) fun a => ∀ r, a = .ok r → r.Answers := by
  refine Yields.then fun rest => ?_
  split_ifs
  · split
    · exact fault
    · next o ho =>
      intro s a s' hm r ha hnone
      simp only [returns_bind, returns_get, returns_set] at hm
      obtain ⟨_, _, ⟨rfl, rfl⟩, _, _, rfl, hm⟩ := hm
      split at hm
      · obtain ⟨rfl, -⟩ := returns_pure.mp hm
        cases ha
      · next obj hobj =>
        obtain ⟨_, _, -, rfl, -⟩ := hm
        cases ha
        exact absurd hnone (h.duplicate _ _ _ obj hobj)
  · split
    · exact Yields.pure (by simp)
    · next o ho =>
      split_ifs
      · intro s a s' hm r ha hnone
        simp only [returns_bind, returns_get, returns_set] at hm
        obtain ⟨_, _, ⟨rfl, rfl⟩, _, _, rfl, hm⟩ := hm
        split at hm
        · obtain ⟨rfl, -⟩ := returns_pure.mp hm
          cases ha
        · next hreply =>
          obtain ⟨_, _, -, rfl, -⟩ := hm
          cases ha
          exact h.resolve _ _ _ _ _ _ hreply hnone
      · exact Yields.pure (by simp)

theorem yields_cachePassed_newobj (p : Plan) (l : Locals) (usedlen : ℕ) :
    Yields (cachePassed sv c p l usedlen) fun l' => l'.newobj = l.newobj := by
  rw [cachePassed]
  split
  · split_ifs
    · exact Yields.then fun _ => Yields.then fun _ => Yields.then fun _ => Yields.pure rfl
    · exact Yields.pure rfl
  · exact Yields.pure rfl

theorem yields_authenticateNew_newobj (h : Answering sv) (p : Plan) (l : Locals) (r : Reply) :
    Yields (authenticateNew sv p l r) fun a => ∀ l', a = .ok l' →
      l'.newobj = l.newobj ∨ l'.newobj ≠ none := by
  rw [authenticateNew]
  split_ifs
  · exact Yields.pure fun l' hl' => Or.inl (by cases hl'; rfl)
  · refine Yields.then fun access => ?_
    split
    · exact fault
    · refine Yields.bind (yields_authenticate h _ _) fun a ha => ?_
      cases a with
      | error e => exact yields_abort _ _ (by simp)
      | ok obj =>
        refine Yields.then fun _ => Yields.pure fun l' hl' => Or.inr ?_
        cases hl'
        exact ha obj rfl

theorem yields_cacheLink_newobj (p : Plan) (l : Locals) (newtype : ℕ) :
    Yields (cacheLink sv c p l newtype) fun l' => l'.newobj = l.newobj := by
  rw [cacheLink]
  split
  · split_ifs
    · exact Yields.then fun _ => Yields.then fun _ => Yields.pure rfl
    · exact Yields.pure rfl
  · exact Yields.pure rfl

def DefiniteLink : Except NsError (Locals × ℕ) → Prop
  | .error _ => True
  | .ok (l, _) => l.newobj ≠ none

theorem yields_followLink_newobj (hc : ∀ a, Yields (c.nsResolveComplex a) Definite) (p : Plan)
    (l : Locals) (r : Reply) : Yields (followLink sv c p l r) DefiniteLink := by
  refine Yields.then fun _ => Yields.then fun _ => ?_
  split
  · exact yields_abort _ _ trivial
  · refine Yields.then fun a => Yields.bind (hc a) fun q hq => ?_
    cases q with
    | error e => exact yields_abort _ _ trivial
    | ok q =>
      refine Yields.bind (yields_cacheLink_newobj p _ _) fun l' hl' => ?_
      refine lifted fun l'' hl'' => ?_
      obtain ⟨_, _, _, rfl⟩ := appendRest_eq hl''
      exact Yields.pure (show l'.newobj ≠ none from hl' ▸ hq)

theorem yields_restart_newobj {l : Locals} (hl : l.newobj ≠ none) (newtype : ℕ) :
    Yields (restart l newtype : Run W Turn) fun turn => DefiniteTurn (.ok turn) := by
  refine Yields.then fun _ => ?_
  split_ifs
  · exact Yields.pure hl
  · exact Yields.then fun _ => Yields.then fun _ => Yields.pure trivial

section

variable (h : Answering sv) (hc : ∀ a, Yields (c.nsResolveComplex a) Definite)

include h hc

theorem yields_accepted_newobj (p : Plan) (l : Locals) {r : Reply} (hr : r.Answers) :
    Yields (accepted sv c p l r) DefiniteTurn := by
  refine Yields.bind (yields_cachePassed_newobj p _ _) fun l₁ hl₁ => ?_
  refine lifted fun l₂ hadvance => ?_
  have hl₂ : l₂.newobj = r.obj := by
    obtain ⟨_, _, rfl⟩ := advance_eq hadvance
    exact hl₁
  by_cases hmax : maxForwards < l₂.forwardcount
  · rw [if_pos hmax]
    exact yields_abort _ _ trivial
  · rw [if_neg hmax]
    refine Yields.bind (yields_authenticateNew_newobj h p _ r) fun a ha => ?_
    cases a with
    | error e => exact Yields.pure trivial
    | ok l₃ =>
      have hobj : r.obj ≠ none → l₃.newobj ≠ none := by
        intro hsome
        rcases ha l₃ rfl with heq | hne
        · exact heq.trans hl₂ ▸ hsome
        · exact hne
      simp only
      split_ifs with hforward
      · rw [forwardOn]
        split_ifs with hpath
        · have hnew : l₃.newobj ≠ none := hobj fun hnone => (hr hnone).2 hpath
          exact Yields.bind (yields_restart_newobj hnew _) fun turn ht => Yields.pure ht
        · refine Yields.bind (yields_followLink_newobj hc p l₃ r) fun q hq => ?_
          split
          · exact Yields.pure trivial
          · exact Yields.bind (yields_restart_newobj hq _) fun turn ht => Yields.pure ht
      · have hnew : l₃.newobj ≠ none := hobj fun hnone => hforward (hr hnone).1
        exact Yields.bind (Yields.then fun _ => Yields.then fun _ => Yields.pure hnew)
          fun q hq => Yields.pure hq

theorem yields_simpleLoop_definite (p : Plan) (n : ℕ) (l : Locals) :
    Yields (simpleLoop sv c p n l) Definite := by
  induction n generalizing l with
  | zero => exact fault
  | succ n ih =>
    refine Yields.bind (yields_ask h p l) fun a ha => ?_
    cases a with
    | error e =>
      refine Yields.then fun b => ?_
      cases b with
      | error e => exact Yields.pure trivial
      | ok l => exact ih l
    | ok r =>
      refine Yields.bind (yields_accepted_newobj h hc p l (ha r rfl)) fun b hb => ?_
      cases b with
      | error e => exact Yields.pure trivial
      | ok turn =>
        cases turn with
        | done q => exact Yields.pure hb
        | again l => exact ih l

theorem yields_simple_definite (a : Request) : Yields (nsResolveSimple sv c a) Definite := by
  refine Yields.then fun _ => Yields.then fun canon => Yields.then fun b => ?_
  cases b with
  | error e => exact Yields.pure trivial
  | ok l => exact Yields.then fun _ => yields_simpleLoop_definite h hc _ _ _

theorem yields_complex_definite (a : Request) : Yields (nsResolveComplex sv c a) Definite := by
  rw [nsResolveComplex]
  generalize nsPathlen + 2 = n
  generalize Walk.mk a.pfx a.cache a.canon = w
  induction n generalizing w with
  | zero => exact fault
  | succ n ih =>
    refine Yields.bind (yields_simple_definite h hc _) fun r hr => ?_
    cases r with
    | error e => exact Yields.pure trivial
    | ok q =>
      refine Yields.then fun next => ?_
      split_ifs
      · exact Yields.pure hr
      · refine Yields.then fun b => ?_
        cases b with
        | error e => exact Yields.pure trivial
        | ok w => exact ih w

end

theorem yields_callees_definite (h : Answering sv) (n : ℕ) (a : Request) :
    Yields ((callees sv n).nsResolveComplex a) Definite := by
  induction n generalizing a with
  | zero => exact fault
  | succ n ih => exact yields_complex_definite h ih a

def DefiniteFound (r : Except NsError Found) : Prop := ∀ f, r = .ok f → f.obj ≠ none

theorem yields_attempt_definite (h : Answering sv) (n : ℕ) (input : Path) (mode access : UInt32) :
    Yields (attempt sv (callees sv n) input mode access) fun t => DefiniteFound t.result := by
  refine Yields.then fun f => ?_
  split
  · exact Yields.pure fun f hf => nomatch hf
  · refine Yields.then fun _ => Yields.then fun _ => ?_
    refine Yields.bind (yields_complex_definite h (yields_callees_definite h n) _) fun r hr => ?_
    cases r with
    | error e => exact Yields.pure fun f hf => nomatch hf
    | ok q =>
      refine Yields.pure fun f hf => ?_
      cases hf
      exact hr

theorem yields_resolvePass_definite (h : Answering sv) (n : ℕ) (input : Path)
    (mode access : UInt32) (retrycount : ℕ) :
    Yields (resolvePass sv (callees sv n) input mode access retrycount)
      fun t => DefiniteFound t.1 := by
  have hattempts : Yields (attempts sv (callees sv n) input mode access (maxRetries + 1) retrycount)
      fun t => DefiniteFound t.1.result := by
    generalize maxRetries + 1 = k
    induction k generalizing retrycount with
    | zero => exact fault
    | succ k ih =>
      refine Yields.bind (yields_attempt_definite h n _ _ _) fun t ht => ?_
      split_ifs
      · exact Yields.then fun _ => ih _
      · exact Yields.pure fun f hf => nomatch hf
      · exact Yields.pure ht
  exact Yields.bind hattempts fun t ht => Yields.then fun _ => Yields.then fun _ => Yields.pure ht

theorem yields_fully_definite (h : Answering sv) (n : ℕ) (path : List UInt8) (mode access : UInt32) :
    Yields (nsResolveFully sv (callees sv n) path mode access) DefiniteFound := by
  rw [nsResolveFully]
  split
  · exact Yields.pure fun f hf => nomatch hf
  · refine Yields.bind (yields_resolvePass_definite h n _ _ _ _) fun t ht => ?_
    obtain ⟨r, retrycount⟩ := t
    by_cases hagain : failedWith .tforwardFailure r = true ∧ mode &&& nsfTfollow ≠ 0
    · simp only [if_pos hagain]
      exact Yields.bind (yields_resolvePass_definite h n _ _ _ _) fun t ht => Yields.pure ht
    · simp only [if_neg hagain]
      exact Yields.pure ht

end MachUS.Naming
