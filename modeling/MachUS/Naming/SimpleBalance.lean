import MachUS.Naming.Resolve
import MachUS.Naming.TableOperations

namespace MachUS.Naming

open Program Holds Locals Except Yields

variable {W : Type}

def owned : Except NsError Resolved → Obj → ℤ
  | .error _ => 0
  | .ok q => held q.pfx.obj + held q.obj

structure Respects (sv : Servers W) (c : Callees W) (R : StdName W → StdName W → Prop) : Prop where
  stable : Stable R
  settles : Settles c.nsSetUserPrefix
  find : ∀ path s f s', s.Sound → Returns (nsFindPrefix sv c.nsSetUserPrefix path) s f s' → R s s'
  invalidate : ∀ path s r s', s.Sound →
    Returns (nsInvalidatePrefix c.nsSetUserPrefix path) s r s' → R s s'
  cache : ∀ pfxpath pfxobj objtype canonpath s r s', s.Sound →
    Returns (nsSetCachePrefix pfxpath pfxobj objtype canonpath) s r s' → R s s'
  complex : ∀ a, Holds R (held a.pfx.obj) (c.nsResolveComplex a) owned

def Locals.own (l : Locals) : Obj → ℤ :=
  held l.curobj + (if l.aliased then 0 else held l.newobj) + held l.pfx.obj

def ownLocals : Except NsError Locals → Obj → ℤ
  | .error _ => 0
  | .ok l => l.own

def Turn.own : Turn → Obj → ℤ
  | .done q => held q.pfx.obj + held q.obj
  | .again l => l.own

def ownTurn : Except NsError Turn → Obj → ℤ
  | .error _ => 0
  | .ok turn => turn.own

def Walk.own (w : Walk) : Obj → ℤ := held w.cur.obj

def ownWalk : Except NsError Walk → Obj → ℤ
  | .error _ => 0
  | .ok w => w.own

section Tables

variable {sv : Servers W} {c : Callees W} {R : StdName W → StdName W → Prop} {x : Obj → ℤ}

theorem Settled.holds {s s' : StdName W} {y : Obj → ℤ} (h : Settled s s' y) (x : Obj → ℤ) :
    s'.ledger + x = s.ledger + (x + y) := by
  rw [h.ledger]
  abel

theorem holds_find (h : Respects sv c R) (path : Path) :
    Holds R x (nsFindPrefix sv c.nsSetUserPrefix path) fun f => x + held f.obj := by
  intro s f s' hs hm
  have hset := (searched hs hm).settled h.settles hs
  exact ⟨hset.sound, h.find path s f s' hs hm, hset.holds x⟩

theorem holds_invalidate (h : Respects sv c R) (path : Path) :
    Holds R x (nsInvalidatePrefix c.nsSetUserPrefix path) fun _ => x := by
  intro s r s' hs hm
  have hset := (invalidated hs hm).settled h.settles hs
  exact ⟨hset.sound, h.invalidate path s r s' hs hm, by simpa using hset.holds x⟩

theorem holds_cache (h : Respects sv c R) (pfxpath : List UInt8) (pfxobj : Option Obj) (objtype : ℕ)
    (canonpath : List UInt8) :
    Holds R x (nsSetCachePrefix pfxpath pfxobj objtype canonpath : Run W _) fun _ => x := by
  intro s r s' hs hm
  have hset := (cached hs hm).settled hs
  exact ⟨hset.sound, h.cache _ _ _ _ s r s' hs hm, by simpa using hset.holds x⟩

theorem holds_authenticate (hR : Stable R) (o : Obj) (access : UInt32) :
    Holds R x (authenticate sv o access) fun r => x + held (returned r) := by
  intro s r s' hs hm
  obtain ⟨-, world, rfl⟩ := returns_authenticate hm
  refine ⟨(hs.advance world).count _ _,
    hR.quiet (by simp [StdName.advance]) (by simp [StdName.advance]) (by simp [StdName.advance])
      (by simp [StdName.advance]) (by simp [StdName.advance]), ?_⟩
  rw [StdName.count_ledger, StdName.advance_ledger, one_zsmul, add_assoc, add_comm (held _)]

theorem holds_checkLength (hR : Stable R) (path : Path) :
    Holds R x (checkLength path : Run W Unit) fun _ => x := Holds.orFault hR _

theorem holds_save (h : Respects sv c R) (input : Buf) (inpos : ℕ) (canon : Buf) (canpos : ℕ)
    (curobj cobj : Option Obj) (ctype : ℕ) :
    Holds R x (saveCachePrefix sv c input inpos canon canpos curobj cobj ctype) fun _ => x := by
  refine Holds.bind h.stable (Holds.orFault h.stable _) fun ipath => ?_
  refine Holds.bind h.stable (Holds.orFault h.stable _) fun cpath => ?_
  refine Holds.bind h.stable (holds_checkLength h.stable _) fun _ => ?_
  refine Holds.bind h.stable (holds_checkLength h.stable _) fun _ => ?_
  split_ifs
  · exact Holds.pure h.stable rfl
  · refine Holds.bind h.stable (holds_find h _) fun t => ?_
    refine Holds.bind h.stable (unreleased h.stable _) fun _ => ?_
    rw [add_sub_cancel_right]
    split_ifs
    · exact Holds.bind h.stable (holds_cache h _ _ _ _) fun _ => Holds.pure h.stable rfl
    · exact Holds.pure h.stable rfl

end Tables

section Steps

variable {sv : Servers W} {c : Callees W} {R : StdName W → StdName W → Prop}

theorem holds_abort (hR : Stable R) (l : Locals) (e : NsError) {α : Type}
    {after : Except NsError α → Obj → ℤ} (hafter : after (.error e) = 0) :
    Holds R l.own (abort l e : Run W (Except NsError α)) after := by
  refine Holds.bind hR (Holds.dereference hR _) fun _ => ?_
  refine Holds.bind hR (Holds.dereference hR _) fun _ => ?_
  refine Holds.bind hR (Holds.releasedAgain hR _) fun _ => ?_
  refine Holds.bind hR (Holds.dereference hR _) fun _ => ?_
  refine Holds.pure hR ?_
  rw [hafter, Locals.own]
  cases l.aliased
  · simp only [Bool.false_eq_true, if_false, held_none]
    abel
  · simp only [if_true]
    abel

theorem holds_setCurPrefix (hR : Stable R) (l : Locals) :
    Holds R l.own (setCurPrefix l : Run W Locals) Locals.own := by
  refine Holds.bind hR (Holds.dereference hR _) fun _ => ?_
  refine Holds.bind hR (Holds.reference hR _) fun _ => Holds.pure hR ?_
  simp only [Locals.own]
  abel

theorem holds_clearCurPrefix (h : Respects sv c R) (input : Buf) (l : Locals) :
    Holds R l.own (clearCurPrefix c input l) Locals.own := by
  rw [clearCurPrefix]
  split_ifs
  · refine Holds.bind h.stable (Holds.orFault h.stable _) fun path => ?_
    refine Holds.bind h.stable (holds_invalidate h _) fun _ => ?_
    refine Holds.bind h.stable (Holds.dereference h.stable _) fun _ => Holds.pure h.stable ?_
    simp only [Locals.own, held_none]
    abel
  · exact Holds.pure h.stable rfl

def answered : Except NsError Reply → Option Obj
  | .error _ => none
  | .ok r => r.obj

variable {x : Obj → ℤ}

theorem Holds.advance {α : Type} (hR : Stable R) {f : StdName W → W}
    {k : StdName W → Run W α} {after : α → Obj → ℤ} (hk : ∀ s, Holds R x (k s) after) :
    Holds R x (do let s ← get; set { s with world := f s }; k s) after := by
  intro s a s' hs hm
  simp only [returns_bind, returns_get, returns_set] at hm
  obtain ⟨_, _, ⟨rfl, rfl⟩, _, _, rfl, hm⟩ := hm
  obtain ⟨hs', hr, hl⟩ := hk s (s.advance (f s)) a s' (hs.advance _) hm
  have hquiet : R s (s.advance (f s)) := hR.quiet rfl rfl rfl rfl (List.prefix_refl _)
  exact ⟨hs', hR.trans hquiet hr, hl⟩

theorem holds_ask (hR : Stable R) (p : Plan) (l : Locals) :
    Holds R x (ask sv p l) fun r => x + held (answered r) := by
  refine Holds.bind hR (Holds.orFault hR _) fun rest => ?_
  split_ifs
  · cases l.curobj with
    | none => exact Holds.fault _
    | some o =>
      refine Holds.advance hR fun s => ?_
      split
      · exact Holds.pure hR (by simp [answered])
      · exact Holds.bind hR (Holds.reference hR _) fun _ => Holds.pure hR rfl
  · cases l.curobj with
    | none => exact Holds.pure hR (by simp [answered])
    | some o =>
      simp only
      split_ifs
      · refine Holds.advance hR fun s => ?_
        split
        · exact Holds.pure hR (by simp [answered])
        · exact Holds.bind hR (Holds.reference hR _) fun _ => Holds.pure hR rfl
      · exact Holds.pure hR (by simp [answered])

def Locals.Idle (l : Locals) : Prop := l.newobj = none ∨ l.aliased = true

variable {l : Locals}

theorem Locals.Idle.own (h : l.Idle) : l.own = held l.curobj + held l.pfx.obj := by
  rcases h with h | h
  · simp [Locals.own, h]
  · simp [Locals.own, h]

theorem yields_clearCurPrefix (input : Buf) (h : l.Idle) :
    Yields (clearCurPrefix c input l) Idle := by
  rw [clearCurPrefix]
  split_ifs
  · exact Yields.then fun _ => Yields.then fun _ => Yields.then fun _ => Yields.pure h
  · exact Yields.pure h

theorem holds_askAgain (h : Respects sv c R) (p : Plan) (hl : l.Idle) :
    Holds R l.own (askAgain sv c p l) ownLocals := by
  refine bind_yields h.stable (holds_clearCurPrefix h _ _) (yields_clearCurPrefix _ hl)
    fun l hl => ?_
  split
  · exact Holds.fault _
  · next o ho =>
    refine Holds.bind h.stable (holds_authenticate h.stable o _) fun r => ?_
    cases r with
    | error e => exact (holds_abort h.stable l e rfl).of_eq (by simp [returned]) fun _ => rfl
    | ok obj =>
      refine Holds.bind h.stable (Holds.dereference h.stable _) fun _ => Holds.pure h.stable ?_
      rw [hl.own]
      simp only [Locals.own, ownLocals, returned, if_true]
      abel

def IdleLocals : Except NsError Locals → Prop
  | .error _ => True
  | .ok l => l.Idle

theorem yields_abort (l : Locals) (e : NsError) {α : Type} {P : Except NsError α → Prop}
    (h : P (.error e)) : Yields (abort l e : Run W (Except NsError α)) P :=
  Yields.then fun _ => Yields.then fun _ => Yields.then fun _ => Yields.then fun _ => Yields.pure h

theorem yields_askAgain (p : Plan) (l : Locals) : Yields (askAgain sv c p l) IdleLocals := by
  refine Yields.then fun l => ?_
  split
  · exact fault
  · refine Yields.then fun r => ?_
    cases r with
    | error e => exact yields_abort l e trivial
    | ok obj => exact Yields.then fun _ => Yields.pure (Or.inr rfl)

theorem refused_eq (p : Plan) (l : Locals) (e : NsError) :
    refused sv c p l e = askAgain sv c p { l with retrycount := l.retrycount + 1 } ∨
      (∃ e', refused sv c p l e = clearCurPrefix c p.input l >>= fun l => abort l e') ∨
      ∃ e', refused sv c p l e = abort l e' := by
  cases e
  case notAuthenticated =>
    rw [refused]
    split_ifs
    · exact Or.inr (Or.inr ⟨_, rfl⟩)
    · exact Or.inl rfl
  case sendInvalidDest => exact Or.inr (Or.inl ⟨_, rfl⟩)
  case invalidHandle => exact Or.inr (Or.inl ⟨_, rfl⟩)
  all_goals exact Or.inr (Or.inr ⟨_, rfl⟩)

theorem holds_refused (h : Respects sv c R) (p : Plan) (hl : l.Idle) (e : NsError) :
    Holds R l.own (refused sv c p l e) ownLocals := by
  rcases refused_eq p l e with heq | ⟨e', heq⟩ | ⟨e', heq⟩
  · rw [heq]
    exact holds_askAgain h p (show Idle { l with retrycount := _ } from hl)
  · rw [heq]
    exact Holds.bind h.stable (holds_clearCurPrefix h _ _) fun l => holds_abort h.stable l _ rfl
  · rw [heq]
    exact holds_abort h.stable l _ rfl

theorem yields_refused (p : Plan) (l : Locals) (e : NsError) :
    Yields (refused sv c p l e) IdleLocals := by
  rcases refused_eq p l e with heq | ⟨e', heq⟩ | ⟨e', heq⟩
  · rw [heq]
    exact yields_askAgain p _
  · rw [heq]
    exact Yields.then fun l => yields_abort l e' trivial
  · rw [heq]
    exact yields_abort l e' trivial

theorem holds_cachePassed (h : Respects sv c R) (p : Plan) (l : Locals) (usedlen : ℕ) :
    Holds R l.own (cachePassed sv c p l usedlen) Locals.own := by
  rw [cachePassed]
  split
  · split_ifs
    · refine Holds.bind h.stable (Holds.orFault h.stable _) fun inpos => ?_
      refine Holds.bind h.stable (Holds.orFault h.stable _) fun canpos => ?_
      exact Holds.bind h.stable (holds_save h _ _ _ _ _ _ _) fun _ => Holds.pure h.stable rfl
    · exact Holds.pure h.stable rfl
  · exact Holds.pure h.stable rfl

theorem yields_cachePassed (p : Plan) (hl : l.aliased = false) (usedlen : ℕ) :
    Yields (cachePassed sv c p l usedlen) fun l => l.aliased = false := by
  rw [cachePassed]
  split
  · split_ifs
    · exact Yields.then fun _ => Yields.then fun _ => Yields.then fun _ => Yields.pure hl
    · exact Yields.pure hl
  · exact Yields.pure hl

theorem advance_eq {p : Plan} {l l' : Locals} {r : Reply} (h : advance p l r = .ok l') :
    ∃ newinputpos newcanonpos,
      l' = { l with newinputpos := newinputpos, newcanonpos := newcanonpos } := by
  rw [advance] at h
  split at h
  · simp only [Outcome.bind_eq_ok] at h
    obtain ⟨b, -, h⟩ := h
    split_ifs at h
    · exact ⟨_, _, (ok.inj h).symm⟩
    · exact ⟨_, _, (ok.inj h).symm⟩
  · exact ⟨_, _, (ok.inj h).symm⟩

theorem Holds.lifted {α β : Type} (hR : Stable R) {y : Except Fault α}
    {k : α → Run W β} {after : β → Obj → ℤ} (hk : ∀ a, y = .ok a → Holds R x (k a) after) :
    Holds R x (Naming.orFault y >>= k) after :=
  bind_yields hR (Holds.orFault hR y) (fun _ _ _ h => show y = .ok _ from (returns_lift.mp h).1) hk

theorem holds_authenticateNew (h : Respects sv c R) (p : Plan)
    (hl : l.aliased = false) (r : Reply) :
    Holds R l.own (authenticateNew sv p l r) ownLocals := by
  rw [authenticateNew]
  split_ifs
  · exact Holds.pure h.stable rfl
  · refine Holds.bind h.stable (Holds.orFault h.stable _) fun access => ?_
    split
    · exact Holds.fault _
    · next o ho =>
      refine Holds.bind h.stable (holds_authenticate h.stable o _) fun a => ?_
      cases a with
      | error e => exact (holds_abort h.stable l e rfl).of_eq (by simp [returned]) fun _ => rfl
      | ok obj =>
        refine Holds.bind h.stable (Holds.dereference h.stable _) fun _ => Holds.pure h.stable ?_
        simp only [Locals.own, ownLocals, returned, hl, Bool.false_eq_true, if_false]
        abel

def PlainLocals : Except NsError Locals → Prop
  | .error _ => True
  | .ok l => l.aliased = false

theorem yields_authenticateNew (p : Plan) (hl : l.aliased = false) (r : Reply) :
    Yields (authenticateNew sv p l r) PlainLocals := by
  rw [authenticateNew]
  split_ifs
  · exact Yields.pure hl
  · refine Yields.then fun access => ?_
    split
    · exact fault
    · refine Yields.then fun a => ?_
      cases a with
      | error e => exact yields_abort l e trivial
      | ok obj => exact Yields.then fun _ => Yields.pure hl

section

variable (h : Respects sv c R) (p : Plan)

include h p

theorem holds_cacheReached (l : Locals) (r : Reply)
    : Holds R x (cacheReached sv c p l r) fun _ => x := by
  rw [cacheReached]
  split
  · split_ifs
    · exact Holds.bind h.stable (holds_save h _ _ _ _ _ _ _) fun _ => Holds.pure h.stable rfl
    · exact Holds.pure h.stable rfl
  · exact Holds.pure h.stable rfl

theorem holds_finish (hl : l.aliased = false) (r : Reply) :
    Holds R l.own (finish sv c p l r) fun q => held q.pfx.obj + held q.obj := by
  refine Holds.bind h.stable (holds_cacheReached h p l r) fun cache => ?_
  refine Holds.bind h.stable (unreleased h.stable _) fun _ => Holds.pure h.stable ?_
  simp only [Locals.own, resolved, hl, Bool.false_eq_true, if_false]
  abel

theorem holds_cacheLink (l : Locals) (newtype : ℕ) :
    Holds R l.own (cacheLink sv c p l newtype) Locals.own := by
  rw [cacheLink]
  split
  · split_ifs
    · refine Holds.bind h.stable (Holds.orFault h.stable _) fun inpos => ?_
      exact Holds.bind h.stable (holds_save h _ _ _ _ _ _ _) fun _ => Holds.pure h.stable rfl
    · exact Holds.pure h.stable rfl
  · exact Holds.pure h.stable rfl

end

theorem yields_cacheLink (p : Plan) (hl : l.aliased = false) (newtype : ℕ) :
    Yields (cacheLink sv c p l newtype) fun l => l.aliased = false := by
  rw [cacheLink]
  split
  · split_ifs
    · exact Yields.then fun _ => Yields.then fun _ => Yields.pure hl
    · exact Yields.pure hl
  · exact Yields.pure hl

theorem appendRest_eq {p : Plan} {l l' : Locals} {fwdCanonpos : ℕ}
    (h : appendRest p l fwdCanonpos = .ok l') :
    ∃ canon maxcanonpos canonpos, l' = { l with
      canon := canon
      maxcanonpos := maxcanonpos
      pfx := { l.pfx with canonpos := canonpos } } := by
  simp only [appendRest, Outcome.bind_eq_ok] at h
  obtain ⟨l₁, hl₁, h⟩ := h
  have hstep : ∃ canon maxcanonpos, l₁ = { l with canon := canon, maxcanonpos := maxcanonpos } := by
    rw [copyRest] at hl₁
    split_ifs at hl₁
    · simp only [Outcome.bind_eq_ok] at hl₁
      obtain ⟨rest, -, canon, -, hl₁⟩ := hl₁
      exact ⟨_, _, (ok.inj hl₁).symm⟩
    · exact ⟨_, _, (ok.inj hl₁).symm⟩
  obtain ⟨canon, maxcanonpos, rfl⟩ := hstep
  split_ifs at h
  · exact ⟨_, _, _, (ok.inj h).symm⟩
  · exact ⟨_, _, _, (ok.inj h).symm⟩

def ownLink : Except NsError (Locals × ℕ) → Obj → ℤ
  | .error _ => 0
  | .ok (l, _) => l.own

def PlainLink : Except NsError (Locals × ℕ) → Prop
  | .error _ => True
  | .ok (l, _) => l.aliased = false

theorem linkRequest_pfx {p : Plan} {path : Path} {fwdCanonpos type : ℕ} {a : Request}
    (h : linkRequest p l path fwdCanonpos type = .ok a) : a.pfx.obj = l.newobj := by
  simp only [linkRequest, Outcome.bind_eq_ok] at h
  obtain ⟨next, -, canon, -, h⟩ := h
  cases h
  rfl

theorem holds_followLink (h : Respects sv c R) (p : Plan) (hl : l.aliased = false)
    (r : Reply) : Holds R l.own (followLink sv c p l r) ownLink := by
  have hown : l.own - held l.curobj = held l.newobj + held l.pfx.obj := by
    simp only [Locals.own, hl, Bool.false_eq_true, if_false]
    abel
  refine Holds.bind h.stable (Holds.orFault h.stable _) fun fwdCanonpos => ?_
  refine Holds.bind h.stable (Holds.dereference h.stable _) fun _ => ?_
  rw [hown]
  split
  · next e _ =>
    refine (holds_abort h.stable { l with curobj := l.newobj, newobj := none } e rfl).of_eq ?_
      fun _ => rfl
    simp [Locals.own]
  · next path _ =>
    refine lifted h.stable fun a ha => ?_
    have hcomplex := (h.complex a).frame (held l.pfx.obj)
    rw [linkRequest_pfx ha] at hcomplex
    refine Holds.bind h.stable hcomplex fun q => ?_
    cases q with
    | error e =>
      refine (holds_abort h.stable { l with curobj := none, newobj := none } _ rfl).of_eq ?_
        fun _ => rfl
      simp [Locals.own, owned]
    | ok q =>
      have hstart : owned (.ok q) + held l.pfx.obj =
          Locals.own { l with
            curobj := q.pfx.obj
            curtype := q.pfx.type
            newobj := q.obj
            newcanonpos := q.canonpos
            canon := q.canon } := by
        simp [owned, Locals.own, hl]
      rw [hstart]
      refine Holds.bind h.stable (holds_cacheLink h p _ _) fun l' => ?_
      refine lifted h.stable fun l'' hl'' => ?_
      obtain ⟨_, _, _, rfl⟩ := appendRest_eq hl''
      exact Holds.pure h.stable rfl

theorem yields_followLink (p : Plan) (hl : l.aliased = false) (r : Reply) :
    Yields (followLink sv c p l r) PlainLink := by
  refine Yields.then fun _ => Yields.then fun _ => ?_
  split
  · exact yields_abort _ _ trivial
  · refine Yields.then fun a => Yields.then fun q => ?_
    cases q with
    | error e => exact yields_abort _ _ trivial
    | ok q =>
      refine bind (yields_cacheLink p (by exact hl) _) fun l' hl' => ?_
      refine lifted fun l'' hl'' => ?_
      obtain ⟨_, _, _, rfl⟩ := appendRest_eq hl''
      exact Yields.pure hl'

theorem holds_restart (hR : Stable R) (hl : l.aliased = false) (newtype : ℕ) :
    Holds R l.own (restart l newtype : Run W Turn) Turn.own := by
  have hown : l.own - held l.curobj = held l.newobj + held l.pfx.obj := by
    simp only [Locals.own, hl, Bool.false_eq_true, if_false]
    abel
  refine Holds.bind hR (Holds.dereference hR _) fun _ => ?_
  rw [hown]
  split_ifs
  · refine Holds.pure hR ?_
    rw [add_comm]
    rfl
  · refine Holds.bind hR (Holds.orFault hR _) fun canon => ?_
    refine Holds.bind hR ((holds_setCurPrefix hR _).of_eq ?_ fun _ => rfl)
      fun l' => Holds.pure hR rfl
    simp [Locals.own, hl]

def IdleTurn : Turn → Prop
  | .done _ => True
  | .again l => l.Idle

theorem yields_setCurPrefix (hl : l.newobj = none) : Yields (setCurPrefix l : Run W Locals) Idle :=
  Yields.then fun _ => Yields.then fun _ => Yields.pure (Or.inl hl)

theorem yields_restart (l : Locals) (newtype : ℕ) :
    Yields (restart l newtype : Run W Turn) IdleTurn := by
  refine Yields.then fun _ => ?_
  split_ifs
  · exact Yields.pure trivial
  · exact Yields.then fun canon => bind (yields_setCurPrefix rfl) fun l' hl' => Yields.pure hl'

theorem holds_forwardOn (h : Respects sv c R) (p : Plan) (hl : l.aliased = false)
    (r : Reply) : Holds R l.own (forwardOn sv c p l r) ownTurn := by
  rw [forwardOn]
  split_ifs
  · exact Holds.bind h.stable (holds_restart h.stable hl _) fun turn => Holds.pure h.stable rfl
  · refine bind_yields h.stable (holds_followLink h p hl r) (yields_followLink p hl r)
      fun q hq => ?_
    split
    · exact Holds.pure h.stable rfl
    · exact Holds.bind h.stable (holds_restart h.stable hq _) fun turn => Holds.pure h.stable rfl

def IdleTurns : Except NsError Turn → Prop
  | .error _ => True
  | .ok turn => IdleTurn turn

theorem yields_forwardOn (p : Plan) (l : Locals) (r : Reply) :
    Yields (forwardOn sv c p l r) IdleTurns := by
  rw [forwardOn]
  split_ifs
  · exact bind (yields_restart l _) fun turn ht => Yields.pure ht
  · refine Yields.then fun q => ?_
    split
    · exact Yields.pure trivial
    · exact bind (yields_restart _ _) fun turn ht => Yields.pure ht

theorem holds_accepted (h : Respects sv c R) (p : Plan) (hl : l.Idle) (r : Reply) :
    Holds R (l.own + held r.obj) (accepted sv c p l r) ownTurn := by
  have hstart : l.own + held r.obj = Locals.own { l with newobj := r.obj, aliased := false } := by
    rw [hl.own]
    simp only [Locals.own, Bool.false_eq_true, if_false]
    abel
  rw [hstart]
  refine bind_yields h.stable (holds_cachePassed h p _ _) (yields_cachePassed p rfl _)
    fun l₁ hl₁ => ?_
  refine lifted h.stable fun l₂ hl₂ => ?_
  have hown : l₂.own = l₁.own ∧ l₂.aliased = l₁.aliased := by
    obtain ⟨_, _, rfl⟩ := advance_eq hl₂
    exact ⟨rfl, rfl⟩
  rw [← hown.1]
  have hplain : aliased { l₂ with forwardcount := l₂.forwardcount + 1 } = false :=
    hown.2.trans hl₁
  by_cases hmax : maxForwards < l₂.forwardcount
  · rw [if_pos hmax]
    exact holds_abort h.stable l₂ _ rfl
  · rw [if_neg hmax]
    refine bind_yields h.stable (holds_authenticateNew h p hplain r)
      (yields_authenticateNew p hplain r) fun a ha => ?_
    cases a with
    | error e => exact Holds.pure h.stable rfl
    | ok l₃ =>
      split_ifs
      · exact holds_forwardOn h p ha r
      · exact Holds.bind h.stable (holds_finish h p ha r) fun q => Holds.pure h.stable rfl

theorem yields_accepted (p : Plan) (l : Locals) (r : Reply) :
    Yields (accepted sv c p l r) IdleTurns := by
  refine Yields.then fun l₁ => Yields.then fun l₂ => ?_
  by_cases hmax : maxForwards < l₂.forwardcount
  · rw [if_pos hmax]
    exact yields_abort _ _ trivial
  · rw [if_neg hmax]
    refine Yields.then fun a => ?_
    cases a with
    | error e => exact Yields.pure trivial
    | ok l₃ =>
      split_ifs
      · exact yields_forwardOn p l₃ r
      · exact Yields.then fun q => Yields.pure trivial

theorem holds_simpleLoop (h : Respects sv c R) (p : Plan) (n : ℕ) (hl : l.Idle) :
    Holds R l.own (simpleLoop sv c p n l) owned := by
  induction n generalizing l with
  | zero => exact Holds.fault _
  | succ n ih =>
    refine Holds.bind h.stable (holds_ask h.stable p l) fun a => ?_
    cases a with
    | error e =>
      simp only [answered, held_none, add_zero]
      refine bind_yields h.stable (holds_refused h p hl e) (yields_refused p l e) fun b hb => ?_
      cases b with
      | error e => exact Holds.pure h.stable rfl
      | ok l' => exact ih hb
    | ok r =>
      refine bind_yields h.stable (holds_accepted h p hl r) (yields_accepted p l r) fun b hb => ?_
      cases b with
      | error e => exact Holds.pure h.stable rfl
      | ok turn =>
        cases turn with
        | done q => exact Holds.pure h.stable rfl
        | again l' => exact ih hb

end Steps

end MachUS.Naming
