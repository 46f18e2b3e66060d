import MachUS.Naming.SimpleBalance

namespace MachUS.Naming

open Program Attempt Holds Yields

variable {W : Type} {sv : Servers W} {c : Callees W} {R : StdName W → StdName W → Prop}

theorem request_idle (a : Request) (canon : Buf) : (a.locals canon).Idle := Or.inl rfl

theorem request_own (a : Request) (canon : Buf) :
    (a.locals canon).own = held a.pfx.obj + held a.pfx.obj := (request_idle a canon).own

theorem holds_locate (h : Respects sv c R) (a : Request) (canon : Buf) :
    Holds R (a.locals canon).own (locate sv c a (a.locals canon)) ownLocals := by
  rw [locate]
  split_ifs with hnone
  · have hown : (a.locals canon).own = 0 := by rw [request_own, hnone, held_none, add_zero]
    rw [hown]
    refine Holds.bind h.stable (Holds.orFault h.stable _) fun path => ?_
    refine Holds.bind h.stable (holds_find h _) fun f => ?_
    split
    · next e _ =>
      refine (holds_abort h.stable { a.locals canon with curobj := f.obj } e rfl).of_eq ?_
        fun _ => rfl
      simp [Locals.own, Request.locals, hnone]
    · refine Holds.bind h.stable (Holds.orFault h.stable _) fun canon' => ?_
      refine Holds.bind h.stable ((holds_setCurPrefix h.stable _).of_eq ?_ fun _ => rfl)
        fun l => Holds.pure h.stable rfl
      simp [Locals.own, Request.locals, hnone]
  · exact Holds.pure h.stable rfl

theorem yields_locate (a : Request) (canon : Buf) :
    Yields (locate sv c a (a.locals canon)) IdleLocals := by
  rw [locate]
  split_ifs
  · refine Yields.then fun path => Yields.then fun f => ?_
    split
    · exact yields_abort _ _ trivial
    · exact Yields.then fun canon => bind (yields_setCurPrefix rfl) fun l hl => pure hl
  · exact pure (request_idle a canon)

theorem prepare_objs {a : Request} {l l' : Locals} {p : Plan} (h : prepare a l = .ok (p, l')) :
    l'.own = l.own ∧ (l.Idle → l'.Idle) := by
  simp only [prepare, Outcome.bind_eq_ok] at h
  obtain ⟨l₁, hskip, ⟨maxinputpos, maxcanonpos, canon⟩, -, canon', -, first, -, next, -, h⟩ := h
  have hstep : l₁.own = l.own ∧ (l.Idle → l₁.Idle) := by
    simp only [skipInitialSlash, Outcome.bind_eq_ok] at hskip
    obtain ⟨b, -, hskip⟩ := hskip
    split_ifs at hskip
    · simp only [Outcome.bind_eq_ok] at hskip
      obtain ⟨⟨canon, pos⟩, -, hskip⟩ := hskip
      cases hskip
      exact ⟨rfl, id⟩
    · cases hskip
      exact ⟨rfl, id⟩
  cases Except.ok.inj h
  exact hstep

theorem holds_simple (h : Respects sv c R) (a : Request) :
    Holds R (held a.pfx.obj) (nsResolveSimple sv c a) owned := by
  refine Holds.bind h.stable (Holds.reference h.stable _) fun _ => ?_
  refine Holds.bind h.stable (Holds.orFault h.stable _) fun canon => ?_
  rw [← request_own a canon]
  refine bind_yields h.stable (holds_locate h a canon) (yields_locate a canon) fun b hb => ?_
  cases b with
  | error e => exact Holds.pure h.stable rfl
  | ok l =>
    refine lifted h.stable fun pl hpl => ?_
    obtain ⟨p, l'⟩ := pl
    obtain ⟨hown, hidle⟩ := prepare_objs hpl
    rw [show ownLocals (.ok l) = l'.own from hown.symm]
    exact holds_simpleLoop h p _ (hidle hb)

theorem holds_cacheDotdots (h : Respects sv c R) (input : Buf) (r : Resolved) (inputpos : ℕ)
    (canon : Buf) {x : Obj → ℤ} :
    Holds R x (cacheDotdots sv c input r inputpos canon) fun _ => x := by
  rw [cacheDotdots]
  split
  · split_ifs
    · exact Holds.bind h.stable (holds_save h _ _ _ _ _ _ _) fun _ => Holds.pure h.stable rfl
    · exact Holds.pure h.stable rfl
  · exact Holds.pure h.stable rfl

theorem holds_cacheHere (h : Respects sv c R) (input : Buf) (w : Walk) :
    Holds R w.own (cacheHere sv c input w) Walk.own := by
  rw [cacheHere]
  split
  · split_ifs
    · exact Holds.bind h.stable (holds_save h _ _ _ _ _ _ _) fun _ => Holds.pure h.stable rfl
    · exact Holds.pure h.stable rfl
  · exact Holds.pure h.stable rfl

theorem holds_lastKnown (hR : Stable R) (w : Walk) (canonpos : ℕ) :
    Holds R w.own (lastKnown w canonpos : Run W Walk) Walk.own := by
  rw [lastKnown]
  split_ifs
  · refine Holds.bind hR (Holds.dereference hR _) fun _ => Holds.pure hR ?_
    simp [Walk.own]
  · exact Holds.pure hR rfl

section

variable (h : Respects sv c R)

include h

theorem holds_resolvePrefix (input : Buf) (w : Walk) (canonpos : ℕ) :
    Holds R w.own (resolvePrefix sv c input w canonpos) ownWalk := by
  refine Holds.bind h.stable (holds_lastKnown h.stable w canonpos) fun w => ?_
  refine Holds.bind h.stable (Holds.orFault h.stable _) fun newpath => ?_
  refine Holds.bind h.stable (holds_simple h _) fun r => ?_
  cases r with
  | error e => exact Holds.pure h.stable rfl
  | ok q =>
    refine Holds.bind h.stable (Holds.dereference h.stable _) fun _ => ?_
    refine Holds.bind h.stable ((holds_cacheHere h input _).of_eq ?_ fun _ => rfl)
      fun w => Holds.pure h.stable rfl
    simp only [Walk.own, owned]
    abel

theorem holds_goBack (input : Buf) (r : Resolved) :
    Holds R (held r.pfx.obj + held r.obj) (goBack sv c input r) ownWalk := by
  refine Holds.bind h.stable (Holds.orFault h.stable _) fun pos => ?_
  refine Holds.bind h.stable (Holds.orFault h.stable _) fun canon => ?_
  refine Holds.bind h.stable (holds_cacheDotdots h _ _ _ _) fun cache => ?_
  by_cases hstay : pos.2 = r.canonpos
  · rw [if_pos hstay]
    refine Holds.bind h.stable (Holds.dereference h.stable _) fun _ => Holds.pure h.stable ?_
    abel
  · rw [if_neg hstay]
    refine Holds.bind h.stable (Holds.dereference h.stable _) fun _ => ?_
    rw [add_sub_cancel_right]
    by_cases hknown : pos.2 = r.pfx.canonpos
    · rw [if_pos hknown]
      exact Holds.pure h.stable rfl
    · rw [if_neg hknown]
      exact holds_resolvePrefix h input _ _

theorem holds_complexLoop (a : Request) (n : ℕ) (w : Walk) :
    Holds R w.own (complexLoop sv c a n w) owned := by
  induction n generalizing w with
  | zero => exact fault _
  | succ n ih =>
    refine Holds.bind h.stable (holds_simple h _) fun r => ?_
    cases r with
    | error e => exact Holds.pure h.stable rfl
    | ok r =>
      refine Holds.bind h.stable (Holds.orFault h.stable _) fun next => ?_
      by_cases hend : next = 0
      · rw [if_pos hend]
        exact Holds.pure h.stable rfl
      · rw [if_neg hend]
        refine Holds.bind h.stable (holds_goBack h _ r) fun b => ?_
        cases b with
        | error e => exact Holds.pure h.stable rfl
        | ok w => exact ih w

theorem holds_complex (a : Request) : Holds R (held a.pfx.obj) (nsResolveComplex sv c a) owned :=
  holds_complexLoop h a _ ⟨a.pfx, a.cache, a.canon⟩

end

def ownFound : Except NsError Found → Obj → ℤ
  | .error _ => 0
  | .ok f => held f.obj

def Attempt.own (t : Attempt) : Obj → ℤ := ownFound t.result + held t.curobj + held t.pfxobj

theorem holds_attempt (h : Respects sv c R) (input : Path) (mode access : UInt32) :
    Holds R 0 (attempt sv c input mode access) own := by
  refine Holds.bind h.stable (holds_find h _) fun f => ?_
  split
  · refine Holds.pure h.stable ?_
    simp [own, ownFound]
  · refine Holds.bind h.stable (Holds.orFault h.stable _) fun canon => ?_
    refine Holds.bind h.stable (Holds.reference h.stable _) fun _ => ?_
    rw [zero_add]
    refine Holds.bind h.stable ((holds_complex h _).frame (held f.obj)) fun r => ?_
    cases r with
    | error e =>
      refine Holds.pure h.stable ?_
      simp [own, ownFound, owned]
    | ok q =>
      refine Holds.pure h.stable ?_
      simp only [own, ownFound, owned]
      abel

theorem yields_attempt (input : Path) (mode access : UInt32) :
    Yields (attempt sv c input mode access) fun t =>
      ∀ e, t.result = .error e → t.curobj = none := by
  refine Yields.then fun f => ?_
  split
  · exact pure fun _ _ => rfl
  · refine Yields.then fun canon => Yields.then fun _ => Yields.then fun r => ?_
    cases r with
    | error e => exact pure fun _ _ => rfl
    | ok q => exact pure fun _ h => nomatch h

theorem failedWith_iff {α : Type} {e : NsError} {r : Except NsError α} :
    failedWith e r = true ↔ r = .error e := by
  cases r <;> simp [failedWith]

theorem holds_attempts (h : Respects sv c R) (input : Path) (mode access : UInt32) (n retrycount : ℕ) :
    Holds R 0 (attempts sv c input mode access n retrycount) fun t => t.1.own := by
  induction n generalizing retrycount with
  | zero => exact fault _
  | succ n ih =>
    refine bind_yields h.stable (holds_attempt h _ _ _) (yields_attempt _ _ _) fun t ht => ?_
    by_cases hfail : failedWith .invalidHandle t.result = true
    · rw [if_pos hfail]
      have herror := failedWith_iff.mp hfail
      have hcur := ht _ herror
      have hown : t.own = held t.pfxobj := by simp [own, herror, hcur, ownFound]
      by_cases hmore : retrycount + 1 < maxRetries
      · rw [if_pos hmore]
        refine Holds.bind h.stable (unreleased h.stable _) fun _ => ?_
        rw [hown, sub_self]
        exact ih _
      · rw [if_neg hmore]
        refine Holds.pure h.stable ?_
        rw [hown]
        simp [own, hcur, ownFound]
    · rw [if_neg hfail]
      exact Holds.pure h.stable rfl

theorem holds_resolvePass (h : Respects sv c R) (input : Path) (mode access : UInt32)
    (retrycount : ℕ) :
    Holds R 0 (resolvePass sv c input mode access retrycount) fun r => ownFound r.1 := by
  refine Holds.bind h.stable (holds_attempts h _ _ _ _ _) fun t => ?_
  refine Holds.bind h.stable (Holds.dereference h.stable _) fun _ => ?_
  refine Holds.bind h.stable (Holds.dereference h.stable _) fun _ => Holds.pure h.stable ?_
  simp only [own]
  abel

theorem holds_fully (h : Respects sv c R) (path : List UInt8) (mode access : UInt32) :
    Holds R 0 (nsResolveFully sv c path mode access) ownFound := by
  rw [nsResolveFully]
  split
  · exact Holds.pure h.stable rfl
  · refine Holds.bind h.stable (holds_resolvePass h _ _ _ _) fun pass => ?_
    obtain ⟨r, retrycount⟩ := pass
    by_cases hagain : failedWith .tforwardFailure r = true ∧ mode &&& nsfTfollow ≠ 0
    · have hnone : ownFound r = 0 := by rw [failedWith_iff.mp hagain.1]; rfl
      simp only [if_pos hagain, hnone]
      exact Holds.bind h.stable (holds_resolvePass h _ _ _ _) fun r => Holds.pure h.stable rfl
    · simp only [if_neg hagain]
      exact Holds.pure h.stable rfl

structure TableRule (sv : Servers W) (R Q : StdName W → StdName W → Prop) (V : Option Obj → Prop) :
    Prop where
  stable : Stable R
  relax : ∀ {s s'}, R s s' → Q s s'
  trans : ∀ {s t u}, R s t → Q t u → Q s u
  find : ∀ u : SetUser W, Settles u →
    (∀ pfxpath targetpath s r s', s.Sound → Returns (u pfxpath targetpath) s r s' → Q s s') →
    ∀ path s f s', s.Sound → Returns (nsFindPrefix sv u path) s f s' → R s s'
  invalidate : ∀ u : SetUser W, Settles u →
    (∀ pfxpath targetpath s r s', s.Sound → Returns (u pfxpath targetpath) s r s' → Q s s') →
    ∀ path s r s', s.Sound → Returns (nsInvalidatePrefix u path) s r s' → R s s'
  cache : ∀ pfxpath pfxobj objtype canonpath s r s', s.Sound →
    Returns (nsSetCachePrefix pfxpath pfxobj objtype canonpath) s r s' → R s s'
  enter : ∀ pfxpath pfxobj pfxtype canon s r s', s.Sound → V pfxobj →
    Returns (enterUserPrefix pfxpath pfxobj pfxtype canon) s r s' → Q s s'
  found : ∀ n targetpath, Yields (nsResolveFully sv (callees sv n) targetpath nsfFollowAll nsrLookup)
    fun r => ∀ f, r = .ok f → V f.obj

variable {Q : StdName W → StdName W → Prop} {V : Option Obj → Prop}

theorem setUser_step (hrule : TableRule sv R Q V) {n : ℕ} (h : Respects sv (callees sv n) R)
    {pfxpath targetpath : List UInt8} {s s' : StdName W} {r : Except NsError Unit} (hs : s.Sound)
    (hm : Returns (nsSetUserPrefix sv (callees sv n) pfxpath targetpath) s r s') :
    Settled s s' 0 ∧ Q s s' := by
  simp only [nsSetUserPrefix, returns_bind] at hm
  obtain ⟨f, t, hfully, hm⟩ := hm
  obtain ⟨ht, hr, hl⟩ := holds_fully h targetpath _ _ s f t hs hfully
  have hV := hrule.found n targetpath _ _ _ hfully
  cases f with
  | error e =>
    obtain ⟨rfl, rfl⟩ := returns_pure.mp hm
    exact ⟨⟨ht, by simpa [ownFound] using hl⟩, hrule.relax hr⟩
  | ok f =>
    simp only [returns_bind, orFault, returns_lift] at hm
    obtain ⟨canon, t', ⟨-, rfl⟩, hm⟩ := hm
    have hset := (user_entered ht hm).settled ht
    have hq := hrule.enter _ _ _ _ _ _ _ ht (hV f rfl) hm
    refine ⟨⟨hset.sound, ?_⟩, hrule.trans hr hq⟩
    rw [add_zero] at hl
    rw [hset.ledger, hl]
    simp [ownFound]

theorem respects_callees (h : TableRule sv R Q V) (n : ℕ) :
    Respects sv (callees sv n) R ∧ ∀ pfxpath targetpath s r s', s.Sound →
      Returns ((callees sv n).nsSetUserPrefix pfxpath targetpath) s r s' → Q s s' := by
  induction n with
  | zero =>
    have hnone {α : Type} {P : Prop} {s s' : StdName W} {a : α}
        (hm : Returns (orFault (.error .noFuel)) s a s') : P := nomatch (returns_lift.mp hm).1
    have hsettles : Settles (callees sv 0).nsSetUserPrefix := fun _ _ _ _ _ _ hm => hnone hm
    exact ⟨⟨h.stable, hsettles, h.find _ hsettles fun _ _ _ _ _ _ hm => hnone hm,
      h.invalidate _ hsettles fun _ _ _ _ _ _ hm => hnone hm, h.cache, fun _ => fault _⟩,
      fun _ _ _ _ _ _ hm => hnone hm⟩
  | succ n ih =>
    have hstep : ∀ pfxpath targetpath s r s', s.Sound →
        Returns (nsSetUserPrefix sv (callees sv n) pfxpath targetpath) s r s' →
        Settled s s' 0 ∧ Q s s' := fun _ _ _ _ _ hs hm => setUser_step h ih.1 hs hm
    have hsettles : Settles (callees sv (n + 1)).nsSetUserPrefix :=
      fun _ _ _ _ _ hs hm => (hstep _ _ _ _ _ hs hm).1
    have hrel := fun p t s r s' hs hm => (hstep p t s r s' hs hm).2
    exact ⟨⟨h.stable, hsettles, h.find _ hsettles hrel, h.invalidate _ hsettles hrel, h.cache,
      holds_complex ih.1⟩, hrel⟩

end MachUS.Naming

namespace MachUS.Naming

open Program StdName Happening List

variable {W : Type} {sv : Servers W} {s s' : StdName W}

def Continues (s s' : StdName W) : Prop := s.log <+: s'.log

namespace StdName

@[simp] theorem store_log (s : StdName W) (e : PfxEntry) (slot : Slot) :
    (s.store e slot).log = s.log := by
  cases slot <;> rfl

@[simp] theorem replace_log (s : StdName W) (slot : Slot) (e e' : PfxEntry) :
    (s.replace slot e e').log = s.log := by
  rw [replace, store_log, count_log]

@[simp] theorem note_log (s : StdName W) (x : Happening) : (s.note x).log = s.log ++ [x] := rfl

@[simp] theorem advance_log (s : StdName W) (world : W) : (s.advance world).log = s.log := rfl

end StdName

theorem Entered.log {path : Path} {okcreate : Bool} {r : Option Slot}
    (h : Entered s path okcreate r s') : s'.log = s.log := by
  cases h with
  | null hpath he => rfl
  | newNull hpath he => rfl
  | found hpath hi he hserves => rfl
  | evicted hpath hcreate hi hnone hspare => simp [evict]
  | missing hpath hnone => rfl

theorem Flushed.log (h : Flushed s s') : s'.log = s.log := by
  induction h with
  | refl => rfl
  | step h hi he hcache ih => rw [replace_log, ih]

theorem Cached.continues {pfxpath canonpath : List UInt8} {pfxobj : Option Obj} {objtype : ℕ}
    {r : Except NsError Unit} (h : Cached s pfxpath pfxobj objtype canonpath r s') :
    Continues s s' := by
  cases h with
  | overflow hget =>
    rw [Continues, hget.log]
  | @stored t slot e hget he =>
    simp [Continues, notes, hget.log]

theorem UserEntered.log {pfxpath : List UInt8} {pfxobj : Option Obj} {pfxtype : ℕ} {canon : Path}
    {r : Except NsError Unit} (h : UserEntered s pfxpath pfxobj pfxtype canon r s') :
    s'.log = s.log := by
  cases h with
  | overflow hget => rw [count_log, hget.log]
  | stored hget he hflush => rw [hflush.log, replace_log, hget.log]

section Setting

variable {u : SetUser W}
  (hu : ∀ pfxpath targetpath s r s', s.Sound → Returns (u pfxpath targetpath) s r s' →
    Continues s s')
include hu

theorem Invalidated.continues {path : Path} {r : Except NsError Unit}
    (h : Invalidated u s path r s') (hs : s.Sound) : Continues s s' := by
  cases h with
  | missing hget => rw [Continues, hget.log]
  | left hget he htype => rw [Continues, hget.log]
  | dropped hget he htype => rw [Continues, replace_log, hget.log]
  | @reevaluated t s' slot e r hget he htype hset =>
    have hset := hu _ _ _ _ _ (((hget.sound hs).note _).replace _ _ _) hset
    rw [Continues, replace_log, note_log, hget.log] at hset
    exact (prefix_append _ _).trans hset

theorem Renewed.continues {slot : Slot} {e : PfxEntry} (h : Renewed sv u s slot e s')
    (hs : s.Sound) : Continues s s' := by
  have hn := hs.note (.renewed e.prefixPath)
  have hnote : s.log <+: (s.note (.renewed e.prefixPath)).log := prefix_append _ _
  cases h with
  | fresh hauth => simp [Continues]
  | system htype he' => simp [Continues]
  | recovered htype hinv =>
    have hi := hinv.continues hu (hn.advance _)
    exact hnote.trans hi
  | given htype hinv he' =>
    have hi := hinv.continues hu (hn.advance _)
    rw [Continues, replace_log]
    exact hnote.trans hi

theorem Searched.continues {path : Path} {f : FoundPrefix} (h : Searched sv u s path f s')
    (hs : s.Sound) : Continues s s' := by
  cases h with
  | none => exact prefix_refl _
  | some hbest he he' ht =>
    rw [Continues, count_log]
    rcases ht with rfl | ⟨-, -, hrenewed⟩
    · exact prefix_refl _
    · exact hrenewed.continues hu hs

end Setting

theorem continues_rule : TableRule sv Continues Continues fun _ => True where
  stable := ⟨fun _ => prefix_refl _, IsPrefix.trans, fun _ _ _ _ h => h⟩
  relax := id
  trans := IsPrefix.trans
  find := fun _ _ hu _ _ _ _ hs hm => (searched hs hm).continues hu hs
  invalidate := fun _ _ hu _ _ _ _ hs hm => (invalidated hs hm).continues hu hs
  cache := fun _ _ _ _ _ _ _ hs hm => (cached hs hm).continues
  enter := fun _ _ _ _ _ _ _ hs _ hm => by rw [Continues, (user_entered hs hm).log]
  found := fun _ _ _ _ _ _ _ _ => trivial

def happened (s s' : StdName W) : List Happening := s'.log.drop s.log.length

def Balanced (s : StdName W) (r : Except NsError Found) (s' : StdName W) : Prop :=
  ∀ o, s'.refs o - s.refs o = ownFound r o + (s'.tableRefs o - s.tableRefs o)

theorem sum_loss (l : List Happening) (o : Obj) :
    (l.map loss).sum o = l.count (.unreleased o) - l.count (.releasedAgain o) := by
  induction l with
  | nil => rfl
  | cons x l ih =>
    rw [map_cons, sum_cons, Pi.add_apply, ih]
    cases x with
    | unreleased y =>
      by_cases hy : y = o
      · subst hy
        simp [loss, held]
        omega
      · simp [loss, held, hy]
    | releasedAgain y =>
      by_cases hy : y = o
      · subst hy
        simp [loss, held]
        omega
      · simp [loss, held, hy]
    | renewed path => simp [loss]
    | reevaluated path => simp [loss]
    | demoted path => simp [loss]
    | nullCached path => simp [loss]

theorem Continues.lost (h : Continues s s') (o : Obj) :
    s'.lost o = s.lost o + ((happened s s').count (.unreleased o) -
      (happened s s').count (.releasedAgain o)) := by
  obtain ⟨l, hl⟩ := h
  have hhappened : happened s s' = l := by simp [happened, ← hl]
  rw [hhappened, ← sum_loss, StdName.lost, ← hl, map_append, sum_append]
  rfl

def rootedAt (reply : Reply) : Servers Unit where
  isName := fun _ => true
  resolve := fun _ _ _ _ _ => (.ok reply, ())
  authenticate := fun _ o _ _ => (.ok (some o), ())
  duplicate := fun _ o _ => (.ok (some o), ())

def atRoot : StdName Unit :=
  { create () with
    nullPrefix := some ⟨.system, [], some 0, 1, [slash], 0⟩
    refs := fun o => if o = 0 then 1 else 0 }

def mountPoint : Reply := ⟨some 1, 3, .empty nsPathlen_pos, 1, nsaForward⟩

def plainFile : Reply := ⟨some 1, 2, .empty nsPathlen_pos, 1, 0⟩

end MachUS.Naming
