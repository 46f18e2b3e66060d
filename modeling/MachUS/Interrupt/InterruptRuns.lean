import MachUS.Interrupt.Bookkeeping

namespace MachUS.Interrupt

open Program Taskwide Transition Or

variable {self : ThreadId}

namespace Taskwide

def Known (s : Taskwide) (self : ThreadId) (h : HandlerAddr) : Prop :=
  (h ≠ 0 ∧ (s.handlers h).threadInfo ≠ 0) ∨ (s.entry self).isSome = true

end Taskwide

variable {s t : Taskwide} {h : HandlerAddr}

theorem returns_cacheInHandler {a : Addr} {u : Unit} (hret : Returns (cacheInHandler h a) s u t) :
    t.lastId = s.lastId ∧ t.lastThreadInfo = s.lastThreadInfo := by
  rw [cacheInHandler] at hret
  split_ifs at hret
  · obtain ⟨-, rfl⟩ := returns_pure.mp hret
    exact ⟨rfl, rfl⟩
  · obtain rfl := returns_modify.mp hret
    exact ⟨rfl, rfl⟩

theorem returns_getThreadInfo (hself : self ≠ 0) {fresh : Allocation} {a : Addr} (hs : s.Sound)
    (hret : Returns (intrGetThreadInfo self 0 h false fresh) s a t) :
    (h ≠ 0 ∧ a ≠ 0 ∧ a = (s.handlers h).threadInfo) ∨
      (a ≠ 0 ∧ s.entry self = some a ∧ t.lastId = self ∧ t.lastThreadInfo = a) ∨
      (a = 0 ∧ ¬s.Known self h) := by
  rw [intrGetThreadInfo] at hret
  obtain ⟨s', _, hget, hret⟩ := returns_bind.mp hret
  obtain ⟨rfl, rfl⟩ := returns_get.mp hget
  by_cases hcached : h ≠ 0 ∧ (s.handlers h).threadInfo ≠ 0
  · rw [if_pos hcached] at hret
    obtain ⟨rfl, -⟩ := returns_pure.mp hret
    exact inl ⟨hcached.1, hcached.2, rfl⟩
  rw [if_neg hcached] at hret
  simp only [if_true] at hret
  by_cases hlast : s.lastId = self
  · rw [if_pos hlast] at hret
    obtain ⟨u, t', hcache, hret⟩ := returns_bind.mp hret
    obtain ⟨rfl, rfl⟩ := returns_pure.mp hret
    obtain ⟨hid, hinfo⟩ := returns_cacheInHandler hcache
    rcases hs.coherent with ⟨hnull, -⟩ | ⟨-, hentry, -⟩
    · exact absurd (hlast.symm.trans hnull) hself
    · rw [hlast] at hentry
      exact inr (inl ⟨(hs.live self _ hentry).1, hentry, hid.trans hlast, hinfo⟩)
  · rw [if_neg hlast] at hret
    obtain ⟨table, s', hhash, hret⟩ := returns_bind.mp hret
    obtain ⟨htable, rfl⟩ := returns_hashTable hhash
    have hentry : s.entry self = table.lookup self := by rw [entry, htable, Option.bind_some]
    obtain ⟨_, s₁, hset, hret⟩ := returns_bind.mp hret
    obtain rfl := returns_modify.mp hset
    cases hlookup : table.lookup self with
    | some b =>
      rw [hlookup] at hret hentry
      obtain ⟨u, t', hcache, hret⟩ := returns_bind.mp hret
      obtain ⟨rfl, rfl⟩ := returns_pure.mp hret
      obtain ⟨hid, hinfo⟩ := returns_cacheInHandler hcache
      exact inr (inl ⟨(hs.live self _ hentry).1, hentry, hid, hinfo⟩)
    | none =>
      rw [hlookup] at hret hentry
      obtain ⟨_, s₂, hset, hret⟩ := returns_bind.mp hret
      obtain ⟨rfl, -⟩ := returns_pure.mp hret
      refine inr (inr ⟨rfl, ?_⟩)
      rintro (hknown | hknown)
      · exact hcached hknown
      · rw [hentry] at hknown
        cases hknown

theorem sound_locked (hs : s.Sound) :
    Sound { s with held := true, acquired := s.acquired + 1 } := ⟨hs.coherent, hs.live⟩

theorem closes_popHandlers (hself : self ≠ 0) (o : Outside) (a : Addr) :
    Within Closes (popHandlers self a o) := by
  refine closes_bind (within_writeInfo a _) fun _ => closes_bind (within_readInfo a) fun info => ?_
  refine Within.ite ?_ ?_
  · refine closes_bind (within_inHandlers _) fun _ => closes_look fun s => ?_
    exact closes_bind (within_writeInfo a _) fun _ => closes_unlock
  · refine closes_bind (within_inHandlers _) fun _ => ?_
    exact closes_bind (within_disableHandlerInternal o hself _) fun _ => closes_unlock

theorem returns_intrReturn (hself : self ≠ 0) {o : Outside}
    {u : Unit} (hs : s.Sound) (hret : Returns (intrReturn self h o) s u t) :
    (s.Known self h ∧ Balanced s t) ∨ (¬s.Known self h ∧ t.held = true) := by
  rw [intrReturn] at hret
  obtain ⟨_, s₁, hlock, hret⟩ := returns_bind.mp hret
  obtain ⟨hfree, rfl⟩ := returns_lock hlock
  obtain ⟨a, s₂, hget, hret⟩ := returns_bind.mp hret
  have hinside := within_getThreadInfo hself 0 h false o.fresh _ a s₂ hget
  have hspec := returns_getThreadInfo hself (sound_locked hs) hget
  by_cases ha : a = 0
  · rw [if_pos ha] at hret
    obtain ⟨-, rfl⟩ := returns_pure.mp hret
    rcases hspec with ⟨-, hne, -⟩ | ⟨hne, -⟩ | ⟨-, hunknown⟩
    · exact absurd ha hne
    · exact absurd ha hne
    · exact inr ⟨hunknown, hinside.lock.held⟩
  · rw [if_neg ha] at hret
    have hcloses := hinside.closes (closes_popHandlers hself o a s₂ u t hret)
    refine inl ⟨?_, hfree, hcloses.held, hcloses.acquired, hcloses.released,
      fun hs => hcloses.sound (sound_locked hs)⟩
    rcases hspec with ⟨hh, hne, heq⟩ | ⟨-, hentry, -⟩ | ⟨hzero, -⟩
    · exact inl ⟨hh, heq ▸ hne⟩
    · exact inr (by rw [show s.entry self = some a from hentry]; rfl)
    · exact absurd hzero ha

theorem returns_free {a : Addr} {u : Unit} (h : Returns (free a) s u t) :
    t = { s with records := Function.update s.records a none } := by
  rw [free] at h
  obtain ⟨info, s', hread, h⟩ := returns_bind.mp h
  rw [readInfo] at hread
  obtain ⟨s'', _, hget, hread⟩ := returns_bind.mp hread
  obtain ⟨rfl, rfl⟩ := returns_get.mp hget
  cases hrecord : s.records a with
  | none =>
    rw [hrecord] at hread
    cases (returns_lift.mp hread).1
  | some info' =>
    rw [hrecord] at hread
    obtain ⟨-, rfl⟩ := returns_pure.mp hread
    exact (returns_modify.mp h).symm

theorem returns_intrDestroySelf (hself : self ≠ 0) {o : Outside} {r : ℤ}
    (hs : s.Sound) (hret : Returns (intrDestroySelf self o) s r t) :
    (s.entry self = none ∧ Balanced s t) ∨ ((s.entry self).isSome = true ∧ ¬t.Coherent) := by
  rw [intrDestroySelf] at hret
  obtain ⟨_, s₁, hlock, hret⟩ := returns_bind.mp hret
  obtain ⟨hfree, rfl⟩ := returns_lock hlock
  obtain ⟨a, s₂, hget, hret⟩ := returns_bind.mp hret
  have hinside := within_getThreadInfo hself 0 0 false o.fresh _ a s₂ hget
  rcases returns_getThreadInfo hself (sound_locked hs) hget with
    ⟨hh, -⟩ | ⟨ha, hentry, hid, hinfo⟩ | ⟨ha, hunknown⟩
  · exact absurd rfl hh
  · rw [if_neg ha] at hret
    refine inr ⟨by rw [show s.entry self = some a from hentry]; rfl, ?_⟩
    obtain ⟨_, s₃, hremove, hret⟩ := returns_bind.mp hret
    rw [hashRemove] at hremove
    obtain ⟨table, s₂', hhash, hremove⟩ := returns_bind.mp hremove
    obtain ⟨-, rfl⟩ := returns_hashTable hhash
    obtain rfl := returns_modify.mp hremove
    obtain ⟨_, s₄, hfreed, hret⟩ := returns_bind.mp hret
    obtain rfl := returns_free hfreed
    obtain ⟨_, s₅, hunlock, hret⟩ := returns_bind.mp hret
    obtain rfl := returns_modify.mp hunlock
    obtain ⟨-, rfl⟩ := returns_pure.mp hret
    rintro (⟨hnull, -⟩ | ⟨-, -, hlive⟩)
    · exact hself (hid.symm.trans hnull)
    · simp [hinfo] at hlive
  · rw [if_pos ha] at hret
    have hcloses := hinside.closes (closes_done kernSuccess s₂ r t hret)
    refine inl ⟨?_, hfree, hcloses.held, hcloses.acquired, hcloses.released,
      fun hs => hcloses.sound (sound_locked hs)⟩
    by_contra hne
    exact hunknown (inr (Option.isSome_iff_ne_none.mpr hne))

theorem within_ignoring {R : Taskwide → Taskwide → Prop} {α : Type} {m : M α} (hm : Within R m) :
    Within R (ignoring m) := by
  intro s u t h
  obtain ⟨a, t', ha, h⟩ := returns_bind.mp h
  obtain ⟨-, rfl⟩ := returns_pure.mp h
  exact hm s a t' ha

namespace Taskwide

structure Kept (s : Taskwide) : Prop where
  coherent : s.Coherent
  free : s.held = false
  balanced : s.released = s.acquired

def Careful (s : Taskwide) (c : Call) : Prop :=
  match c.operation with
  | .destroySelf => s.entry c.self = none
  | .return_ h => s.Known c.self h
  | _ => True

theorem next_eq_some {c : Call} (h : s.next c = some t) : ∃ u, Returns c.run s u t := by
  rw [next] at h
  split at h
  · next u t' hrun =>
      cases h
      exact ⟨u, hrun⟩
  · cases h

theorem inside_init (s : Taskwide) :
    s.Inside { s with table := some (s.table.getD []), lastId := 0, lastThreadInfo := 0 } := by
  refine ⟨⟨rfl, rfl, rfl⟩, fun hs => ⟨inl ⟨rfl, rfl⟩, fun id a ha => hs.live id a ?_⟩⟩
  cases htable : s.table with
  | none => simp [entry, htable] at ha
  | some table => simpa [entry, htable] using ha

def Operation.Slips : Operation → Prop
  | .destroySelf => True
  | .return_ _ => True
  | _ => False

theorem returns_run {c : Call} {u : Unit} (h : Returns c.run s u t)
    (hslips : ¬Operation.Slips c.operation) : Balanced s t ∨ Inside s t := by
  obtain ⟨self, hself, operation, o⟩ := c
  cases operation with
  | destroySelf => exact absurd trivial hslips
  | return_ hand => exact absurd trivial hslips
  | init =>
    obtain rfl := returns_modify.mp h
    exact inr (inside_init s)
  | openRegion hand regionType => exact inr (within_writeHandler hand (·.region regionType) s u t h)
  | setSyncDefault installed => exact inl (balanced_setSyncDefault installed s u t h)
  | reset => exact inl (balanced_reset s u t h)
  | resetSelf => exact inl (within_ignoring (balanced_resetSelf o hself) s u t h)
  | enableHandler hand => exact inl (within_ignoring (balanced_enableHandler o hself hand) s u t h)
  | disableHandler hand => exact inl (within_ignoring (balanced_disableHandler o hself hand) s u t h)
  | exitHandler hand => exact inl (balanced_exitHandler o hself hand s u t h)
  | newRoutine => exact inl (balanced_newRoutine o hself s u t h)
  | pending hand enterHandler =>
    exact inl (within_ignoring (balanced_pending o hself hand enterHandler) s u t h)
  | deliver id deliveryType interruptType =>
    exact inl (within_ignoring (balanced_deliverInterrupt o hself id _ _) s u t h)
  | post id deliveryType interruptType error code subcode =>
    exact inl (within_ignoring (balanced_postInterrupt o hself id _ _ _ _ _) s u t h)
  | shakeOnPost shake shakeInfo => exact inl (balanced_shakeOnPost o hself shake shakeInfo s u t h)
  | clearShakeOnPost => exact inl (balanced_clearShakeOnPost o hself s u t h)

structure Good (s : Taskwide) : Prop where
  sound : s.Sound
  free : s.held = false
  balanced : s.released = s.acquired

theorem Good.kept (hs : s.Good) : s.Kept := ⟨hs.sound.coherent, hs.free, hs.balanced⟩

theorem Good.of_balanced (hs : s.Good) (h : Balanced s t) : t.Good :=
  ⟨h.sound hs.sound, h.held, by rw [h.released, h.acquired, hs.balanced]⟩

theorem Good.of_inside (hs : s.Good) (h : s.Inside t) : t.Good :=
  ⟨h.sound hs.sound, h.lock.held.trans hs.free,
    by rw [h.lock.released, h.lock.acquired, hs.balanced]⟩

theorem returns_ignoring {α : Type} {m : M α} {u : Unit}
    (h : Returns (ignoring m) s u t) : ∃ a, Returns m s a t := by
  obtain ⟨a, t', ha, h⟩ := returns_bind.mp h
  obtain ⟨-, rfl⟩ := returns_pure.mp h
  exact ⟨a, ha⟩

theorem Good.next {c : Call} (hs : s.Good) (h : s.next c = some t) :
    (s.Careful c ∧ t.Good) ∨ (¬s.Careful c ∧ ¬t.Kept) := by
  obtain ⟨u, hret⟩ := next_eq_some h
  by_cases hslips : Operation.Slips c.operation
  · obtain ⟨self, hself, operation, o⟩ := c
    cases operation with
    | destroySelf =>
      obtain ⟨r, hret⟩ := returns_ignoring hret
      rcases returns_intrDestroySelf hself hs.sound hret with ⟨hnone, hbal⟩ | ⟨hsome, hstale⟩
      · exact inl ⟨hnone, hs.of_balanced hbal⟩
      · refine inr ⟨fun hnone => ?_, fun hkept => hstale hkept.coherent⟩
        rw [show s.entry self = none from hnone] at hsome
        cases hsome
    | return_ hand =>
      rcases returns_intrReturn hself hs.sound hret with ⟨hknown, hbal⟩ | ⟨hunknown, hheld⟩
      · exact inl ⟨hknown, hs.of_balanced hbal⟩
      · exact inr ⟨hunknown, fun hkept => absurd (hheld.symm.trans hkept.free) (by simp)⟩
    | _ => exact absurd hslips id
  · refine inl ⟨?_, ?_⟩
    · rw [Careful]
      split
      · next hop => exact absurd (by rw [hop]; trivial) hslips
      · next hop => exact absurd (by rw [hop]; trivial) hslips
      · trivial
    · rcases returns_run hret hslips with hbal | hinside
      · exact hs.of_balanced hbal
      · exact hs.of_inside hinside

theorem good_start (handlers : HandlerAddr → Handler) : (start handlers).Good :=
  ⟨⟨inl ⟨rfl, rfl⟩, fun id a ha => by simp [entry, start] at ha⟩, rfl, rfl⟩

theorem interrupt_bookkeeping_iff (handlers : HandlerAddr → Handler) (calls : List Call)
    {s : Taskwide} (hrun : exec next (start handlers) calls = some s) :
    Throughout next Kept (start handlers) calls ↔ Admits next Careful (start handlers) calls := by
  refine throughout_iff (I := Good) (fun _ hx => hx.kept) (fun x c y hx hc hy => ?_)
    (fun x c y hx hy hkept => ?_) (good_start handlers) hrun
  · rcases hx.next hy with ⟨-, hgood⟩ | ⟨hcareless, -⟩
    · exact hgood
    · exact absurd hc hcareless
  · rcases hx.next hy with ⟨hcareful, -⟩ | ⟨-, hlost⟩
    · exact hcareful
    · exact absurd hkept hlost

end Taskwide

namespace Sample

def handler : Handler := ⟨0, 0, 0, 0, 0, 0, 0, 0, 0⟩

def threadInfo : ThreadInfo := ⟨fun _ => 0, 0, 0, 0, 0, 0, 0, 0, 0, 0, 0, none, ⟨false, 0, false⟩⟩

def outside (addr : Addr) : Outside := ⟨⟨addr, threadInfo⟩, 0, 0, false, false, false⟩

def by7 (operation : Operation) : Call := ⟨7, by decide, operation, outside 100⟩

def by8 (operation : Operation) : Call := ⟨8, by decide, operation, outside 200⟩

def regions : List Call :=
  [by7 .init, by7 (.openRegion 1 intrSync), by8 (.openRegion 2 intrSync), by7 (.pending 1 true),
    by7 (.enableHandler 1), by8 (.enableHandler 2), by8 (.post 7 0 intrAsync 4 0 0),
    by7 (.disableHandler 1), by7 .resetSelf, by8 (.disableHandler 2)]

end Sample

namespace Taskwide

theorem interrupt_bookkeeping_regions :
    (∃ s, exec next (start fun _ => Sample.handler) Sample.regions = some s ∧
      s.lastId = 7 ∧ s.entry 7 = some 100 ∧ s.entry 8 = some 200) ∧
    (Throughout next Kept (start fun _ => Sample.handler) Sample.regions ↔
      Admits next Careful (start fun _ => Sample.handler) Sample.regions) := by
  have hcheck : check next (start fun _ => Sample.handler) Sample.regions
      (fun s => decide (s.lastId = 7 ∧ s.entry 7 = some 100 ∧ s.entry 8 = some 200)) = true := by
    decide +kernel
  obtain ⟨s, hs, htest⟩ := exec_of_check hcheck
  exact ⟨⟨s, hs, of_decide_eq_true htest⟩, interrupt_bookkeeping_iff _ _ hs⟩

theorem destroyed_record_stays_cached :
    (∃ s, exec next (start fun _ => Sample.handler)
        [Sample.by7 .init, Sample.by7 (.enableHandler 1), Sample.by7 .destroySelf] = some s ∧
      s.lastId = 7 ∧ s.lastThreadInfo = 100 ∧ s.entry 7 = none ∧ s.records 100 = none ∧
      ¬s.Coherent) ∧
    ∃ s, exec next (start fun _ => Sample.handler)
        [Sample.by7 .init, Sample.by7 (.openRegion 1 intrSync), Sample.by7 (.return_ 1)] = some s ∧
      s.held = true ∧ s.acquired = 1 ∧ s.released = 0 := by
  constructor
  · have hcheck : check next (start fun _ => Sample.handler)
        [Sample.by7 .init, Sample.by7 (.enableHandler 1), Sample.by7 .destroySelf]
        (fun s => decide (s.lastId = 7 ∧ s.lastThreadInfo = 100 ∧ s.entry 7 = none) &&
          (s.records 100).isNone) = true := by
      decide +kernel
    obtain ⟨s, hs, htest⟩ := exec_of_check hcheck
    rw [Bool.and_eq_true, decide_eq_true_eq, Option.isNone_iff_eq_none] at htest
    obtain ⟨⟨hid, hinfo, hentry⟩, hfreed⟩ := htest
    refine ⟨s, hs, hid, hinfo, hentry, hfreed, ?_⟩
    rintro (⟨hnull, -⟩ | ⟨-, hcurrent, -⟩)
    · cases hid.symm.trans hnull
    · rw [hid, hentry] at hcurrent
      cases hcurrent
  · have hcheck : check next (start fun _ => Sample.handler)
        [Sample.by7 .init, Sample.by7 (.openRegion 1 intrSync), Sample.by7 (.return_ 1)]
        (fun s => decide (s.held = true ∧ s.acquired = 1 ∧ s.released = 0)) = true := by
      decide +kernel
    obtain ⟨s, hs, htest⟩ := exec_of_check hcheck
    exact ⟨s, hs, of_decide_eq_true htest⟩

end Taskwide

end MachUS.Interrupt
