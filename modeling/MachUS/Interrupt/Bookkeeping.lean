import MachUS.Interrupt.Operations
import MachUS.Foundation.Transition

namespace MachUS.Interrupt

open Program Within Function Option

namespace Taskwide

def entry (s : Taskwide) (id : ThreadId) : Option Addr := s.table.bind (·.lookup id)

def Coherent (s : Taskwide) : Prop :=
  (s.lastId = 0 ∧ s.lastThreadInfo = 0) ∨
    (s.lastId ≠ 0 ∧ s.entry s.lastId = some s.lastThreadInfo ∧
      (s.records s.lastThreadInfo).isSome = true)

structure Sound (s : Taskwide) : Prop where
  coherent : s.Coherent
  live : ∀ id a, s.entry id = some a → a ≠ 0 ∧ (s.records a).isSome = true

structure SameLock (s t : Taskwide) : Prop where
  held : t.held = s.held
  acquired : t.acquired = s.acquired
  released : t.released = s.released

structure Inside (s t : Taskwide) : Prop where
  lock : s.SameLock t
  sound : s.Sound → t.Sound

structure Closes (s t : Taskwide) : Prop where
  held : t.held = false
  acquired : t.acquired = s.acquired
  released : t.released = s.released + 1
  sound : s.Sound → t.Sound

theorem SameLock.trans {s t u : Taskwide} (h : s.SameLock t) (h' : t.SameLock u) : s.SameLock u :=
  ⟨h'.held.trans h.held, h'.acquired.trans h.acquired, h'.released.trans h.released⟩

theorem chains_sameLock : Chains SameLock := ⟨fun _ => ⟨rfl, rfl, rfl⟩, fun _ _ _ => .trans⟩

theorem chains_inside : Chains Inside :=
  ⟨fun _ => ⟨⟨rfl, rfl, rfl⟩, id⟩, fun _ _ _ h h' => ⟨h.lock.trans h'.lock, h'.sound ∘ h.sound⟩⟩

theorem Inside.closes {s t u : Taskwide} (h : s.Inside t) (h' : t.Closes u) : s.Closes u :=
  ⟨h'.held, h'.acquired.trans h.lock.acquired, by rw [h'.released, h.lock.released],
    h'.sound ∘ h.sound⟩

structure Apart (s t : Taskwide) : Prop where
  lock : s.SameLock t
  table : t.table = s.table
  lastId : t.lastId = s.lastId
  lastThreadInfo : t.lastThreadInfo = s.lastThreadInfo
  live : ∀ a, (s.records a).isSome = true → (t.records a).isSome = true

theorem Apart.entry {s t : Taskwide} (h : s.Apart t) (id : ThreadId) : t.entry id = s.entry id := by
  rw [Taskwide.entry, Taskwide.entry, h.table]

theorem Apart.inside {s t : Taskwide} (h : s.Apart t) : s.Inside t := by
  refine ⟨h.lock, fun hs => ⟨?_, fun id a ha => ?_⟩⟩
  · rw [Coherent, h.lastId, h.lastThreadInfo, h.entry]
    rcases hs.coherent with hnull | ⟨hid, hentry, hlive⟩
    · exact Or.inl hnull
    · exact Or.inr ⟨hid, hentry, h.live _ hlive⟩
  · rw [h.entry] at ha
    exact ⟨(hs.live id a ha).1, h.live a (hs.live id a ha).2⟩

end Taskwide

open Taskwide

theorem within_readInfo (a : Addr) : Within Inside (readInfo a) := by
  refine look chains_inside fun s => ?_
  cases s.records a with
  | none => exact fault
  | some info => exact pure chains_inside info

theorem within_writeInfo (a : Addr) (f : ThreadInfo → ThreadInfo) : Within Inside (writeInfo a f) := by
  refine bind chains_inside (within_readInfo a) fun info => modify fun s => ?_
  refine Apart.inside ⟨⟨rfl, rfl, rfl⟩, rfl, rfl, rfl, fun b hb => ?_⟩
  by_cases h : b = a
  · simp [h]
  · simpa [h] using hb

theorem within_writeHandler (h : HandlerAddr) (f : Handler → Handler) :
    Within Inside (writeHandler h f) :=
  modify fun _ => Apart.inside ⟨⟨rfl, rfl, rfl⟩, rfl, rfl, rfl, fun _ => id⟩

theorem within_cacheInHandler (h : HandlerAddr) (a : Addr) : Within Inside (cacheInHandler h a) := by
  rw [cacheInHandler]
  split_ifs
  · exact pure chains_inside ()
  · exact within_writeHandler h _

theorem within_inHandlers (i : ℤ) : Within Inside (inHandlers i) := by
  rw [inHandlers]
  split_ifs
  · exact pure chains_inside ()
  · exact fault

variable {s t : Taskwide}

theorem returns_hashTable {table : List (ThreadId × Addr)}
    (h : Returns hashTable s table t) : s.table = some table ∧ s = t := by
  rw [hashTable] at h
  obtain ⟨s', _, hget, h⟩ := returns_bind.mp h
  obtain ⟨rfl, rfl⟩ := returns_get.mp hget
  cases htable : s.table with
  | none =>
    rw [htable] at h
    cases (returns_lift.mp h).1
  | some table' =>
    rw [htable] at h
    obtain ⟨rfl, rfl⟩ := returns_pure.mp h
    exact ⟨rfl, rfl⟩

variable {a : Addr}

theorem returns_new {fresh : Allocation} (h : Returns (new fresh) s a t) :
    a = fresh.addr ∧ a ≠ 0 ∧ t = { s with records := update s.records a (some fresh.junk) } := by
  rw [new] at h
  obtain ⟨s', _, hget, h⟩ := returns_bind.mp h
  obtain ⟨rfl, rfl⟩ := returns_get.mp hget
  split_ifs at h with hbad
  · cases (returns_lift.mp h).1
  · obtain ⟨_, t', hmodify, h⟩ := returns_bind.mp h
    obtain ⟨rfl, rfl⟩ := returns_pure.mp h
    exact ⟨rfl, fun h0 => hbad (Or.inl h0), (returns_modify.mp hmodify).symm⟩

theorem inside_found {id : ThreadId} (hid : id ≠ 0)
    (hentry : s.entry id = some a) : s.Inside { s with lastId := id, lastThreadInfo := a } := by
  refine ⟨⟨rfl, rfl, rfl⟩, fun hs => ⟨Or.inr ⟨hid, hentry, (hs.live id a hentry).2⟩, hs.live⟩⟩

theorem inside_emptied (s : Taskwide) : s.Inside { s with lastId := 0, lastThreadInfo := 0 } :=
  ⟨⟨rfl, rfl, rfl⟩, fun hs => ⟨Or.inl ⟨rfl, rfl⟩, hs.live⟩⟩

theorem inside_entered {table : List (ThreadId × Addr)} {id : ThreadId}
    (info : ThreadInfo) (hid : id ≠ 0) (ha : a ≠ 0) (htable : s.table = some table)
    (hnone : table.lookup id = none) :
    s.Inside { s with
      lastId := id
      lastThreadInfo := a
      records := update s.records a (some info)
      table := some (table ++ [(id, a)]) } := by
  refine ⟨⟨rfl, rfl, rfl⟩, fun hs => ⟨Or.inr ⟨hid, ?_, by simp⟩, fun id' b hb => ?_⟩⟩
  · simp [Taskwide.entry, List.lookup_append, hnone]
  · have hlive (hold : s.entry id' = some b) :
        b ≠ 0 ∧ (update s.records a (some info) b).isSome = true := by
      obtain ⟨hb0, hsome⟩ := hs.live id' b hold
      refine ⟨hb0, ?_⟩
      by_cases hba : b = a
      · simp [hba]
      · simpa [hba] using hsome
    simp only [Taskwide.entry, bind_some, List.lookup_append] at hb
    rcases hold : table.lookup id' with - | c
    · simp only [hold, none_or, List.lookup_cons, List.lookup_nil] at hb
      split at hb
      · cases hb
        exact ⟨ha, by simp⟩
      · cases hb
    · rw [hold, some_or] at hb
      exact hlive (by rw [Taskwide.entry, htable, bind_some, hold, hb])

theorem inside_writeInfo {f : ThreadInfo → ThreadInfo} {u : Unit}
    (h : Returns (writeInfo a f) s u t) :
    ∃ info, s.records a = some info ∧
      t = { s with records := update s.records a (some (f info)) } := by
  rw [writeInfo] at h
  obtain ⟨info, s', hread, h⟩ := returns_bind.mp h
  rw [readInfo] at hread
  obtain ⟨s'', _, hget, hread⟩ := returns_bind.mp hread
  obtain ⟨rfl, rfl⟩ := returns_get.mp hget
  cases hrecord : s.records a with
  | none =>
    rw [hrecord] at hread
    cases (returns_lift.mp hread).1
  | some info' =>
    rw [hrecord] at hread
    obtain ⟨rfl, rfl⟩ := returns_pure.mp hread
    exact ⟨info', rfl, (returns_modify.mp h).symm⟩

theorem within_getThreadInfo {self : ThreadId} (hself : self ≠ 0) (id : ThreadId) (h : HandlerAddr)
    (allocateNew : Bool) (fresh : Allocation) :
    Within Inside (intrGetThreadInfo self id h allocateNew fresh) := by
  have hid : (if id = 0 then self else id) ≠ 0 := by
    split_ifs with hnull
    · exact hself
    · exact hnull
  intro s a t hret
  rw [intrGetThreadInfo] at hret
  obtain ⟨s', _, hget, hret⟩ := returns_bind.mp hret
  obtain ⟨rfl, rfl⟩ := returns_get.mp hget
  generalize (if id = 0 then self else id) = id' at hid hret
  by_cases hcached : h ≠ 0 ∧ (s.handlers h).threadInfo ≠ 0
  · rw [if_pos hcached] at hret
    exact pure chains_inside _ s a t hret
  rw [if_neg hcached] at hret
  by_cases hlast : s.lastId = id'
  · rw [if_pos hlast] at hret
    exact bind chains_inside (within_cacheInHandler h _) (fun _ => pure chains_inside _) s a t hret
  · rw [if_neg hlast] at hret
    obtain ⟨table, s', hhash, hret⟩ := returns_bind.mp hret
    obtain ⟨htable, rfl⟩ := returns_hashTable hhash
    obtain ⟨_, s₁, hcache, hret⟩ := returns_bind.mp hret
    obtain rfl := returns_modify.mp hcache
    cases hlookup : table.lookup id' with
    | some b =>
      rw [hlookup] at hret
      have hfound : s.Inside { s with lastId := id', lastThreadInfo := b } :=
        inside_found hid (by rw [Taskwide.entry, htable, bind_some, hlookup])
      refine chains_inside.trans _ _ _ hfound ?_
      exact bind chains_inside (within_cacheInHandler h b)
        (fun _ => pure chains_inside b) _ a t hret
    | none =>
      rw [hlookup] at hret
      split_ifs at hret with hnew
      · obtain ⟨b, s₂, halloc, hret⟩ := returns_bind.mp hret
        obtain ⟨-, hb, rfl⟩ := returns_new halloc
        obtain ⟨_, s₃, hcache, hret⟩ := returns_bind.mp hret
        obtain rfl := returns_modify.mp hcache
        obtain ⟨_, s₄, hwrite, hret⟩ := returns_bind.mp hret
        obtain ⟨info, -, rfl⟩ := inside_writeInfo hwrite
        obtain ⟨_, s₅, henter, hret⟩ := returns_bind.mp hret
        obtain rfl := returns_modify.mp henter
        have hentered := inside_entered info.init hid hb htable hlookup
        refine chains_inside.trans _ _ _ hentered ?_
        simp only [update_idem] at hret
        exact bind chains_inside (within_cacheInHandler h b)
          (fun _ => pure chains_inside b) _ a t hret
      · obtain ⟨_, s₂, hcache, hret⟩ := returns_bind.mp hret
        obtain rfl := returns_modify.mp hcache
        obtain ⟨-, rfl⟩ := returns_pure.mp hret
        exact inside_emptied s

end MachUS.Interrupt

namespace MachUS.Interrupt

open Program Taskwide

variable {self : ThreadId} (o : Outside)

section Inner

variable (hself : self ≠ 0)

include hself

theorem within_disableHandlerInternal (h : HandlerAddr) :
    Within Inside (intrDisableHandlerInternal self h o) := by
  refine Within.look chains_inside fun s => Within.ite (Within.pure chains_inside _) ?_
  refine Within.bind chains_inside (within_getThreadInfo hself 0 h false o.fresh) fun a => ?_
  refine Within.bind chains_inside (within_writeInfo a _) fun _ => Within.ite ?_ ?_
  · exact Within.bind chains_inside (within_writeInfo a _) fun _ => Within.pure chains_inside _
  · refine Within.bind chains_inside (within_inHandlers _) fun _ => ?_
    refine Within.look chains_inside fun s' => ?_
    exact Within.bind chains_inside (within_writeInfo a _) fun _ => Within.pure chains_inside _

theorem within_enterHandler (h : HandlerAddr) (interrupt : Bits) :
    Within Inside (intrEnterHandler self h interrupt o) := by
  refine Within.bind chains_inside (within_getThreadInfo hself 0 h true o.fresh) fun a => ?_
  refine Within.bind chains_inside (within_readInfo a) fun info => Within.ite Within.fault ?_
  refine Within.ite (Within.pure chains_inside _) ?_
  refine Within.bind chains_inside (within_writeHandler h _) fun _ => Within.ite ?_ ?_
  · refine Within.bind chains_inside (within_writeHandler h _) fun _ => ?_
    exact Within.bind chains_inside (within_writeInfo a _) fun _ => Within.pure chains_inside _
  · refine Within.bind chains_inside (within_writeHandler h _) fun _ => ?_
    exact Within.bind chains_inside (within_writeInfo a _) fun _ => Within.pure chains_inside _

theorem within_deliverInterruptInternal (deliveryType interruptType : Bits) (a : Addr) :
    Within Inside (intrDeliverInterruptInternal self deliveryType interruptType a o) := by
  refine Within.bind chains_inside (within_readInfo a) fun info => ?_
  refine Within.ite (Within.pure chains_inside _) ?_
  have hfind : Within Inside (findHandler info) :=
    Within.ite Within.fault (Within.pure chains_inside _)
  refine Within.bind chains_inside hfind fun hand => Within.look chains_inside fun s => ?_
  refine Within.ite (Within.ite (Within.pure chains_inside _) (Within.pure chains_inside _)) ?_
  refine Within.ite (Within.pure chains_inside _) ?_
  refine Within.bind chains_inside (within_enterHandler o hself hand interruptType) fun _ => ?_
  refine Within.ite ?_ (Within.pure chains_inside _)
  refine Within.bind chains_inside (within_disableHandlerInternal o hself hand) fun _ => ?_
  exact Within.ite Within.fault (Within.pure chains_inside _)

theorem within_msgShake (a : Addr) : Within Inside (intrMsgShake self a o) := by
  refine Within.bind chains_inside (within_readInfo a) fun info => ?_
  refine Within.ite (Within.pure chains_inside _) ?_
  refine Within.bind chains_inside (within_writeInfo a _) fun _ => ?_
  refine Within.ite (Within.pure chains_inside _) (Within.ite ?_ (Within.pure chains_inside _))
  refine Within.bind chains_inside (within_getThreadInfo hself _ 0 true o.fresh) fun b => ?_
  exact Within.bind chains_inside (within_deliverInterruptInternal o hself _ _ b)
    fun _ => Within.pure chains_inside _

theorem within_callShake (shake : Shake) (a : Addr) : Within Inside (callShake self shake a o) := by
  cases shake with
  | msg => exact within_msgShake o hself a
  | condWait =>
    refine Within.bind chains_inside (within_readInfo a) fun info => ?_
    exact Within.ite (Within.pure chains_inside _) (within_writeInfo a _)

end Inner

theorem closes_unlock : Within Closes unlock := by
  intro s u t h
  obtain rfl := returns_modify.mp h
  exact ⟨rfl, rfl, rfl, fun hs => ⟨hs.coherent, hs.live⟩⟩

theorem closes_done {α : Type} (a : α) : Within Closes (do unlock; pure a : M α) := by
  intro s b t h
  obtain ⟨u, t', hunlock, h⟩ := returns_bind.mp h
  obtain ⟨-, rfl⟩ := returns_pure.mp h
  exact closes_unlock s u t' hunlock

theorem closes_bind {α β : Type} {m : M α} {k : α → M β} (hm : Within Inside m)
    (hk : ∀ a, Within Closes (k a)) : Within Closes (m >>= k) :=
  Within.seq (fun _ _ _ h h' => h.closes h') hm hk

theorem closes_look {β : Type} {k : Taskwide → M β} (hk : ∀ s, Within Closes (k s)) :
    Within Closes (get >>= k) := by
  intro s b t h
  obtain ⟨s', _, hget, h⟩ := returns_bind.mp h
  obtain ⟨rfl, rfl⟩ := returns_get.mp hget
  exact hk s s b t h

structure Balanced (s t : Taskwide) : Prop where
  free : s.held = false
  held : t.held = false
  acquired : t.acquired = s.acquired + 1
  released : t.released = s.released + 1
  sound : s.Sound → t.Sound

theorem returns_lock {s t : Taskwide} {u : Unit} (h : Returns lock s u t) :
    s.held = false ∧ t = { s with held := true, acquired := s.acquired + 1 } := by
  rw [lock] at h
  obtain ⟨s', _, hget, h⟩ := returns_bind.mp h
  obtain ⟨rfl, rfl⟩ := returns_get.mp hget
  split_ifs at h with hheld
  · cases (returns_lift.mp h).1
  · exact ⟨by simpa using hheld, (returns_modify.mp h).symm⟩

theorem balanced_of_closes {α : Type} {body : M α} (hbody : Within Closes body) :
    Within Balanced (do lock; body) := by
  intro s a t h
  obtain ⟨u, s', hlock, h⟩ := returns_bind.mp h
  obtain ⟨hfree, rfl⟩ := returns_lock hlock
  have hcloses := hbody _ a t h
  exact ⟨hfree, hcloses.held, hcloses.acquired, hcloses.released,
    fun hs => hcloses.sound ⟨hs.coherent, hs.live⟩⟩

theorem balanced_setSyncDefault (installed : Bool) :
    Within Balanced (intrSetSyncDefault installed) := by
  refine balanced_of_closes (closes_bind (Within.modify fun s => ?_) fun _ => closes_unlock)
  exact Apart.inside ⟨⟨rfl, rfl, rfl⟩, rfl, rfl, rfl, fun _ => id⟩

theorem sameLock_freeAll (table : List (ThreadId × Addr)) : Within SameLock (freeAll table) := by
  induction table with
  | nil => exact Within.pure chains_sameLock ()
  | cons entry rest ih =>
    refine Within.bind chains_sameLock ?_ fun _ => ih
    refine Within.bind chains_sameLock ?_ fun _ => Within.modify fun s => ⟨rfl, rfl, rfl⟩
    intro s info t h
    exact (within_readInfo entry.2 s info t h).lock

theorem balanced_reset : Within Balanced intrReset := by
  refine balanced_of_closes ?_
  intro s u t h
  obtain ⟨table, s₁, hhash, h⟩ := returns_bind.mp h
  obtain ⟨-, rfl⟩ := returns_hashTable hhash
  obtain ⟨_, s₂, hfree, h⟩ := returns_bind.mp h
  have hlock := sameLock_freeAll table s _ s₂ hfree
  obtain ⟨_, s₃, hclear, h⟩ := returns_bind.mp h
  obtain rfl := returns_modify.mp hclear
  obtain ⟨_, s₄, hinit, h⟩ := returns_bind.mp h
  obtain rfl := returns_modify.mp hinit
  obtain rfl := returns_modify.mp h
  refine ⟨rfl, hlock.acquired, by simp [hlock.released], fun _ => ⟨Or.inl ⟨rfl, rfl⟩, ?_⟩⟩
  intro id a ha
  simp [entry] at ha

section Operations

variable (hself : self ≠ 0)

include hself

theorem balanced_resetSelf : Within Balanced (intrResetSelf self o) := by
  refine balanced_of_closes (closes_bind (within_getThreadInfo hself 0 0 false o.fresh) fun a => ?_)
  exact Within.ite (closes_done _) (closes_bind (within_writeInfo a _) fun _ => closes_done _)

theorem balanced_enableHandler (h : HandlerAddr) : Within Balanced (intrEnableHandler self h o) := by
  refine balanced_of_closes (closes_bind (within_getThreadInfo hself 0 h true o.fresh) fun a => ?_)
  refine closes_bind (within_readInfo a) fun info => ?_
  refine closes_bind (within_writeHandler h _) fun _ => ?_
  refine closes_bind (within_inHandlers _) fun _ => ?_
  exact closes_bind (within_writeInfo a _) fun _ => closes_done _

theorem balanced_disableHandler (h : HandlerAddr) : Within Balanced (intrDisableHandler self h o) :=
  balanced_of_closes (closes_bind (within_disableHandlerInternal o hself h) fun _ => closes_done _)

theorem balanced_exitHandler (h : HandlerAddr) : Within Balanced (intrExitHandler self h o) := by
  refine balanced_of_closes (closes_bind (within_getThreadInfo hself 0 h false o.fresh) fun a => ?_)
  refine closes_look fun s => closes_bind (within_writeInfo a _) fun _ => ?_
  refine closes_bind (within_readInfo a) fun info => Within.ite ?_ closes_unlock
  exact closes_bind (within_deliverInterruptInternal o hself _ _ a) fun _ => closes_unlock

theorem balanced_newRoutine : Within Balanced (intrNewRoutine self o) := by
  refine balanced_of_closes (closes_bind (within_getThreadInfo hself 0 0 false o.fresh) fun a => ?_)
  exact Within.ite (closes_bind (within_writeInfo a _) fun _ => closes_unlock) closes_unlock

theorem balanced_pending (h : HandlerAddr) (enterHandler : Bool) :
    Within Balanced (intrPending self h enterHandler o) := by
  refine balanced_of_closes (closes_bind (within_getThreadInfo hself 0 h false o.fresh) fun a => ?_)
  refine Within.ite (closes_done _) (closes_bind (within_readInfo a) fun info => ?_)
  refine closes_look fun s => Within.ite (closes_done _) (Within.ite ?_ (closes_done _))
  exact closes_bind (within_enterHandler o hself h _) fun _ => closes_done _

theorem balanced_deliverInterrupt (id : ThreadId) (deliveryType interruptType : Bits) :
    Within Balanced (intrDeliverInterrupt self id deliveryType interruptType o) := by
  refine balanced_of_closes (closes_bind (within_getThreadInfo hself id 0 false o.fresh) fun a => ?_)
  refine Within.ite ?_ (closes_done _)
  exact closes_bind (within_deliverInterruptInternal o hself _ _ a) fun _ => closes_done _

theorem balanced_postInterrupt (id : ThreadId) (deliveryType interruptType : Bits)
    (error code subcode : ℤ) :
    Within Balanced (intrPostInterrupt self id deliveryType interruptType error code subcode o) := by
  refine balanced_of_closes (closes_bind (within_getThreadInfo hself id 0 true o.fresh) fun a => ?_)
  refine closes_bind (within_writeInfo a _) fun _ => closes_bind (within_readInfo a) fun info => ?_
  have hshake : Within Inside (shakePosted self interruptType info a o) := by
    rw [shakePosted]
    cases info.shakeOnPost with
    | none => exact Within.pure chains_inside ()
    | some shake => exact Within.ite (within_callShake o hself shake a) (Within.pure chains_inside ())
  refine closes_bind hshake fun _ => Within.ite (closes_done _) ?_
  exact closes_bind (within_deliverInterruptInternal o hself _ _ a) fun _ => closes_done _

theorem balanced_shakeOnPost (shake : Shake) (shakeInfo : ShakeInfo) :
    Within Balanced (intrShakeOnPost self shake shakeInfo o) := by
  refine balanced_of_closes (closes_bind (within_getThreadInfo hself 0 0 true o.fresh) fun a => ?_)
  refine closes_bind (within_writeInfo a _) fun _ => closes_bind (within_readInfo a) fun info => ?_
  exact Within.ite (closes_bind (within_callShake o hself shake a) fun _ => closes_unlock) closes_unlock

theorem balanced_clearShakeOnPost : Within Balanced (intrClearShakeOnPost self o) := by
  refine balanced_of_closes (closes_bind (within_getThreadInfo hself 0 0 true o.fresh) fun a => ?_)
  refine closes_bind (within_readInfo a) fun info => Within.ite closes_unlock ?_
  exact closes_bind (within_writeInfo a _) fun _ => closes_unlock

end Operations

end MachUS.Interrupt
