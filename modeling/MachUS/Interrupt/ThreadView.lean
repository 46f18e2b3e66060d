import MachUS.Interrupt.Bookkeeping

namespace MachUS.Interrupt

open Function Option

variable {self source : ThreadId} {hs : List HandlerAddr} {held : Bool} {a : Addr}
  {th : Option (Addr × ThreadInfo)} {info : ThreadInfo} {hands : HandlerAddr → Handler}
  {s : Taskwide} {h : HandlerAddr} {o : Outside}

def Handler.bare (hand : Handler) : Handler := { hand with threadInfo := 0 }

theorem run_bind {α β : Type} {m : M α} {k : α → M β} {s t : Taskwide} {x : α}
    (hm : m s = .ok (x, t)) : (m >>= k) s = k x t := by
  simp only [bind, StateT.bind, hm, Except.bind]

def Stops {α : Type} (m : M α) (s : Taskwide) : Prop := ∃ f, f ≠ Fault.outsideHandlers ∧ m s = .error f

theorem Stops.bind {α β : Type} {m : M α} {s : Taskwide} (hstop : Stops m s) (k : α → M β) :
    Stops (m >>= k) s := by
  obtain ⟨f, hf, hm⟩ := hstop
  exact ⟨f, hf, by simp only [Bind.bind, StateT.bind, hm, Except.bind]⟩

theorem Stops.after {α β : Type} {m : M α} {k : α → M β} {s t : Taskwide} {x : α}
    (hm : m s = .ok (x, t)) (hstop : Stops (k x) t) : Stops (m >>= k) s := by
  rwa [Stops, run_bind hm]

theorem run_get {β : Type} {k : Taskwide → M β} (s : Taskwide) : (get >>= k) s = k s s := rfl

theorem run_modify (f : Taskwide → Taskwide) (s : Taskwide) :
    (modify f : M Unit) s = .ok ((), f s) := rfl

theorem run_ignoring {α : Type} {m : M α} {s t : Taskwide} {x : α} (hm : m s = .ok (x, t)) :
    ignoring m s = .ok ((), t) := by
  rw [ignoring, run_bind hm]
  rfl

theorem run_readInfo (hinfo : s.records a = some info) : readInfo a s = .ok (info, s) := by
  rw [readInfo, run_get, hinfo]
  rfl

theorem run_writeInfo (hinfo : s.records a = some info) (f : ThreadInfo → ThreadInfo) :
    writeInfo a f s = .ok ((), { s with records := update s.records a (some (f info)) }) := by
  rw [writeInfo, run_bind (run_readInfo hinfo)]
  rfl

theorem run_new {fresh : Allocation} (haddr : fresh.addr ≠ 0)
    (hfree : s.records fresh.addr = none) : new fresh s =
      .ok (fresh.addr, { s with records := update s.records fresh.addr (some fresh.junk) }) := by
  rw [new, run_get, if_neg]
  · rfl
  · rintro (hzero | hsome)
    · exact haddr hzero
    · rw [hfree] at hsome
      cases hsome

theorem stops_new {fresh : Allocation} (hused : fresh.addr = 0 ∨ (s.records fresh.addr).isSome = true) :
    Stops (new fresh) s := by
  refine ⟨.noMemory, by simp, ?_⟩
  rw [new, run_get, if_pos hused]
  rfl

theorem run_hashTable {table : List (ThreadId × Addr)} (htable : s.table = some table) :
    hashTable s = .ok (table, s) := by
  rw [hashTable, run_get, htable]
  rfl

structure At (id : ThreadId) (hs : List HandlerAddr) (held : Bool)
    (th : Option (Addr × ThreadInfo)) (hands : HandlerAddr → Handler) (s : Taskwide) : Prop where
  sound : s.Sound
  held : s.held = held
  table : s.table.isSome = true
  thread : ((s.entry id).bind fun a => (s.records a).map fun info => (a, info)) = th
  hands : ∀ h, (s.handlers h).bare = hands h
  cached : ∀ h ∈ hs, (s.handlers h).threadInfo = 0 ∨
    th.map Prod.fst = some (s.handlers h).threadInfo

namespace At

section

variable (hat : At self hs held (some (a, info)) hands s)

include hat

theorem entry : s.entry self = some a := by
  obtain ⟨b, hb, hmap⟩ := bind_eq_some_iff.mp hat.thread
  obtain ⟨x, -, heq⟩ := map_eq_some_iff.mp hmap
  cases heq
  exact hb

theorem record : s.records a = some info := by
  obtain ⟨b, -, hmap⟩ := bind_eq_some_iff.mp hat.thread
  obtain ⟨x, hx, heq⟩ := map_eq_some_iff.mp hmap
  cases heq
  exact hx

theorem addr_ne_zero : a ≠ 0 :=
  (hat.sound.live self a hat.entry).1

end

theorem entry_none (hat : At self hs held none hands s) : s.entry self = none := by
  cases hentry : s.entry self with
  | none => rfl
  | some b =>
    obtain ⟨x, hx⟩ := isSome_iff_exists.mp (hat.sound.live self b hentry).2
    have hthread := hat.thread
    rw [hentry, bind_some, hx] at hthread
    cases hthread

theorem lookup (hat : At self hs held th hands s) :
    ∃ table, s.table = some table ∧ table.lookup self = s.entry self := by
  obtain ⟨table, htable⟩ := isSome_iff_exists.mp hat.table
  exact ⟨table, htable, by rw [Taskwide.entry, htable, bind_some]⟩

theorem lock (hat : At self hs false th hands s) :
    ∃ t, Interrupt.lock s = .ok ((), t) ∧ At self hs true th hands t := by
  refine ⟨{ s with held := true, acquired := s.acquired + 1 }, ?_,
    ⟨⟨hat.sound.coherent, hat.sound.live⟩, rfl, hat.table, hat.thread, hat.hands, hat.cached⟩⟩
  rw [Interrupt.lock, run_get, if_neg (by simp [hat.held])]
  rfl

theorem unlock (hat : At self hs held th hands s) :
    ∃ t, Interrupt.unlock s = .ok ((), t) ∧ At self hs false th hands t :=
  ⟨{ s with held := false, released := s.released + 1 }, rfl,
    ⟨hat.sound.coherent, hat.sound.live⟩, rfl, hat.table, hat.thread, hat.hands, hat.cached⟩

theorem unlocked {α : Type} (hat : At self hs held th hands s) (x : α) :
    ∃ t, (do Interrupt.unlock; pure x : M α) s = .ok (x, t) ∧ At self hs false th hands t := by
  obtain ⟨t, hrun, hat'⟩ := hat.unlock
  exact ⟨t, by rw [run_bind hrun]; rfl, hat'⟩

theorem readInfo (hat : At self hs held (some (a, info)) hands s) :
    Interrupt.readInfo a s = .ok (info, s) := run_readInfo hat.record

theorem writeInfo (hat : At self hs held (some (a, info)) hands s) (f : ThreadInfo → ThreadInfo) :
    ∃ t, Interrupt.writeInfo a f s = .ok ((), t) ∧ At self hs held (some (a, f info)) hands t := by
  obtain ⟨t, ht⟩ : ∃ t, t = { s with records := update s.records a (some (f info)) } :=
    ⟨_, rfl⟩
  have hrun : Interrupt.writeInfo a f s = .ok ((), t) := by
    rw [run_writeInfo hat.record, ht]
  refine ⟨t, hrun, (within_writeInfo a f s () t hrun).sound hat.sound, ?_, ?_, ?_, ?_, ?_⟩
  · rw [ht]
    exact hat.held
  · rw [ht]
    exact hat.table
  · have hentry : t.entry self = some a := by
      rw [ht]
      exact hat.entry
    rw [hentry, ht]
    simp
  · rw [ht]
    exact hat.hands
  · rw [ht]
    exact hat.cached

section

variable (hat : At self hs held th hands s)

include hat

theorem writeHandler {f : Handler → Handler}
    (hinfo : ∀ x, (f x).threadInfo = x.threadInfo) (hbare : ∀ x, (f x).bare = f x.bare) :
    ∃ t, Interrupt.writeHandler h f s = .ok ((), t) ∧
      At self hs held th (update hands h (f (hands h))) t := by
  refine ⟨_, run_modify _ s, ⟨⟨hat.sound.coherent, hat.sound.live⟩, hat.held, hat.table, hat.thread,
    fun h' => ?_, fun h' hmem => ?_⟩⟩
  · by_cases heq : h' = h
    · subst heq
      simp only [update_self, hbare, hat.hands]
    · simp only [update_of_ne heq, hat.hands]
  · by_cases heq : h' = h
    · subst heq
      simp only [update_self, hinfo]
      exact hat.cached h' hmem
    · simp only [update_of_ne heq]
      exact hat.cached h' hmem

theorem openRegion (h : HandlerAddr) (rtype : Bits) :
    ∃ t, Interrupt.writeHandler h (·.region rtype) s = .ok ((), t) ∧
      At self (h :: hs) held th (update hands h ((hands h).region rtype)) t := by
  refine ⟨_, run_modify _ s, ⟨⟨hat.sound.coherent, hat.sound.live⟩, hat.held, hat.table, hat.thread,
    fun h' => ?_, fun h' hmem => ?_⟩⟩
  · by_cases heq : h' = h
    · subst heq
      simp only [update_self, ← hat.hands]
      rfl
    · simp only [update_of_ne heq, hat.hands]
  · by_cases heq : h' = h
    · subst heq
      simp only [update_self]
      exact Or.inl rfl
    · simp only [update_of_ne heq]
      exact hat.cached h' (List.mem_of_ne_of_mem heq hmem)

theorem close {hs' : List HandlerAddr} (hsub : hs' ⊆ hs) : At self hs' held th hands s :=
  { hat with cached := fun h hh => hat.cached h (hsub hh) }

end

section

variable (hat : At self hs held (some (a, info)) hands s)

include hat

theorem cacheInHandler (h : HandlerAddr) : ∃ t, Interrupt.cacheInHandler h a s = .ok ((), t) ∧
      At self hs held (some (a, info)) hands t := by
  rw [Interrupt.cacheInHandler]
  split_ifs with hzero
  · exact ⟨s, rfl, hat⟩
  · refine ⟨_, run_modify _ s, ⟨⟨hat.sound.coherent, hat.sound.live⟩, hat.held, hat.table,
      hat.thread, fun h' => ?_, fun h' hmem => ?_⟩⟩
    · by_cases heq : h' = h
      · subst heq
        simp only [update_self, ← hat.hands]
        rfl
      · simp only [update_of_ne heq, hat.hands]
    · by_cases heq : h' = h
      · subst heq
        simp only [update_self]
        exact Or.inr rfl
      · simp only [update_of_ne heq]
        exact hat.cached h' hmem

theorem setCache (hself : self ≠ 0) :
    At self hs held (some (a, info)) hands { s with lastId := self, lastThreadInfo := a } :=
  ⟨(inside_found hself hat.entry).sound hat.sound, hat.held, hat.table, hat.thread, hat.hands,
    hat.cached⟩

theorem get_known (hself : self ≠ 0) {id : ThreadId}
    (hid : (if id = 0 then source else id) = self) (hh : h = 0 ∨ h ∈ hs) (allocateNew : Bool)
    (fresh : Allocation) : ∃ t, intrGetThreadInfo source id h allocateNew fresh s = .ok (a, t) ∧
      At self hs held (some (a, info)) hands t := by
  rw [intrGetThreadInfo, run_get, hid]
  by_cases hcached : h ≠ 0 ∧ (s.handlers h).threadInfo ≠ 0
  · rw [if_pos hcached]
    have haddr : (s.handlers h).threadInfo = a := by
      rcases hat.cached h (hh.resolve_left hcached.1) with hzero | hsome
      · exact absurd hzero hcached.2
      · exact (some.inj hsome).symm
    rw [haddr]
    exact ⟨s, rfl, hat⟩
  · rw [if_neg hcached]
    by_cases hlast : s.lastId = self
    · have haddr : s.lastThreadInfo = a := by
        rcases hat.sound.coherent with ⟨hnull, -⟩ | ⟨-, hentry, -⟩
        · exact absurd (hlast.symm.trans hnull) hself
        · rw [hlast, hat.entry] at hentry
          exact (some.inj hentry).symm
      obtain ⟨t, hcache, hat'⟩ := hat.cacheInHandler h
      exact ⟨t, by rw [if_pos hlast, haddr, run_bind hcache]; rfl, hat'⟩
    · obtain ⟨table, htable, hlookup⟩ := hat.lookup
      rw [hat.entry] at hlookup
      have hset : Interrupt.setCache self ((table.lookup self).getD 0) s =
          .ok ((), { s with lastId := self, lastThreadInfo := a }) := by
        rw [hlookup]
        rfl
      obtain ⟨t, hcache, hat'⟩ := (hat.setCache hself).cacheInHandler h
      refine ⟨t, ?_, hat'⟩
      rw [if_neg hlast, run_bind (run_hashTable htable), run_bind hset, hlookup]
      exact run_bind hcache

end

section

variable (hat : At self hs held none hands s)

include hat

theorem lastId_ne (hself : self ≠ 0) : s.lastId ≠ self := by
  intro hlast
  rcases hat.sound.coherent with ⟨hnull, -⟩ | ⟨-, hentry, -⟩
  · exact hself (hlast.symm.trans hnull)
  · rw [hlast, hat.entry_none] at hentry
    cases hentry

theorem uncached (hh : h = 0 ∨ h ∈ hs) : ¬(h ≠ 0 ∧ (s.handlers h).threadInfo ≠ 0) := by
  rintro ⟨hne, hcached⟩
  rcases hat.cached h (hh.resolve_left hne) with hzero | hsome
  · exact hcached hzero
  · cases hsome

theorem get_none (hself : self ≠ 0) {id : ThreadId}
    (hid : (if id = 0 then source else id) = self) (hh : h = 0 ∨ h ∈ hs) (fresh : Allocation) :
    ∃ t, intrGetThreadInfo source id h false fresh s = .ok (0, t) ∧ At self hs held none hands t := by
  obtain ⟨table, htable, hlookup⟩ := hat.lookup
  rw [hat.entry_none] at hlookup
  refine ⟨{ s with lastId := 0, lastThreadInfo := 0 }, ?_,
    ⟨(inside_emptied s).sound hat.sound, hat.held, hat.table, hat.thread, hat.hands, hat.cached⟩⟩
  rw [intrGetThreadInfo, run_get, hid, if_neg (hat.uncached hh), if_neg (hat.lastId_ne hself),
    run_bind (run_hashTable htable), hlookup]
  rfl

theorem get_new (hself : self ≠ 0) {id : ThreadId}
    (hid : (if id = 0 then source else id) = self) (hh : h = 0 ∨ h ∈ hs) {fresh : Allocation}
    (haddr : fresh.addr ≠ 0) (hfree : s.records fresh.addr = none) :
    ∃ t, intrGetThreadInfo source id h true fresh s = .ok (fresh.addr, t) ∧
      At self hs held (some (fresh.addr, fresh.junk.init)) hands t := by
  obtain ⟨table, htable, hlookup⟩ := hat.lookup
  rw [hat.entry_none] at hlookup
  obtain ⟨u, hu⟩ : ∃ u : Taskwide, u = { s with
      lastId := self
      lastThreadInfo := fresh.addr
      records := update s.records fresh.addr (some fresh.junk.init)
      table := some (table ++ [(self, fresh.addr)]) } := ⟨_, rfl⟩
  have hentered : s.Inside u := hu ▸ inside_entered fresh.junk.init hself haddr htable hlookup
  have hentry : u.entry self = some fresh.addr := by
    simp [hu, Taskwide.entry, List.lookup_append, hlookup]
  have hrecord : u.records fresh.addr = some fresh.junk.init := by
    rw [hu]
    exact update_self _ _ _
  have hat' : At self hs held (some (fresh.addr, fresh.junk.init)) hands u := by
    refine ⟨hentered.sound hat.sound, hentered.lock.held.trans hat.held, ?_, ?_, ?_, ?_⟩
    · rw [hu]
      rfl
    · rw [hentry, bind_some, hrecord, map_some]
    · rw [hu]
      exact hat.hands
    · rw [hu]
      intro h' hmem
      rcases hat.cached h' hmem with hzero | hsome
      · exact Or.inl hzero
      · cases hsome
  obtain ⟨t, hcache, hlast⟩ := hat'.cacheInHandler h
  refine ⟨t, ?_, hlast⟩
  have hset (x : Addr) (s : Taskwide) : Interrupt.setCache self x s =
      .ok ((), { s with lastId := self, lastThreadInfo := x }) := rfl
  rw [intrGetThreadInfo, run_get, hid, if_neg (hat.uncached hh), if_neg (hat.lastId_ne hself),
    run_bind (run_hashTable htable), run_bind (hset _ s), hlookup]
  have hunused : ({ s with lastId := self, lastThreadInfo := 0 } : Taskwide).records fresh.addr =
    none := hfree
  refine (run_bind (run_new haddr hunused)).trans ?_
  refine (run_bind (hset _ _)).trans ?_
  refine (run_bind (run_writeInfo (update_self _ _ _) _)).trans ?_
  refine (run_bind (run_modify _ _)).trans ?_
  rw [update_idem, ← hu, run_bind hcache]
  rfl

theorem get_stops (hself : self ≠ 0) {id : ThreadId}
    (hid : (if id = 0 then source else id) = self) (hh : h = 0 ∨ h ∈ hs) {fresh : Allocation}
    (hused : fresh.addr = 0 ∨ (s.records fresh.addr).isSome = true) :
    Stops (intrGetThreadInfo source id h true fresh) s := by
  obtain ⟨table, htable, hlookup⟩ := hat.lookup
  rw [hat.entry_none] at hlookup
  have hset : Interrupt.setCache self ((table.lookup self).getD 0) s =
      .ok ((), { s with lastId := self, lastThreadInfo := 0 }) := by
    rw [hlookup]
    rfl
  rw [Stops, intrGetThreadInfo, run_get, hid, if_neg (hat.uncached hh),
    if_neg (hat.lastId_ne hself), run_bind (run_hashTable htable), run_bind hset, hlookup]
  have hstop : Stops (new fresh) { s with lastId := self, lastThreadInfo := 0 } := stops_new hused
  exact hstop.bind _

end

end At

end MachUS.Interrupt
