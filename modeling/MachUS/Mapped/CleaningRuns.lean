import MachUS.Mapped.Pages

namespace MachUS.Mapped

open Memory Bool
open Io (Dlong)

namespace Manager

variable {p : PageSize} {m n : Manager} {e : Cleaning} {act : Act} {acts : List Act} {size : Dlong}
  {flush : Option ℕ}

structure Steady (m : Manager) : Prop extends Paged m where
  ready : m.ready = true
  memLocked : m.memLocked = false
  cleaning : m.mem.cleaning = false
  port : m.pager.memoryObject = true
  begun : m.pager.memoryControl = true → m.pager.state = .ready
  thawed : m.pager.state = .ready ∨ m.pager.state = .expectInit

structure Faithful (m : Manager) : Prop where
  held : m.Held
  settled : m.mem.dirty = false → m.backing.size = m.mem.objSize ∧ ∀ a, m.modified a = false

def prepared (m : Manager) : Manager :=
  { m with locked := true, memLocked := true, mem := { m.mem with cleaning := true } }

def released (m : Manager) : Manager :=
  { m with locked := false, memLocked := false, mem := { m.mem with cleaning := false, dirty := false } }

theorem complete_unlock (h : n.mem.cleaning = true) : n.ioCleanComplete.unlock = n.released := by
  rw [ioCleanComplete, if_neg (by simp [h])]
  rfl

theorem ioCleanPrepare_eq (h : m.mem.cleaning = false) :
    m.lock.ioCleanPrepare = (m.prepared, .ok (m.mem.dirty, m.mem.objSize)) := by
  rw [ioCleanPrepare, if_neg (by simp [lock, h])]
  rfl

theorem ioClean_clean (hready : m.ready = true) (hcleaning : m.mem.cleaning = false)
    (hdirty : m.mem.dirty = false) : m.ioClean e = (m.prepared.released, none) := by
  rw [ioClean, if_neg (by simp [hready]), ioCleanPrepare_eq hcleaning]
  simp only [hdirty, if_true]
  rfl

theorem ioClean_error {err : IoError} (hready : m.ready = true) (hcleaning : m.mem.cleaning = false)
    (hdirty : m.mem.dirty = true) (h : m.prepared.iopClean e = (n, .error err)) :
    m.ioClean e = (n.ioCleanComplete.unlock, some err) := by
  rw [ioClean, if_neg (by simp [hready]), ioCleanPrepare_eq hcleaning]
  simp only [hdirty, true_eq_false, if_false, h]

theorem ioClean_ok {d : Bool} (hready : m.ready = true) (hcleaning : m.mem.cleaning = false)
    (hdirty : m.mem.dirty = true) (h : m.prepared.iopClean e = (n, .ok d)) :
    m.ioClean e = ((n.backingSetSize e m.mem.objSize).1.iopResume.ioCleanComplete.unlock,
      (n.backingSetSize e m.mem.objSize).2) := by
  rw [ioClean, if_neg (by simp [hready]), ioCleanPrepare_eq hcleaning]
  simp only [hdirty, true_eq_false, if_false, h]

theorem Still.backingSetSize (h : Still m n) (size : Dlong) (hset : e.setSize = none) :
    (n.backingSetSize e size).1.Paged ∧ (m.Held → (n.backingSetSize e size).1.Held) := by
  rw [Manager.backingSetSize, hset]
  refine ⟨⟨h.paged.queue, h.paged.granted, h.paged.dirtied⟩, fun hm a b hb => ?_⟩
  change (if a < size.value then n.written a else none) = some b at hb
  split_ifs at hb with hlt
  obtain ⟨hobject, hstored⟩ := h.held hm a b hb
  refine ⟨hobject, .inl ?_⟩
  change (if a < size.value then n.backing.data a else e.beyond a) = b
  rw [if_pos hlt]
  rcases hstored with hstored | hmod
  · exact hstored
  · exact absurd ((h.unmodified a).symm.trans hmod) false_ne_true

structure Emptied (m n : Manager) : Prop where
  ready : n.ready = true
  objSize : n.mem.objSize = m.mem.objSize
  written : n.written = (m.cut m.mem.objSize).written
  paged : n.Paged
  held : m.Held → n.Held
  unmodified : ∀ a, n.modified a = false
  size : n.backing.size = m.mem.objSize
  port : n.pager.memoryObject = m.pager.memoryObject
  state : n.pager.state = .ready

theorem Steady.ioClean_cases (h : m.Steady) (hallowed : m.Allowed p (.clean e)) :
    (m.mem.dirty = false ∧ m.ioClean e = (m.prepared.released, none)) ∨
    (¬ m.Untroubled e ∧ ∃ n err, m.ioClean e = (n.released, some err) ∧ Alike m.prepared n ∧ n.Paged ∧
      n.pager.state = m.pager.state ∧ (n.pager.memoryControl = true → n.pager.state = .ready)) ∨
    (m.Untroubled e ∧ m.pager.state = .ready ∧ ∃ n, m.ioClean e = (n.released, none) ∧ Emptied m n) := by
  by_cases hdirty : m.mem.dirty = true
  swap
  · rw [Bool.not_eq_true] at hdirty
    exact .inl ⟨hdirty, ioClean_clean h.ready h.cleaning hdirty⟩
  obtain ⟨hqueued, hall⟩ := hallowed
  have hpaged : m.prepared.Paged := ⟨h.queue, h.granted, h.dirtied⟩
  rcases hpaged.iopClean_cases hqueued hall with ⟨hbusy, hend⟩ |
      ⟨hstate, n, k, hwrite, hcontrol, hlock, hend, halike, hn, -, hready⟩ |
      ⟨hstate, n, d, hlock, hend, hstill⟩
  · refine .inr (.inl ⟨fun huntroubled => hbusy (huntroubled hdirty).1, m.prepared, .objectBusy, ?_,
      .refl _, hpaged, rfl, h.begun⟩)
    rw [ioClean_error h.ready h.cleaning hdirty hend, complete_unlock rfl]
  · refine .inr (.inl ⟨?_, n, .kernel k, ?_, halike, hn, hready.trans hstate.symm, fun _ => hready⟩)
    · intro huntroubled
      have hnone := (huntroubled hdirty).2.1 hwrite hcontrol
      rw [hlock] at hnone
      cases hnone
    · rw [ioClean_error h.ready h.cleaning hdirty hend, complete_unlock halike.cleaning]
  · have hclean := ioClean_ok h.ready h.cleaning hdirty hend
    cases hset : e.setSize with
    | some k =>
      have hfailed : n.backingSetSize e m.mem.objSize = (n, some (.kernel k)) := by
        rw [Manager.backingSetSize, hset]
      rw [hfailed] at hclean
      obtain ⟨hresumed, hpages, -, -, -, hthaw⟩ := hstill.paged.resume
      have halike := hstill.toAlike.trans hresumed
      refine .inr (.inl ⟨?_, n.iopResume, .kernel k, ?_, halike, hpages, (hthaw hstill.state).trans hstate.symm,
        fun _ => hthaw hstill.state⟩)
      · intro huntroubled
        have hnone := (huntroubled hdirty).2.2
        rw [hset] at hnone
        cases hnone
      · rw [hclean, complete_unlock halike.cleaning]
    | none =>
      have hdone : n.backingSetSize e m.mem.objSize = ({ n.cut m.mem.objSize with
          backing := ⟨m.mem.objSize, fun a => if a < m.mem.objSize.value then n.backing.data a
            else e.beyond a⟩ }, none) := by
        rw [Manager.backingSetSize, hset]
      obtain ⟨hsized, hheld⟩ := hstill.backingSetSize m.mem.objSize hset
      rw [hdone] at hclean hsized hheld
      obtain ⟨hresumed, hpages, hkept, hbacking, hmod, hthaw⟩ := hsized.resume
      refine .inr (.inr ⟨fun _ => ⟨hstate, hlock, hset⟩, hstate, _, ?_, ?_, ?_, ?_, hpages,
        fun hm => hkept (hheld hm), ?_, ?_, hresumed.port.trans hstill.port, hthaw hstill.state⟩)
      · rw [hclean, complete_unlock (hresumed.cleaning.trans hstill.cleaning)]
      · exact hresumed.ready.trans (hstill.ready.trans h.ready)
      · exact hresumed.objSize.trans hstill.objSize
      · rw [hresumed.written]
        change (fun a : ℤ => if a < m.mem.objSize.value then n.written a else none) = _
        rw [hstill.written]
        rfl
      · intro a
        rw [hmod]
        exact hstill.unmodified a
      · rw [hbacking]

theorem Steady.released {n : Manager} (hready : n.ready = true) (h : n.Paged)
    (hport : n.pager.memoryObject = true)
    (hbegun : n.pager.memoryControl = true → n.pager.state = .ready)
    (hthawed : n.pager.state = .ready ∨ n.pager.state = .expectInit) : n.released.Steady :=
  ⟨⟨h.queue, h.granted, h.dirtied⟩, hready, rfl, rfl, hport, hbegun, hthawed⟩

theorem Steady.clean (h : m.Steady) (hallowed : m.Allowed p (.clean e)) : (m.ioClean e).1.Steady := by
  rcases h.ioClean_cases hallowed with ⟨-, hend⟩ | ⟨-, n, err, hend, halike, hn, hstate, hbegun⟩ |
    ⟨-, -, n, hend, hn⟩
  · rw [hend]
    exact .released h.ready ⟨h.queue, h.granted, h.dirtied⟩ h.port h.begun h.thawed
  · rw [hend]
    exact .released (halike.ready.trans h.ready) hn (halike.port.trans h.port) hbegun (hstate ▸ h.thawed)
  · rw [hend]
    exact .released hn.ready hn.paged (hn.port.trans h.port) (fun _ => hn.state) (.inl hn.state)

theorem Faithful.clean (hm : m.Faithful) (h : m.Steady) (hallowed : m.Allowed p (.clean e))
    (huntroubled : m.Untroubled e) : (m.ioClean e).1.Faithful ∧ m.Cleans e := by
  rcases h.ioClean_cases hallowed with ⟨hdirty, hend⟩ | ⟨hnot, -⟩ | ⟨-, hstate, n, hend, hn⟩
  · obtain ⟨hsize, hmod⟩ := hm.settled hdirty
    refine ⟨by rw [hend]; exact ⟨hm.held, fun _ => ⟨hsize, hmod⟩⟩, ?_, ?_, ?_, ?_, ?_⟩
    all_goals rw [hend]
    · refine fun _ => ⟨hsize, fun a b hb _ => ?_⟩
      rcases (hm.held a b hb).2 with hstored | hmodified
      · exact hstored
      · exact absurd ((hmod a).symm.trans hmodified) false_ne_true
    · exact fun err herr => absurd herr (by simp)
    · exact h.memLocked.symm
    · exact h.cleaning.symm
    · rfl
  · exact (hnot huntroubled).elim
  · have hheld := hn.held hm.held
    refine ⟨by rw [hend]; exact ⟨hheld, fun _ => ⟨hn.size.trans hn.objSize.symm, hn.unmodified⟩⟩,
      ?_, ?_, ?_, ?_, ?_⟩
    all_goals rw [hend]
    · refine fun _ => ⟨hn.size, fun a b hb hlt => ?_⟩
      have hkept : n.written a = some b := by
        rw [hn.written]
        exact (if_pos hlt).trans hb
      rcases (hheld a b hkept).2 with hstored | hmodified
      · exact hstored
      · exact absurd ((hn.unmodified a).symm.trans hmodified) false_ne_true
    · exact fun err herr => absurd herr (by simp)
    · exact h.memLocked.symm
    · exact h.cleaning.symm
    · exact hn.state.trans hstate.symm

theorem Steady.untroubled (h : m.Steady) (hallowed : m.Allowed p (.clean e)) (hcleans : m.Cleans e) :
    m.Untroubled e := by
  rcases h.ioClean_cases hallowed with ⟨hdirty, -⟩ | ⟨-, n, err, hend, -⟩ | ⟨huntroubled, -⟩
  · exact fun htrue => absurd (hdirty.symm.trans htrue) false_ne_true
  · have hretried := hcleans.retried err (by rw [hend])
    rw [hend] at hretried
    cases hretried
  · exact huntroubled

theorem Steady.call (h : m.Steady) {x : Event} (hallowed : m.Allowed p (.call x)) :
    (m.call p x).Steady := by
  obtain ⟨hcall, -, hwritable⟩ := hallowed
  unfold Manager.call
  cases hserve : m.mem.serve p x with
  | none => exact h
  | some yr =>
    obtain ⟨y, r⟩ := yr
    have hleaves := MfMem.serve_leaves hcall hserve
    refine ⟨⟨h.queue, h.granted, fun a ha => ?_⟩, h.ready, h.memLocked, hleaves.cleaning.trans h.cleaning,
      h.port, h.begun, h.thawed⟩
    rw [or_eq_true] at ha
    exact ha.elim (hwritable a) (h.dirtied a)

theorem Faithful.call (hm : m.Faithful) {x : Event} (hcall : Inherited x) : (m.call p x).Faithful := by
  unfold Manager.call
  cases hserve : m.mem.serve p x with
  | none => exact hm
  | some yr =>
    obtain ⟨y, r⟩ := yr
    have hleaves := MfMem.serve_leaves hcall hserve
    refine ⟨fun a b hb => ?_, fun hclean => ?_⟩
    · change (if m.mem.stores p x a then some (y.space.object a) else m.written a) = some b at hb
      change y.space.object a = b ∧ (m.backing.data a = b ∨ (m.mem.stores p x a || m.modified a) = true)
      split_ifs at hb with hstores
      · rw [hstores, Bool.true_or]
        exact ⟨Option.some.inj hb, .inr rfl⟩
      · rw [Bool.not_eq_true] at hstores
        rw [hleaves.object a hstores, hstores, Bool.false_or]
        exact hm.held a b hb
    · obtain ⟨hdirty, hsize, hnone⟩ := hleaves.clean hclean
      obtain ⟨hbacking, hmod⟩ := hm.settled hdirty
      refine ⟨hbacking.trans hsize.symm, fun a => ?_⟩
      change (m.mem.stores p x a || m.modified a) = false
      rw [hnone, hmod]
      rfl

def resized (m : Manager) (size : Dlong) : Manager :=
  { m.lock.cut size with mem := { m.mem with objSize := size, modified := true, dirty := true } }

theorem ioSetSize_cases (p : PageSize) (m : Manager) (size : Dlong) (flush : Option ℕ) :
    (m.ioSetSize p size flush).1 = m.lock.unlock ∨
    (m.ioSetSize p size flush).1 = ((m.resized size).iopFlush (p.round size.toUInt) flush).1.unlock := by
  unfold Manager.ioSetSize MfMem.ioSetSize
  by_cases haccess : m.lock.mem.access.write = false
  · rw [if_pos haccess]
    exact .inl rfl
  · rw [if_neg haccess]
    exact .inr rfl

theorem iopFlush_cases (m : Manager) (first : ℕ) (flush : Option ℕ) :
    (m.iopFlush first flush).1 = m ∨ flush = none ∧ (m.iopFlush first flush).1 =
      { m.setObject (m.discarded first) with
        writable := fun a => !m.flushes first a && m.writable a
        modified := fun a => !m.flushes first a && m.modified a } := by
  unfold iopFlush
  split_ifs
  · cases flush with
    | some k => exact .inl rfl
    | none => exact .inr ⟨rfl, rfl⟩
  · exact .inl rfl

theorem Steady.setSize (h : m.Steady) : (m.ioSetSize p size flush).1.Steady := by
  rcases ioSetSize_cases p m size flush with heq | heq
  · rw [heq]
    exact ⟨⟨h.queue, h.granted, h.dirtied⟩, h.ready, h.memLocked, h.cleaning, h.port, h.begun, h.thawed⟩
  rw [heq]
  rcases iopFlush_cases (m.resized size) (p.round size.toUInt) flush with heq | ⟨-, heq⟩
  · rw [heq]
    exact ⟨⟨h.queue, h.granted, h.dirtied⟩, h.ready, h.memLocked, h.cleaning, h.port, h.begun, h.thawed⟩
  · rw [heq]
    refine ⟨⟨h.queue, ?_, ?_⟩, h.ready, h.memLocked, h.cleaning, h.port, h.begun, h.thawed⟩
    · intro a ha
      exact h.granted a ((and_eq_true _ _).mp ha).2
    · intro a ha
      obtain ⟨hkept, hmod⟩ := (and_eq_true _ _).mp ha
      exact (and_eq_true _ _).mpr ⟨hkept, h.dirtied a hmod⟩

theorem Held.resized (hm : m.Held) : (m.resized size).Held := by
  intro a b hb
  change (if a < size.value then m.written a else none) = some b at hb
  split_ifs at hb
  exact hm a b hb

theorem Faithful.setSize (hm : m.Faithful) (hspared : m.Spared p size flush) :
    (m.ioSetSize p size flush).1.Faithful := by
  rcases ioSetSize_cases p m size flush with heq | heq
  · rw [heq]
    exact ⟨hm.held, hm.settled⟩
  rw [heq]
  rcases iopFlush_cases (m.resized size) (p.round size.toUInt) flush with heq | ⟨hflush, heq⟩
  · rw [heq]
    exact ⟨hm.held.resized, fun hclean => Bool.noConfusion hclean⟩
  · rw [heq]
    refine ⟨fun a b hb => ?_, fun hclean => Bool.noConfusion hclean⟩
    obtain ⟨hobject, hstored⟩ := hm.held.resized a b hb
    change (if m.flushes (p.round size.toUInt) a then m.backing.data a else m.mem.space.object a) = b ∧
      (m.backing.data a = b ∨ (!m.flushes (p.round size.toUInt) a && m.modified a) = true)
    split_ifs with hgone
    · change (if a < size.value then m.written a else none) = some b at hb
      split_ifs at hb with hlt
      have hdata := hspared hflush a b hb hlt hgone
      exact ⟨hdata, .inl hdata⟩
    · rw [Bool.not_eq_true] at hgone
      rw [hgone]
      exact ⟨hobject, hstored⟩

theorem Steady.fault (h : m.Steady) {r : PageRequest} (hr : m.Asks r) : (m.moDataRequest r).Steady := by
  have hdone := h.toPaged.serviced.dataRequest hr
  refine ⟨hdone.paged, hdone.ready.trans h.ready, hdone.memLocked.trans h.memLocked,
    hdone.cleaning.trans h.cleaning, hdone.port.trans h.port, ?_, hdone.state ▸ h.thawed⟩
  rw [hdone.control, hdone.state]
  exact h.begun

theorem Steady.unfrozen (h : m.Steady) : m.pager.state ≠ .frozen ∧ m.pager.state ≠ .reclaiming := by
  rcases h.thawed with hstate | hstate
  all_goals
    rw [hstate]
    decide

theorem Steady.pageOut (h : m.Steady) {w : PageOut} : (m.moDataWrite w).Steady := by
  have hne := h.unfrozen.1
  have heq := moDataWrite_of_ne (w := w) hne
  have hdone := h.toPaged.returnedNone.dataWrite (w := w) hne
  refine ⟨⟨?_, ?_, hdone.dirtied⟩, hdone.ready.trans h.ready, hdone.memLocked.trans h.memLocked,
    hdone.cleaning.trans h.cleaning, hdone.port.trans h.port, ?_, hdone.state ▸ h.thawed⟩
  · rw [heq]
    exact h.queue
  · intro a ha
    have hgranted := h.granted a (hdone.writable a ha)
    rw [heq]
    exact hgranted
  · rw [hdone.control, hdone.state]
    exact h.begun

theorem Faithful.pageOut (hm : m.Faithful) (h : m.Steady) {w : PageOut}
    (hallowed : m.Allowed p (.pageOut w)) : (m.moDataWrite w).Faithful := by
  have hne := h.unfrozen.1
  have hdone := h.toPaged.returnedNone.dataWrite (w := w) hne
  refine ⟨hdone.held hm.held, fun hclean => ?_⟩
  obtain ⟨a, -, hmod⟩ := hallowed
  obtain ⟨-, hnone⟩ := hm.settled (hdone.dirty ▸ hclean)
  exact absurd ((hnone a).symm.trans hmod) false_ne_true

theorem Steady.init (h : m.Steady) (hallowed : m.Allowed p .init) : m.moInit.Steady := by
  obtain ⟨-, hcontrol⟩ := hallowed
  unfold moInit
  rw [if_neg (by simp [hcontrol])]
  refine ⟨⟨fun r hr => ⟨rfl, (h.queue r hr).2⟩, ?_, h.dirtied⟩, h.ready, h.memLocked, h.cleaning, h.port,
    fun _ => rfl, .inl rfl⟩
  intro a ha
  exact absurd (hcontrol.symm.trans (h.granted a ha).2.1) false_ne_true

theorem Steady.terminate (h : m.Steady) (hallowed : m.Allowed p .terminate) : m.moTerminate.Steady := by
  have hstate : m.moTerminate.pager.state = m.pager.state := if_neg h.unfrozen.2
  exact ⟨h.toPaged.terminate hallowed.2, h.ready, h.memLocked, h.cleaning, h.port,
    fun hcontrol => Bool.noConfusion hcontrol, hstate ▸ h.thawed⟩

theorem Faithful.init (hm : m.Faithful) : m.moInit.Faithful := by
  unfold moInit
  split_ifs
  · exact hm
  · exact ⟨hm.held, hm.settled⟩

theorem Steady.getPort (h : m.Steady) : m.iopGetPort = m := by
  rw [Manager.iopGetPort, Pager.iopGetPort, if_neg (by simp [h.port])]

theorem Steady.perform (h : m.Steady) (hallowed : m.Allowed p act) : (m.perform p act).Steady := by
  cases act with
  | call x => exact h.call hallowed
  | setSize size flush => exact h.setSize
  | clean e => exact h.clean hallowed
  | getPort =>
    change m.iopGetPort.Steady
    rw [h.getPort]
    exact h
  | init => exact h.init hallowed
  | terminate => exact h.terminate hallowed
  | fault r => exact h.fault hallowed
  | pageOut w => exact h.pageOut

def Favours (p : PageSize) (m : Manager) : Act → Prop
  | .clean e => m.Untroubled e
  | .setSize size flush => m.Spared p size flush
  | _ => True

theorem Faithful.perform (hm : m.Faithful) (h : m.Steady) (hallowed : m.Allowed p act)
    (hfavours : m.Favours p act) : (m.perform p act).Faithful := by
  cases act with
  | call x => exact hm.call hallowed.1
  | setSize size flush => exact hm.setSize hfavours
  | clean e => exact (hm.clean h hallowed hfavours).1
  | getPort =>
    change m.iopGetPort.Faithful
    rw [h.getPort]
    exact hm
  | init => exact hm.init
  | terminate => exact ⟨hm.held, hm.settled⟩
  | fault r =>
    have hdone := h.toPaged.serviced.dataRequest hallowed
    refine ⟨hdone.held hm.held, fun hclean => ?_⟩
    change (m.moDataRequest r).backing.size = (m.moDataRequest r).mem.objSize ∧
      ∀ a, (m.moDataRequest r).modified a = false
    rw [hdone.backing, hdone.objSize, hdone.modified]
    exact hm.settled (hdone.dirty.symm.trans hclean)
  | pageOut w => exact hm.pageOut h hallowed

theorem start_steady (size : Dlong) (object : Mem) : (start size object).Steady :=
  ⟨⟨by rintro r ⟨⟩, by rintro a ⟨⟩, by rintro a ⟨⟩⟩, rfl, rfl, rfl, rfl, by rintro ⟨⟩, .inr rfl⟩

theorem start_faithful (size : Dlong) (object : Mem) : (start size object).Faithful :=
  ⟨by rintro a b ⟨⟩, fun _ => ⟨rfl, fun _ => rfl⟩⟩

theorem Faithful.run (hm : m.Faithful) (h : m.Steady) (hlegal : m.Legal p acts)
    (hfavours : Each p (fun n act => n.Favours p act) m acts) : Each p Sound m acts := by
  induction acts generalizing m with
  | nil => trivial
  | cons act acts ih =>
    refine ⟨?_, ih (hm.perform h hlegal.1 hfavours.1) (h.perform hlegal.1) hlegal.2 hfavours.2⟩
    cases act with
    | clean e => exact (hm.clean h hlegal.1 hfavours.1).2
    | _ => trivial

theorem Steady.run (h : m.Steady) (hlegal : m.Legal p acts) (hsound : Each p Sound m acts) :
    Each p (fun n act => ∀ e, act = .clean e → n.Untroubled e) m acts := by
  induction acts generalizing m with
  | nil => trivial
  | cons act acts ih =>
    refine ⟨?_, ih (h.perform hlegal.1) hlegal.2 hsound.2⟩
    rintro e rfl
    exact h.untroubled hlegal.1 hsound.1

theorem cleaning_retried (p : PageSize) (size : Dlong) (object : Mem)
    (hlegal : (start size object).Legal p acts) :
    (Each p (fun m act => m.Favours p act) (start size object) acts →
      Each p Sound (start size object) acts) ∧
    (Each p Sound (start size object) acts →
      Each p (fun m act => ∀ e, act = .clean e → m.Untroubled e) (start size object) acts) :=
  ⟨(start_faithful size object).run (start_steady size object) hlegal,
    (start_steady size object).run hlegal⟩

namespace Sample

def pages : PageSize := ⟨12, by decide⟩

def quiet : Cleaning := ⟨none, [], false, [], none, fun _ => 0⟩

def stored : List Act :=
  [.init, .fault ⟨0, 4096, true, true, true⟩, .call ⟨.write ⟨false, false⟩ .zero [1, 2], .ok 4096⟩,
    .setSize (.ofUInt 1) none, .clean { quiet with returned := [⟨0, 4096, .zero⟩] }, .clean quiet]

def blank : Manager := start .zero fun _ => 0

theorem stored_legal : blank.Legal pages stored := by
  refine ⟨⟨rfl, rfl⟩, ⟨rfl, by decide⟩, ⟨trivial, rfl, ?_⟩, trivial, ⟨by rintro r ⟨⟩, ?_⟩, ⟨by rintro r ⟨⟩, ?_⟩,
    trivial⟩
  · intro a ha
    have hin : within 0 2 a = true := ha
    have hpage : within 0 4096 a = true := by
      rw [within_iff] at hin ⊢
      omega
    change (true && within 0 4096 a || false) = true
    rw [hpage]
    rfl
  · intro a ha _
    exact ⟨_, List.mem_singleton_self _, ha⟩
  · intro a ha hmod
    have hpage : within 0 4096 a = true := ha
    change (!within 0 4096 a && _) = true at hmod
    rw [hpage] at hmod
    cases hmod

theorem stored_favours : Each pages (fun m act => m.Favours pages act) blank stored := by
  refine ⟨trivial, trivial, trivial, ?_, fun _ => ⟨rfl, fun _ _ => rfl, rfl⟩, ?_, trivial⟩
  · intro _ a b _ _ hgone
    have hin : within 4096 0 a = true := hgone
    rw [within_iff] at hin
    omega
  · intro hdirty
    cases hdirty

theorem stored_cleaned : Each pages Sound blank stored :=
  (cleaning_retried pages .zero (fun _ => 0) stored_legal).1 stored_favours

def unset : List Act := [.init, .setSize (.ofUInt 5) none, .clean { quiet with setSize := some 28 }]

theorem unset_legal : blank.Legal pages unset :=
  ⟨⟨rfl, rfl⟩, trivial, ⟨by simp [quiet], fun a _ ha => Bool.noConfusion ha⟩, trivial⟩

theorem failed_clean_not_retried :
    ((unset.foldl (perform pages) blank).ioClean quiet).2 = none ∧
      ((unset.foldl (perform pages) blank).ioClean quiet).1.backing.size ≠ .ofUInt 5 ∧
      ¬ ∀ (p : PageSize) (size : Dlong) (object : Mem) (acts : List Act),
        (start size object).Legal p acts → Each p Sound (start size object) acts := by
  refine ⟨rfl, by decide, fun hclaim => ?_⟩
  have hsound := (hclaim pages .zero (fun _ => 0) unset unset_legal).2.2.1
  have hdirty := hsound.retried (.kernel 28) rfl
  exact Bool.noConfusion hdirty

end Sample

end Manager

end MachUS.Mapped
