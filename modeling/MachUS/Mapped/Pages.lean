import MachUS.Mapped.Manager

namespace MachUS.Mapped

open Bool List
open Io (Dlong)

namespace Manager

variable {p : PageSize} {m n : Manager} {e : Cleaning} {r : PageRequest} {w : PageOut} {a : ℤ}

theorem within_iff {offset length : ℕ} :
    within offset length a = true ↔ (offset : ℤ) ≤ a ∧ a < offset + length := by
  rw [within, and_eq_true, decide_eq_true_eq, decide_eq_true_eq]

theorem touched_iff : m.touched a = true ↔ m.pager.minOffset ≤ a ∧ a < m.pager.maxOffset := by
  rw [touched, within_iff]
  omega

structure Alike (m n : Manager) : Prop where
  ready : n.ready = m.ready
  memLocked : n.memLocked = m.memLocked
  cleaning : n.mem.cleaning = m.mem.cleaning
  dirty : n.mem.dirty = m.mem.dirty
  objSize : n.mem.objSize = m.mem.objSize
  written : n.written = m.written
  port : n.pager.memoryObject = m.pager.memoryObject

theorem Alike.refl (m : Manager) : Alike m m := ⟨rfl, rfl, rfl, rfl, rfl, rfl, rfl⟩

theorem Alike.trans {k : Manager} (h : Alike m n) (h' : Alike n k) : Alike m k :=
  ⟨h'.ready.trans h.ready, h'.memLocked.trans h.memLocked, h'.cleaning.trans h.cleaning,
    h'.dirty.trans h.dirty, h'.objSize.trans h.objSize, h'.written.trans h.written, h'.port.trans h.port⟩

structure Paged (m : Manager) : Prop where
  queue : ∀ r ∈ m.pager.requests, m.Asks r
  granted : ∀ a, m.writable a = true →
    m.pager.donePageinWrite = true ∧ m.pager.memoryControl = true ∧ m.touched a = true
  dirtied : ∀ a, m.modified a = true → m.writable a = true

def Held (m : Manager) : Prop := ∀ a b, m.written a = some b →
  m.mem.space.object a = b ∧ (m.backing.data a = b ∨ m.modified a = true)

theorem Paged.unmodified (h : m.Paged)
    (hidle : m.pager.donePageinWrite = false ∨ m.pager.memoryControl = false) (a : ℤ) :
    m.modified a = false := by
  by_contra hmod
  obtain ⟨hwrite, hcontrol, -⟩ := h.granted a (h.dirtied a (eq_true_of_not_eq_false hmod))
  rcases hidle with hidle | hidle
  · exact false_ne_true (hidle.symm.trans hwrite)
  · exact false_ne_true (hidle.symm.trans hcontrol)

theorem Paged.satisfy (h : m.Paged) (hr : m.Asks r) : (m.iopSatisfyRequest r).Paged := by
  obtain ⟨hcontrol, hfits⟩ := hr
  have hadd : Word.add r.offset r.length = r.offset + r.length := Word.add_of_lt hfits
  have hmin : (m.iopSatisfyRequest r).pager.minOffset = min m.pager.minOffset r.offset := by
    simp only [iopSatisfyRequest]
    split_ifs <;> omega
  have hmax : (m.iopSatisfyRequest r).pager.maxOffset = max m.pager.maxOffset (r.offset + r.length) := by
    simp only [iopSatisfyRequest, hadd]
    split_ifs <;> omega
  refine ⟨h.queue, ?_, ?_⟩
  · intro a hwritable
    change (r.answered && r.write && within r.offset r.length a || m.writable a) = true at hwritable
    rw [touched_iff, hmin, hmax]
    rw [or_eq_true] at hwritable
    rcases hwritable with hnew | hold
    · rw [and_eq_true, and_eq_true, within_iff] at hnew
      obtain ⟨⟨-, hwrite⟩, hwithin⟩ := hnew
      refine ⟨?_, hcontrol, by omega⟩
      change (r.write || _) = true
      rw [hwrite, Bool.true_or]
    · obtain ⟨hwrite, -, htouched⟩ := h.granted a hold
      rw [touched_iff] at htouched
      refine ⟨?_, hcontrol, by omega⟩
      change (r.write || m.pager.donePageinWrite) = true
      rw [hwrite, Bool.or_true]
  · intro a hmod
    change (_ || m.writable a) = true
    rw [h.dirtied a hmod, Bool.or_true]

theorem Held.satisfy (h : m.Held) : (m.iopSatisfyRequest r).Held := by
  intro a b hb
  obtain ⟨hobject, hstored⟩ := h a b hb
  refine ⟨?_, hstored⟩
  change m.supplied r a = b
  unfold supplied
  split_ifs with hread
  · rw [and_eq_true, not_eq_true'] at hread
    rcases hstored with hstored | hmod
    · exact hstored
    · exact absurd (hread.2.symm.trans hmod) false_ne_true
  · exact hobject

structure Serviced (m n : Manager) : Prop extends Alike m n where
  paged : n.Paged
  held : m.Held → n.Held
  backing : n.backing = m.backing
  modified : n.modified = m.modified
  state : n.pager.state = m.pager.state
  control : n.pager.memoryControl = m.pager.memoryControl

theorem Paged.serviced (h : m.Paged) : Serviced m m :=
  ⟨.refl m, h, id, rfl, rfl, rfl, rfl⟩

section

variable (h : Serviced m n) (hr : m.Asks r)

include h hr

theorem Serviced.satisfy : Serviced m (n.iopSatisfyRequest r) := by
  refine ⟨h.toAlike.trans ⟨rfl, rfl, rfl, rfl, rfl, rfl, rfl⟩, h.paged.satisfy ?_, fun hm => (h.held hm).satisfy,
    h.backing, h.modified, h.state, h.control⟩
  exact ⟨h.control.trans hr.1, hr.2⟩

theorem Serviced.enqueue : Serviced m (n.iopEnqueueRequest r) := by
  refine ⟨h.toAlike.trans ⟨rfl, rfl, rfl, rfl, rfl, rfl, rfl⟩, ⟨?_, h.paged.granted, h.paged.dirtied⟩, h.held,
    h.backing, h.modified, h.state, h.control⟩
  intro q hq
  change q ∈ n.pager.requests ++ [r] at hq
  rw [mem_append, mem_singleton] at hq
  rcases hq with hq | rfl
  · exact h.paged.queue q hq
  · exact ⟨h.control.trans hr.1, hr.2⟩

theorem Serviced.dataRequest : Serviced m (n.moDataRequest r) := by
  unfold moDataRequest
  split_ifs
  · exact h.satisfy hr
  · exact h.enqueue hr

end

theorem Paged.dataRequests (h : m.Paged) {rs : List PageRequest} (hrs : ∀ r ∈ rs, m.Asks r) :
    Serviced m (rs.foldl moDataRequest m) :=
  foldlRecOn rs moDataRequest h.serviced fun _ hn r hr => hn.dataRequest (hrs r hr)

theorem Paged.requests (h : m.Paged) : Serviced m (m.pager.requests.foldl iopSatisfyRequest m) :=
  foldlRecOn m.pager.requests iopSatisfyRequest h.serviced fun _ hn r hr => hn.satisfy (h.queue r hr)

theorem Paged.resume (h : m.Paged) : Alike m m.iopResume ∧ m.iopResume.Paged ∧
    (m.Held → m.iopResume.Held) ∧ m.iopResume.backing = m.backing ∧ m.iopResume.modified = m.modified ∧
    (m.pager.state = .frozen → m.iopResume.pager.state = .ready) := by
  unfold iopResume
  split_ifs with hfrozen
  · exact ⟨.refl m, h, id, rfl, rfl, fun hstate => (hfrozen hstate).elim⟩
  · have hdone := h.requests
    refine ⟨hdone.toAlike.trans ⟨rfl, rfl, rfl, rfl, rfl, rfl, rfl⟩, ⟨?_, hdone.paged.granted, hdone.paged.dirtied⟩,
      hdone.held, hdone.backing, hdone.modified, fun _ => rfl⟩
    intro r hr
    cases hr

structure Returned (m : Manager) (ws : List PageOut) (n : Manager) : Prop extends Alike m n where
  held : m.Held → n.Held
  writable : ∀ a, n.writable a = true → m.writable a = true
  modified : ∀ a, n.modified a = true ↔
    m.modified a = true ∧ ∀ w ∈ ws, within w.offset w.length a = false
  dirtied : ∀ a, n.modified a = true → n.writable a = true
  state : n.pager.state = m.pager.state
  control : n.pager.memoryControl = m.pager.memoryControl
  minOffset : n.pager.minOffset = m.pager.minOffset
  maxOffset : n.pager.maxOffset = m.pager.maxOffset
  requests : n.pager.requests = m.pager.requests
  donePageinWrite : n.pager.donePageinWrite = m.pager.donePageinWrite

theorem Paged.returnedNone (h : m.Paged) : Returned m [] m where
  toAlike := .refl m
  held := id
  writable := fun _ ha => ha
  modified := by simp
  dirtied := h.dirtied
  state := rfl
  control := rfl
  minOffset := rfl
  maxOffset := rfl
  requests := rfl
  donePageinWrite := rfl

theorem moDataWrite_of_ne (hstate : m.pager.state ≠ .frozen) : m.moDataWrite w =
    { m with
      writable := fun a => !within w.offset w.length a && m.writable a
      modified := fun a => !within w.offset w.length a && m.modified a
      backing := ⟨w.size, fun a => if within w.offset w.length a then m.mem.space.object a
        else m.backing.data a⟩
      pager := { m.pager with donePageout := true } } := by
  simp only [moDataWrite]
  rw [if_neg hstate]

theorem Held.dataWrite (h : m.Held) (hstate : m.pager.state ≠ .frozen) : (m.moDataWrite w).Held := by
  rw [moDataWrite_of_ne hstate]
  intro a b hb
  obtain ⟨hobject, hstored⟩ := h a b hb
  refine ⟨hobject, ?_⟩
  by_cases hin : within w.offset w.length a = true
  · exact .inl ((if_pos hin).trans hobject)
  · refine hstored.imp (fun hdata => (if_neg hin).trans hdata) fun hmod => ?_
    change (!within w.offset w.length a && m.modified a) = true
    rw [eq_false_of_not_eq_true hin, hmod]
    rfl

theorem Returned.dataWrite {ws : List PageOut} (h : Returned m ws n) (hstate : m.pager.state ≠ .frozen) :
    Returned m (ws ++ [w]) (n.moDataWrite w) := by
  have hstate' : n.pager.state ≠ .frozen := fun hfrozen => hstate (h.state.symm.trans hfrozen)
  have heq := moDataWrite_of_ne (w := w) hstate'
  refine ⟨?_, fun hm => (h.held hm).dataWrite hstate', ?_, ?_, ?_, ?_, ?_, ?_, ?_, ?_, ?_⟩
  · rw [heq]
    exact h.toAlike.trans ⟨rfl, rfl, rfl, rfl, rfl, rfl, rfl⟩
  · intro a ha
    rw [heq] at ha
    exact h.writable a (and_eq_true _ _ ▸ ha).2
  · intro a
    rw [heq]
    rw [and_eq_true, not_eq_true', h.modified a, forall_mem_append, forall_mem_singleton]
    tauto
  · intro a ha
    rw [heq] at ha ⊢
    rw [and_eq_true] at ha ⊢
    exact ⟨ha.1, h.dirtied a ha.2⟩
  all_goals rw [heq]
  · exact h.state
  · exact h.control
  · exact h.minOffset
  · exact h.maxOffset
  · exact h.requests
  · exact h.donePageinWrite

theorem Paged.dataWrites (h : m.Paged) (hstate : m.pager.state ≠ .frozen) (ws : List PageOut) :
    Returned m ws (ws.foldl moDataWrite m) := by
  induction ws using reverseRecOn with
  | nil => exact h.returnedNone
  | append_singleton ws w ih =>
    rw [foldl_append]
    exact ih.dataWrite hstate

theorem Paged.setState (h : m.Paged) {s : PagerState} : (m.setState s).Paged :=
  ⟨h.queue, h.granted, h.dirtied⟩

theorem Paged.terminate (h : m.Paged) (hnone : ∀ a, m.writable a = false) : m.moTerminate.Paged := by
  refine ⟨?_, ?_, h.dirtied⟩
  · intro r hr
    cases hr
  · intro a ha
    exact absurd ((hnone a).symm.trans ha) false_ne_true

structure Still (m n : Manager) : Prop extends Alike m n where
  paged : n.Paged
  held : m.Held → n.Held
  unmodified : ∀ a, n.modified a = false
  state : n.pager.state = .frozen

theorem Paged.reclaim (h : m.Paged) (hstate : m.pager.state = .reclaiming)
    (hall : ∀ a, m.touched a = true → m.modified a = true →
      ∃ w ∈ e.returned, within w.offset w.length a = true) :
    Still m (m.reclaim e) ∧ ∀ a, (m.reclaim e).writable a = false := by
  have hne : m.pager.state ≠ .frozen := by
    rw [hstate]
    decide
  have hdone := h.dataWrites hne e.returned
  set n := e.returned.foldl moDataWrite m with hn
  have hmod : ∀ a, n.modified a = false := by
    intro a
    by_contra hmod
    obtain ⟨hmod, hout⟩ := (hdone.modified a).mp (eq_true_of_not_eq_false hmod)
    obtain ⟨w, hw, hin⟩ := hall a (h.granted a (h.dirtied a hmod)).2.2 hmod
    exact false_ne_true ((hout w hw).symm.trans hin)
  have hwritable : ∀ a, (!m.touched a && n.writable a) = false := by
    intro a
    by_contra hw
    obtain ⟨hout, hin⟩ := (and_eq_true _ _).mp (eq_true_of_not_eq_false hw)
    have htouch := (h.granted a (hdone.writable a hin)).2.2
    rw [htouch] at hout
    cases hout
  have hlocked : Paged { n with writable := fun a => !m.touched a && n.writable a } := by
    refine ⟨?_, ?_, ?_⟩
    · intro r hr
      rw [hdone.requests] at hr
      obtain ⟨hcontrol, hfits⟩ := h.queue r hr
      exact ⟨hdone.control.trans hcontrol, hfits⟩
    · intro a ha
      exact absurd ((hwritable a).symm.trans ha) false_ne_true
    · intro a ha
      exact absurd ((hmod a).symm.trans ha) false_ne_true
  have hreclaiming : n.pager.state = .reclaiming := hdone.state.trans hstate
  unfold Manager.reclaim
  rw [← hn]
  by_cases hend : e.terminated = true
  · simp only [if_pos hend]
    refine ⟨⟨hdone.toAlike.trans ⟨rfl, rfl, rfl, rfl, rfl, rfl, rfl⟩, hlocked.terminate hwritable, hdone.held, hmod,
      if_pos hreclaiming⟩, hwritable⟩
  · simp only [if_neg hend, moLockCompleted, if_pos hreclaiming]
    exact ⟨⟨hdone.toAlike.trans ⟨rfl, rfl, rfl, rfl, rfl, rfl, rfl⟩, hlocked.setState, hdone.held, hmod, rfl⟩,
      hwritable⟩

theorem Paged.iopClean_cases (h : m.Paged) (hqueued : ∀ r ∈ e.queued, m.Asks r)
    (hall : ∀ a, m.touched a = true → m.modified a = true →
      ∃ w ∈ e.returned, within w.offset w.length a = true) :
    (m.pager.state ≠ .ready ∧ m.iopClean e = (m, .error .objectBusy)) ∨
    (m.pager.state = .ready ∧ ∃ n k, m.pager.donePageinWrite = true ∧ m.pager.memoryControl = true ∧
      e.lock = some k ∧ m.iopClean e = (n, .error (.kernel k)) ∧ Alike m n ∧ n.Paged ∧
      (m.Held → n.Held) ∧ n.pager.state = .ready) ∨
    (m.pager.state = .ready ∧ ∃ n d,
      (m.pager.donePageinWrite = true → m.pager.memoryControl = true → e.lock = none) ∧
      m.iopClean e = (n, .ok d) ∧ Still m n) := by
  by_cases hready : m.pager.state = .ready
  swap
  · exact .inl ⟨hready, by rw [iopClean, if_pos hready]⟩
  have hnot : ¬ m.pager.state ≠ .ready := fun hne => hne hready
  by_cases hidle : m.pager.donePageinWrite = false ∨ m.pager.memoryControl = false
  · have hdone := (h.setState (s := .frozen)).dataRequests hqueued
    refine .inr (.inr ⟨hready, _, _, ?_, by rw [iopClean, if_neg hnot, if_pos hidle], ?_⟩)
    · intro hwrite hcontrol
      rw [hwrite, hcontrol] at hidle
      cases hidle <;> contradiction
    · have hbegin : Alike m (m.setState .frozen) := ⟨rfl, rfl, rfl, rfl, rfl, rfl, rfl⟩
      refine ⟨hbegin.trans hdone.toAlike, hdone.paged, hdone.held, ?_, hdone.state⟩
      intro a
      rw [hdone.modified]
      exact h.unmodified hidle a
  · have hdone := (h.setState (s := .reclaiming)).dataRequests hqueued
    obtain ⟨hwrite, hcontrol⟩ := not_or.mp hidle
    have hbegin : Alike m (m.setState .reclaiming) := ⟨rfl, rfl, rfl, rfl, rfl, rfl, rfl⟩
    set n := e.queued.foldl moDataRequest (m.setState .reclaiming) with hn
    have hasked : Alike m n := hbegin.trans hdone.toAlike
    cases hlock : e.lock with
    | some k =>
      refine .inr (.inl ⟨hready, n.setState .ready, k, eq_true_of_not_eq_false hwrite,
        eq_true_of_not_eq_false hcontrol, rfl, ?_, hasked.trans ⟨rfl, rfl, rfl, rfl, rfl, rfl, rfl⟩,
        hdone.paged.setState, hdone.held, rfl⟩)
      rw [iopClean, if_neg hnot, if_neg hidle, hlock]
    | none =>
      have hpages : ∀ a, n.touched a = true → n.modified a = true →
          ∃ w ∈ e.returned, within w.offset w.length a = true := by
        intro a _ hmod
        rw [hdone.modified] at hmod
        exact hall a (h.granted a (h.dirtied a hmod)).2.2 hmod
      obtain ⟨hstill, hlocked⟩ := hdone.paged.reclaim hdone.state hpages
      refine .inr (.inr ⟨hready, _, _, fun _ _ => rfl, by rw [iopClean, if_neg hnot, if_neg hidle, hlock], ?_⟩)
      refine ⟨(hasked.trans hstill.toAlike).trans ⟨rfl, rfl, rfl, rfl, rfl, rfl, rfl⟩,
        ⟨hstill.paged.queue, ?_, hstill.paged.dirtied⟩, fun hm => hstill.held (hdone.held hm),
        hstill.unmodified, hstill.state⟩
      intro a ha
      exact absurd ((hlocked a).symm.trans ha) false_ne_true

end Manager

end MachUS.Mapped
