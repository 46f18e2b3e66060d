import MachUS.Mapped.MfMem

namespace MachUS.Mapped

open Memory
open Io (Dlong)

namespace MfMem

variable (p : PageSize) (x : MfMem)

def locate (n : ℕ) (x : MfMem) (a : ℕ) : MfMem × Reply :=
  match x.space.live.find? fun w => w.Holds a n with
  | none => (x, .done)
  | some w => (x, .size (w.start + (a - w.addr)))

def found : Option (MfMem × Reply) → Option ℕ
  | some (_, .size a) => some a
  | _ => none

def storesAt (mode : IoMode) (s n : ℕ) (answer : Except ℕ ℕ) : Option (ℕ × ℕ) :=
  if x.access.write = false ∨ mode.probe then none
  else (found (x.withWindow p s n answer (locate n))).map fun a => (a, n)

def storedRange (e : Event) : Option (ℕ × ℕ) :=
  match e.request with
  | .write mode start data => x.storesAt p mode start.toUInt data.length e.answer
  | .append mode data => x.storesAt p mode x.objSize.toUInt data.length e.answer
  | _ => none

def stores (e : Event) (a : ℤ) : Bool :=
  (x.storedRange p e).any fun r => (r.1 : ℤ) ≤ a && a < r.1 + r.2

end MfMem

inductive PagerState where
  | ready
  | expectInit
  | reclaiming
  | frozen
  deriving DecidableEq

-- answered: io_pagein and the answer to the kernel go through.
structure PageRequest where
  offset : ℕ
  length : ℕ
  write : Bool
  needsData : Bool
  answered : Bool

def within (offset length : ℕ) (a : ℤ) : Bool := (offset : ℤ) ≤ a && a < offset + length

structure PageOut where
  offset : ℕ
  length : ℕ
  size : Dlong

structure Pager where
  state : PagerState
  memoryObject : Bool
  memoryControl : Bool
  minOffset : ℕ
  maxOffset : ℕ
  requests : List PageRequest
  donePagein : Bool
  donePageinWrite : Bool
  donePageout : Bool

namespace Pager

def baseStart : Pager where
  state := .ready
  memoryObject := false
  memoryControl := false
  minOffset := 2 ^ 32 - 1
  maxOffset := 0
  requests := []
  donePagein := false
  donePageinWrite := false
  donePageout := false

def iopGetPort (x : Pager) : Pager :=
  if x.memoryObject = false then { x with memoryObject := true, state := .expectInit } else x

end Pager

structure Backing where
  size : Dlong
  data : Mem

structure Cleaning where
  lock : Option ℕ
  returned : List PageOut
  terminated : Bool
  queued : List PageRequest
  setSize : Option ℕ
  beyond : Mem

structure Manager where
  ready : Bool
  locked : Bool
  memLocked : Bool
  mem : MfMem
  pager : Pager
  backing : Backing
  writable : ℤ → Bool
  modified : ℤ → Bool
  written : ℤ → Option UInt8

namespace Manager

def start (size : Dlong) (object : Mem) : Manager where
  ready := true
  locked := false
  memLocked := false
  mem := .startMgr size object
  pager := Pager.baseStart.iopGetPort
  backing := ⟨size, object⟩
  writable := fun _ => false
  modified := fun _ => false
  written := fun _ => none

variable (p : PageSize) (m : Manager)

def setState (s : PagerState) : Manager := { m with pager := { m.pager with state := s } }

def cut (size : Dlong) : Manager :=
  { m with written := fun a => if a < size.value then m.written a else none }

def iopGetPort : Manager := { m with pager := m.pager.iopGetPort }

def setObject (object : Mem) : Manager :=
  { m with mem := { m.mem with space := { m.mem.space with object := object } } }

def supplied (r : PageRequest) : Mem := fun a =>
  if r.answered && r.needsData && within r.offset r.length a && !m.modified a then m.backing.data a
  else m.mem.space.object a

def iopSatisfyRequest (r : PageRequest) : Manager :=
  { m.setObject (m.supplied r) with
    pager := { m.pager with
      donePageinWrite := r.write || m.pager.donePageinWrite
      donePagein := true
      minOffset := if r.offset < m.pager.minOffset then r.offset else m.pager.minOffset
      maxOffset := if m.pager.maxOffset < Word.add r.offset r.length then Word.add r.offset r.length
        else m.pager.maxOffset }
    writable := fun a => r.answered && r.write && within r.offset r.length a || m.writable a }

def iopEnqueueRequest (r : PageRequest) : Manager :=
  { m with pager := { m.pager with requests := m.pager.requests ++ [r] } }

def moDataRequest (r : PageRequest) : Manager :=
  if m.pager.state = .ready then m.iopSatisfyRequest r else m.iopEnqueueRequest r

def moInit : Manager :=
  if m.pager.memoryControl then m
  else { m with pager := { m.pager with
    memoryControl := true
    minOffset := 2 ^ 32 - 1
    maxOffset := 0
    donePagein := false
    donePageinWrite := false
    state := .ready } }

def moTerminate : Manager :=
  { m with pager := { m.pager with
    requests := []
    memoryControl := false
    donePagein := false
    donePageinWrite := false
    state := if m.pager.state = .reclaiming then .frozen else m.pager.state } }

def moDataWrite (w : PageOut) : Manager :=
  let m := { m with
    writable := fun a => !within w.offset w.length a && m.writable a
    modified := fun a => !within w.offset w.length a && m.modified a }
  if m.pager.state = .frozen then m
  else { m with
    backing := ⟨w.size, fun a => if within w.offset w.length a then m.mem.space.object a
      else m.backing.data a⟩
    pager := { m.pager with donePageout := true } }

def moLockCompleted : Manager := if m.pager.state = .reclaiming then m.setState .frozen else m

def touched (a : ℤ) : Bool :=
  within m.pager.minOffset (m.pager.maxOffset - m.pager.minOffset) a

def reclaim (e : Cleaning) : Manager :=
  let n := e.returned.foldl moDataWrite m
  let n := { n with writable := fun a => !m.touched a && n.writable a }
  if e.terminated then n.moTerminate else n.moLockCompleted

def iopClean (e : Cleaning) : Manager × Except IoError Bool :=
  if m.pager.state ≠ .ready then (m, .error .objectBusy)
  else if m.pager.donePageinWrite = false ∨ m.pager.memoryControl = false then
    (e.queued.foldl moDataRequest (m.setState .frozen), .ok false)
  else
    let n := e.queued.foldl moDataRequest (m.setState .reclaiming)
    match e.lock with
    | some k => (n.setState .ready, .error (.kernel k))
    | none =>
      let n := n.reclaim e
      ({ n with pager := { n.pager with donePageinWrite := false, donePageout := false } },
        .ok n.pager.donePageout)

def iopResume : Manager :=
  if m.pager.state ≠ .frozen then m
  else
    let n := m.pager.requests.foldl iopSatisfyRequest m
    { n with pager := { n.pager with requests := [], state := .ready } }

def flushes (size : ℕ) (a : ℤ) : Bool :=
  m.pager.memoryControl && within size (m.pager.maxOffset - size) a

def discarded (size : ℕ) : Mem := fun a =>
  if m.flushes size a then m.backing.data a else m.mem.space.object a

def iopFlush (size : ℕ) (error : Option ℕ) : Manager × Option IoError :=
  if m.pager.memoryControl ∧ size < m.pager.maxOffset then
    match error with
    | some k => (m, some (.kernel k))
    | none => ({ m.setObject (m.discarded size) with
        writable := fun a => !m.flushes size a && m.writable a
        modified := fun a => !m.flushes size a && m.modified a }, none)
  else (m, none)

def backingSetSize (e : Cleaning) (size : Dlong) : Manager × Option IoError :=
  match e.setSize with
  | some k => (m, some (.kernel k))
  | none => ({ m.cut size with
      backing := ⟨size, fun a => if a < size.value then m.backing.data a else e.beyond a⟩ }, none)

def lock : Manager := { m with locked := true }

def unlock : Manager := { m with locked := false }

def ioCleanPrepare : Manager × Except IoError (Bool × Dlong) :=
  if m.mem.cleaning then ({ m with memLocked := false }, .error .objectBusy)
  else ({ m with memLocked := true, mem := { m.mem with cleaning := true } },
    .ok (m.mem.dirty, m.mem.objSize))

def ioCleanComplete : Manager :=
  if m.mem.cleaning = false then m
  else { m with memLocked := false, mem := { m.mem with cleaning := false, dirty := false } }

def ioClean (e : Cleaning) : Manager × Option IoError :=
  if m.ready = false then (m, none)
  else
    match m.lock.ioCleanPrepare with
    | (n, .error err) => (n.unlock, some err)
    | (n, .ok (dirty, size)) =>
      if dirty = false then (n.ioCleanComplete.unlock, none)
      else
        match n.iopClean e with
        | (n, .error err) => (n.ioCleanComplete.unlock, some err)
        | (n, .ok _) =>
          let set := n.backingSetSize e size
          (set.1.iopResume.ioCleanComplete.unlock, set.2)

def ioSetSize (size : Dlong) (flush : Option ℕ) : Manager × Option IoError :=
  match m.lock.mem.ioSetSize size with
  | (_, .failed err) => (m.lock.unlock, some err)
  | (x, _) =>
    let flushed := ({ m.lock.cut size with mem := x } : Manager).iopFlush (p.round size.toUInt) flush
    (flushed.1.unlock, flushed.2)

def call (e : Event) : Manager :=
  match m.mem.serve p e with
  | none => m
  | some (x, _) =>
    { m with
      mem := x
      modified := fun a => m.mem.stores p e a || m.modified a
      written := fun a => if m.mem.stores p e a then some (x.space.object a) else m.written a }

end Manager

inductive Act where
  | call (e : Event)
  | setSize (size : Dlong) (flush : Option ℕ)
  | clean (e : Cleaning)
  | getPort
  | init
  | terminate
  | fault (r : PageRequest)
  | pageOut (w : PageOut)

namespace Manager

variable (p : PageSize) (m : Manager)

def perform : Act → Manager
  | .call e => m.call p e
  | .setSize size flush => (m.ioSetSize p size flush).1
  | .clean e => (m.ioClean e).1
  | .getPort => m.iopGetPort
  | .init => m.moInit
  | .terminate => m.moTerminate
  | .fault r => m.moDataRequest r
  | .pageOut w => m.moDataWrite w

def Inherited (e : Event) : Prop :=
  match e.request with
  | .setSize _ | .clean => False
  | _ => True

def Asks (r : PageRequest) : Prop :=
  m.pager.memoryControl = true ∧ r.offset + r.length < 2 ^ 32

def Allowed : Act → Prop
  | .call e => Inherited e ∧ (m.mem.serve p e).isSome ∧
      ∀ a, m.mem.stores p e a = true → m.writable a = true
  | .setSize _ _ | .getPort => True
  | .clean e => (∀ r ∈ e.queued, m.Asks r) ∧
      ∀ a, m.touched a = true → m.modified a = true → ∃ w ∈ e.returned, within w.offset w.length a = true
  | .init => m.pager.memoryObject = true ∧ m.pager.memoryControl = false
  | .terminate => m.pager.memoryControl = true ∧ ∀ a, m.writable a = false
  | .fault r => m.Asks r
  | .pageOut w => ∃ a, within w.offset w.length a = true ∧ m.modified a = true

def Each (P : Manager → Act → Prop) : Manager → List Act → Prop
  | _, [] => True
  | m, act :: acts => P m act ∧ Each P (m.perform p act) acts

def Legal : List Act → Prop := Each p (fun m act => m.Allowed p act) m

structure Cleans (e : Cleaning) : Prop where
  stored : (m.ioClean e).2 = none → (m.ioClean e).1.backing.size = m.mem.objSize ∧
    ∀ a b, m.written a = some b → a < m.mem.objSize.value → (m.ioClean e).1.backing.data a = b
  retried : ∀ err, (m.ioClean e).2 = some err → (m.ioClean e).1.mem.dirty = true
  memLocked : (m.ioClean e).1.memLocked = m.memLocked
  cleaning : (m.ioClean e).1.mem.cleaning = m.mem.cleaning
  frozen : (m.ioClean e).1.pager.state = m.pager.state

def Sound : Act → Prop
  | .clean e => m.Cleans e
  | _ => True

def Untroubled (e : Cleaning) : Prop :=
  m.mem.dirty = true → m.pager.state = .ready ∧
    (m.pager.donePageinWrite = true → m.pager.memoryControl = true → e.lock = none) ∧ e.setSize = none

def Spared (size : Dlong) (flush : Option ℕ) : Prop :=
  flush = none → ∀ a b, m.written a = some b → a < size.value →
    m.flushes (p.round size.toUInt) a = true → m.backing.data a = b

end Manager

end MachUS.Mapped

namespace MachUS.Mapped

open Memory Option
open Io (Dlong)

namespace MfMem

variable {p : PageSize} {x y : MfMem} {s n a : ℕ} {answer : Except ℕ ℕ}
  {copy : MfMem → ℕ → MfMem × Reply} {mode : IoMode} {data : List UInt8} {size : Dlong} {r : Reply}
  {e : Event}

structure SameFile (x y : MfMem) : Prop where
  cleaning : y.cleaning = x.cleaning
  dirty : y.dirty = x.dirty
  objSize : y.objSize = x.objSize
  object : y.space.object = x.space.object

theorem SameFile.refl (x : MfMem) : SameFile x x := ⟨rfl, rfl, rfl, rfl⟩

theorem SameFile.trans {z : MfMem} (h : SameFile x y) (h' : SameFile y z) : SameFile x z :=
  ⟨h'.cleaning.trans h.cleaning, h'.dirty.trans h.dirty, h'.objSize.trans h.objSize,
    h'.object.trans h.object⟩

theorem close_sameFile (x : MfMem) (old : Option (ℕ × ℕ)) : SameFile x (x.close old) := by
  rcases old with _ | ⟨a, n⟩
  · exact .refl x
  · refine ⟨rfl, rfl, rfl, ?_⟩
    change (x.space.deallocate a n).object = _
    unfold Space.deallocate
    split <;> rfl

theorem fetch_sameFile (n : ℕ) (x : MfMem) (a : ℕ) : SameFile x (fetch n x a).1 := by
  refine ⟨rfl, rfl, rfl, ?_⟩
  change (x.space.fetch a n).1.object = _
  unfold Space.fetch
  split <;> rfl

theorem unmapWindow_sameFile (x : MfMem) : SameFile x x.ioUnmapWindow := by
  unfold ioUnmapWindow
  split_ifs
  · exact ⟨rfl, rfl, rfl, (close_sameFile x (some (x.winaddr, x.winsize))).object⟩
  · exact .refl x

theorem withWindow_cases (copy' : MfMem → ℕ → MfMem × Reply)
    (h : x.withWindow p s n answer copy = some (y, r)) :
    (SameFile x y ∧ found (x.withWindow p s n answer copy') = none) ∨
    ∃ z a, SameFile x z ∧ SameFile (copy z a).1 y ∧
      ∃ y', x.withWindow p s n answer copy' = some (y', (copy' z a).2) := by
  unfold withWindow at h ⊢
  simp only at h ⊢
  split_ifs at h ⊢ with hin
  · obtain ⟨rfl, rfl⟩ := Prod.mk.inj (some.inj h)
    exact .inr ⟨x, _, .refl x, .refl _, _, rfl⟩
  · cases answer with
    | error k =>
      cases some.inj h
      have hclosed := close_sameFile { x with winvalid := false } (x.stale s n)
      exact .inl ⟨⟨hclosed.cleaning, hclosed.dirty, hclosed.objSize, hclosed.object⟩, rfl⟩
    | ok b =>
      simp only at h ⊢
      split_ifs at h ⊢ with hfree
      cases some.inj h
      exact .inr ⟨x.install p s n b, _, ⟨rfl, rfl, rfl, rfl⟩, close_sameFile _ _, _, rfl⟩

structure Leaves (p : PageSize) (x : MfMem) (e : Event) (y : MfMem) : Prop where
  cleaning : y.cleaning = x.cleaning
  clean : y.dirty = false → x.dirty = false ∧ y.objSize = x.objSize ∧ ∀ a, x.stores p e a = false
  object : ∀ a, x.stores p e a = false → y.space.object a = x.space.object a

theorem SameFile.leaves (h : SameFile x y) (hnone : x.storedRange p e = none) : Leaves p x e y := by
  refine ⟨h.cleaning, fun hclean => ⟨h.dirty.symm.trans hclean, h.objSize, fun a => ?_⟩,
    fun a _ => congrFun h.object a⟩
  rw [stores, hnone]
  rfl

theorem ioRead_sameFile {start : Dlong} {num : ℕ} (h : x.ioRead p mode start num answer = some (y, r)) :
    SameFile x y := by
  unfold ioRead at h
  simp only at h
  generalize (if 0 < (start.addLong num).cmp x.objSize then (x.objSize.sub start).toUInt else num) = n at h
  split_ifs at h
  all_goals try exact (Prod.mk.inj (some.inj h)).1 ▸ SameFile.refl x
  rcases withWindow_cases (fetch n) h with ⟨hsame, -⟩ | ⟨z, a, hz, hy, -⟩
  · exact hsame
  · exact (hz.trans (fetch_sameFile _ z a)).trans hy

theorem ioStore_leaves (h : x.ioStore p mode s data size answer = some (y, r))
    (hrange : x.storedRange p e = x.storesAt p mode s data.length answer) : Leaves p x e y := by
  unfold ioStore at h
  unfold storesAt at hrange
  split_ifs at h with haccess hprobe
  · cases some.inj h
    exact (SameFile.refl x).leaves (hrange.trans (if_pos (.inl haccess)))
  · cases some.inj h
    exact (SameFile.refl x).leaves (hrange.trans (if_pos (.inr hprobe)))
  · rw [if_neg (not_or.mpr ⟨haccess, hprobe⟩)] at hrange
    rcases withWindow_cases (locate data.length) h with ⟨hsame, hfound⟩ | ⟨z, a, hz, hy, y', hy'⟩
    · rw [hfound] at hrange
      exact hsame.leaves hrange
    · refine ⟨hy.cleaning.trans hz.cleaning, fun hclean => ?_, fun b hb => ?_⟩
      · exact Bool.noConfusion (hclean.symm.trans hy.dirty)
      · rw [hy'] at hrange
        rw [hy.object, ← hz.object]
        change (z.space.store a data).object b = _
        unfold Space.store
        unfold locate at hrange
        cases hfind : z.space.live.find? fun w => w.Holds a data.length with
        | none => rfl
        | some w =>
          rw [hfind] at hrange
          refine store_of_outside ?_
          rw [stores, hrange] at hb
          simp only [found, map_some, any_some, Bool.and_eq_false_iff,
            decide_eq_false_iff_not] at hb
          omega

theorem serve_leaves (hcall : Manager.Inherited e) (h : x.serve p e = some (y, r)) : Leaves p x e y := by
  obtain ⟨q, answer⟩ := e
  cases q with
  | read mode start num => exact (ioRead_sameFile (p := p) h).leaves rfl
  | write mode start data => exact ioStore_leaves h rfl
  | append mode data => exact ioStore_leaves h rfl
  | setSize size => exact hcall.elim
  | getSize =>
    have hy : y = x := by
      have := some.inj h
      rw [ioGetSize] at this
      split_ifs at this
      · exact (Prod.mk.inj this).1.symm
      · exact (Prod.mk.inj this).1.symm
    rw [hy]
    exact (SameFile.refl x).leaves rfl
  | unmapWindow =>
    cases some.inj h
    exact (unmapWindow_sameFile x).leaves rfl
  | clean => exact hcall.elim

end MfMem

end MachUS.Mapped
