import MachUS.Foundation.Transition
import MachUS.Records.RecordStream

namespace MachUS.Pipenet

open Io (Stream iosEnabled iosWaitAllowed)
open Records (RecordStream)

def nsrRead : UInt32 := 0x10

def nsrWrite : UInt32 := 0x20

def Reads (access : UInt32) : Prop := access &&& nsrRead ≠ 0

def Writes (access : UInt32) : Prop := access &&& nsrWrite ≠ 0

instance (access : UInt32) : Decidable (Reads access) := inferInstanceAs (Decidable (_ ≠ _))

instance (access : UInt32) : Decidable (Writes access) := inferInstanceAs (Decidable (_ ≠ _))

inductive Registration where
  | success
  | noSuchOperation
  | failed
  deriving DecidableEq

def Registration.Refuses (r : Registration) : Prop := r = .failed

instance (r : Registration) : Decidable r.Refuses := inferInstanceAs (Decidable (_ = _))

structure Bases where
  agency : Registration
  stream : Registration

structure UpipeBytes where
  numReaders : ℤ
  numWriters : ℤ
  stream : Stream

namespace UpipeBytes

def create (bufsize : ℕ) : UpipeBytes := ⟨0, 0, .create bufsize iosEnabled 0⟩

variable (p : UpipeBytes)

def setWriteStrategy (strategy : UInt32) : Io.Code × UpipeBytes :=
  let r := p.stream.ioSetWriteStrategy strategy
  (r.1, { p with stream := r.2 })

def setReadStrategy (strategy : UInt32) : Io.Code × UpipeBytes :=
  let r := p.stream.ioSetReadStrategy strategy
  (r.1, { p with stream := r.2 })

def addReader (access : UInt32) : Io.Code × UpipeBytes :=
  if Reads access then
    let p := { p with numReaders := p.numReaders + 1 }
    if p.numReaders = 1 then p.setWriteStrategy (iosEnabled ||| iosWaitAllowed) else (.success, p)
  else (.success, p)

def addWriter (access : UInt32) : Io.Code × UpipeBytes :=
  if Writes access then
    let p := { p with numWriters := p.numWriters + 1 }
    if p.numWriters = 1 then p.setReadStrategy (iosEnabled ||| iosWaitAllowed) else (.success, p)
  else (.success, p)

def dropReader (access : UInt32) : Io.Code × UpipeBytes :=
  if Reads access then
    let p := { p with numReaders := p.numReaders - 1 }
    if p.numReaders = 0 then p.setWriteStrategy 0 else (.success, p)
  else (.success, p)

def dropWriter (access : UInt32) : Io.Code × UpipeBytes :=
  if Writes access then
    let p := { p with numWriters := p.numWriters - 1 }
    if p.numWriters = 0 then p.setReadStrategy iosEnabled else (.success, p)
  else (.success, p)

def nsRegisterAgent (access : UInt32) (bases : Bases) : Registration × UpipeBytes :=
  let r := p.addReader access
  let w := r.2.addWriter access
  if r.1 ≠ .success ∨ w.1 ≠ .success then (.failed, w.2)
  else if bases.agency = .success then (bases.stream, w.2)
  else (bases.agency, w.2)

def nsUnregisterAgent (access : UInt32) (bases : Bases) : Registration × UpipeBytes :=
  let r := p.dropReader access
  let w := r.2.dropWriter access
  if r.1 ≠ .success ∨ w.1 ≠ .success then (.failed, w.2)
  else if bases.stream = .success then (bases.agency, w.2)
  else (bases.stream, w.2)

end UpipeBytes

structure CltsBase (ι : Type) where
  readersCount : ℤ
  incomingStream : RecordStream ι

namespace CltsBase

variable {ι : Type}

def create (bufsize : UInt32) (infosize : ℕ) : CltsBase ι :=
  ⟨0, .create bufsize (iosEnabled ||| iosWaitAllowed) 0 infosize fun _ => none⟩

variable (c : CltsBase ι)

def nsRegisterAgent (access : UInt32) (agency : Registration) : Registration × CltsBase ι :=
  if Reads access then
    let c := { c with readersCount := c.readersCount + 1 }
    if c.readersCount = 1 then
      (agency, { c with
        incomingStream := (c.incomingStream.ioSetWriteStrategy (iosEnabled ||| iosWaitAllowed)).2 })
    else (agency, c)
  else (agency, c)

def nsUnregisterAgent (access : UInt32) (agency : Registration) :
    Except Records.Fault (Registration × CltsBase ι) :=
  if Reads access then
    let c := { c with readersCount := c.readersCount - 1 }
    if c.readersCount = 0 then do
      let s := ((c.incomingStream.ioSetReadStrategy 0).2.ioSetWriteStrategy 0).2
      let (_, s) ← s.ioFlushStream
      pure (agency, { c with incomingStream := s })
    else pure (agency, c)
  else pure (agency, c)

end CltsBase

inductive AgentEvent where
  | made (access : UInt32) (bases : Bases)
  | gone (access : UInt32) (bases : Bases)

structure UpipeAgents where
  pipe : UpipeBytes
  registered : List UInt32

structure CltsAgents (ι : Type) where
  endpoint : CltsBase ι
  registered : List UInt32
  deserted : Bool

def readers (registered : List UInt32) : ℕ := registered.countP Reads

def writers (registered : List UInt32) : ℕ := registered.countP Writes

namespace UpipeAgents

def boot (bufsize : ℕ) : UpipeAgents := ⟨.create bufsize, []⟩

def next (x : UpipeAgents) : AgentEvent → Option UpipeAgents
  | .made access bases =>
    let r := x.pipe.nsRegisterAgent access bases
    some ⟨r.2, if r.1.Refuses then x.registered else access :: x.registered⟩
  | .gone access bases =>
    if access ∈ x.registered then
      some ⟨(x.pipe.nsUnregisterAgent access bases).2, x.registered.erase access⟩
    else none

structure Accounted (x : UpipeAgents) : Prop where
  numReaders : x.pipe.numReaders = readers x.registered
  numWriters : x.pipe.numWriters = writers x.registered
  enabled : x.pipe.stream.writeStrategy &&& iosEnabled ≠ 0 ↔ 0 < readers x.registered
  waits : x.pipe.stream.readStrategy &&& iosWaitAllowed ≠ 0 ↔ 0 < writers x.registered

end UpipeAgents

namespace CltsAgents

variable {ι : Type}

def boot (bufsize : UInt32) (infosize : ℕ) : CltsAgents ι := ⟨.create bufsize infosize, [], false⟩

def next (x : CltsAgents ι) : AgentEvent → Option (CltsAgents ι)
  | .made access bases =>
    let r := x.endpoint.nsRegisterAgent access bases.agency
    some { x with
      endpoint := r.2
      registered := if r.1.Refuses then x.registered else access :: x.registered }
  | .gone access bases =>
    if access ∈ x.registered then
      match x.endpoint.nsUnregisterAgent access bases.agency with
      | .error _ => none
      | .ok (_, c) => some
        { endpoint := c
          registered := x.registered.erase access
          deserted := x.deserted || decide (Reads access ∧ readers (x.registered.erase access) = 0) }
    else none

structure Accounted (x : CltsAgents ι) : Prop where
  readersCount : x.endpoint.readersCount = readers x.registered
  usable : 0 < readers x.registered → x.endpoint.incomingStream.readStrategy &&& iosEnabled ≠ 0 ∧
    x.endpoint.incomingStream.writeStrategy &&& iosEnabled ≠ 0

end CltsAgents

def Bases.Passes (bases : Bases) : Prop :=
  bases.agency ≠ .failed ∧ (bases.agency = .success → bases.stream ≠ .failed)

instance (bases : Bases) : Decidable bases.Passes := inferInstanceAs (Decidable (_ ∧ (_ → _)))

def UpipeAgents.Spared (_ : UpipeAgents) : AgentEvent → Prop
  | .made access bases => Reads access ∨ Writes access → bases.Passes
  | .gone _ _ => True

def CltsAgents.Spared {ι : Type} (x : CltsAgents ι) : AgentEvent → Prop
  | .made access bases => Reads access → bases.agency ≠ .failed ∧ x.deserted = false
  | .gone _ _ => True

instance (x : UpipeAgents) : ∀ e, Decidable (x.Spared e)
  | .made access bases => inferInstanceAs (Decidable (Reads access ∨ Writes access → bases.Passes))
  | .gone _ _ => .isTrue trivial

instance {ι : Type} (x : CltsAgents ι) : ∀ e, Decidable (x.Spared e)
  | .made access bases =>
    inferInstanceAs (Decidable (Reads access → bases.agency ≠ .failed ∧ x.deserted = false))
  | .gone _ _ => .isTrue trivial

theorem readers_cons (access : UInt32) (l : List UInt32) :
    readers (access :: l) = readers l + if Reads access then 1 else 0 := by
  simp [readers, List.countP_cons]

theorem writers_cons (access : UInt32) (l : List UInt32) :
    writers (access :: l) = writers l + if Writes access then 1 else 0 := by
  simp [writers, List.countP_cons]

theorem readers_erase {access : UInt32} {l : List UInt32} (h : access ∈ l) :
    readers l = readers (l.erase access) + if Reads access then 1 else 0 := by
  rw [← readers_cons]
  exact (List.perm_cons_erase h).countP_eq _

theorem writers_erase {access : UInt32} {l : List UInt32} (h : access ∈ l) :
    writers l = writers (l.erase access) + if Writes access then 1 else 0 := by
  rw [← writers_cons]
  exact (List.perm_cons_erase h).countP_eq _

namespace UpipeBytes

structure Follows (p : UpipeBytes) (r w : ℕ) : Prop where
  numReaders : p.numReaders = r
  numWriters : p.numWriters = w
  write : p.stream.writeStrategy = if r = 0 then 0 else iosEnabled ||| iosWaitAllowed
  read : p.stream.readStrategy = if w = 0 then iosEnabled else iosEnabled ||| iosWaitAllowed

variable {p : UpipeBytes} {r w : ℕ} {access : UInt32}

theorem addReader_follows (access : UInt32) (h : p.Follows r w) : (p.addReader access).1 = .success ∧
    (p.addReader access).2.Follows (r + if Reads access then 1 else 0) w := by
  unfold addReader
  by_cases hreads : Reads access
  · simp only [if_pos hreads, h.numReaders]
    by_cases hr : r = 0
    · rw [if_pos (by omega)]
      exact ⟨rfl, by simp [setWriteStrategy], h.numWriters, by rw [hr]; rfl, h.read⟩
    · rw [if_neg (by omega)]
      exact ⟨rfl, rfl, h.numWriters, h.write.trans (by rw [if_neg hr, if_neg (by omega)]), h.read⟩
  · simp only [if_neg hreads]
    exact ⟨trivial, h⟩

theorem addWriter_follows (access : UInt32) (h : p.Follows r w) : (p.addWriter access).1 = .success ∧
    (p.addWriter access).2.Follows r (w + if Writes access then 1 else 0) := by
  unfold addWriter
  by_cases hwrites : Writes access
  · simp only [if_pos hwrites, h.numWriters]
    by_cases hw : w = 0
    · rw [if_pos (by omega)]
      exact ⟨rfl, h.numReaders, by simp [setReadStrategy], h.write, by rw [hw]; rfl⟩
    · rw [if_neg (by omega)]
      exact ⟨rfl, h.numReaders, rfl, h.write, h.read.trans (by rw [if_neg hw, if_neg (by omega)])⟩
  · simp only [if_neg hwrites]
    exact ⟨trivial, h⟩

theorem dropReader_follows (h : p.Follows (r + if Reads access then 1 else 0) w) :
    (p.dropReader access).1 = .success ∧ (p.dropReader access).2.Follows r w := by
  unfold dropReader
  by_cases hreads : Reads access
  · simp only [if_pos hreads] at h ⊢
    have hnum : p.numReaders - 1 = r := by
      have := h.numReaders
      omega
    simp only [hnum]
    by_cases hr : r = 0
    · rw [if_pos (by omega)]
      exact ⟨rfl, rfl, h.numWriters, by rw [hr]; rfl, h.read⟩
    · rw [if_neg (by omega)]
      exact ⟨rfl, rfl, h.numWriters, h.write.trans (by rw [if_neg hr, if_neg (by omega)]), h.read⟩
  · simp only [if_neg hreads] at h ⊢
    exact ⟨trivial, h⟩

theorem dropWriter_follows (h : p.Follows r (w + if Writes access then 1 else 0)) :
    (p.dropWriter access).1 = .success ∧ (p.dropWriter access).2.Follows r w := by
  unfold dropWriter
  by_cases hwrites : Writes access
  · simp only [if_pos hwrites] at h ⊢
    have hnum : p.numWriters - 1 = w := by
      have := h.numWriters
      omega
    simp only [hnum]
    by_cases hw : w = 0
    · rw [if_pos (by omega)]
      exact ⟨rfl, h.numReaders, rfl, h.write, by rw [hw]; rfl⟩
    · rw [if_neg (by omega)]
      exact ⟨rfl, h.numReaders, rfl, h.write, h.read.trans (by rw [if_neg hw, if_neg (by omega)])⟩
  · simp only [if_neg hwrites] at h ⊢
    exact ⟨trivial, h⟩

theorem nsRegisterAgent_follows (access : UInt32) (bases : Bases) (h : p.Follows r w) :
    (p.nsRegisterAgent access bases).2.Follows (r + if Reads access then 1 else 0)
        (w + if Writes access then 1 else 0) ∧
      ((p.nsRegisterAgent access bases).1.Refuses ↔ ¬ bases.Passes) := by
  obtain ⟨hread, hr⟩ := addReader_follows access h
  obtain ⟨hwrite, hw⟩ := addWriter_follows access hr
  unfold nsRegisterAgent
  simp only [hread, hwrite, ne_eq, not_true_eq_false, or_self, if_false]
  obtain ⟨agency, stream⟩ := bases
  cases agency <;> cases stream <;> exact ⟨hw, by simp [Registration.Refuses, Bases.Passes]⟩

theorem nsUnregisterAgent_follows (bases : Bases)
    (h : p.Follows (r + if Reads access then 1 else 0) (w + if Writes access then 1 else 0)) :
    (p.nsUnregisterAgent access bases).2.Follows r w := by
  obtain ⟨hread, hr⟩ := dropReader_follows h
  obtain ⟨hwrite, hw⟩ := dropWriter_follows hr
  unfold nsUnregisterAgent
  simp only [hread, hwrite, ne_eq, not_true_eq_false, or_self, if_false]
  split_ifs <;> exact hw

theorem Follows.enabled (h : p.Follows r w) : p.stream.writeStrategy &&& iosEnabled ≠ 0 ↔ 0 < r := by
  rw [h.write]
  by_cases hr : r = 0
  · rw [if_pos hr]
    exact iff_of_false (by decide) (by omega)
  · rw [if_neg hr]
    exact iff_of_true (by decide) (by omega)

theorem Follows.waits (h : p.Follows r w) : p.stream.readStrategy &&& iosWaitAllowed ≠ 0 ↔ 0 < w := by
  rw [h.read]
  by_cases hw : w = 0
  · rw [if_pos hw]
    exact iff_of_false (by decide) (by omega)
  · rw [if_neg hw]
    exact iff_of_true (by decide) (by omega)

end UpipeBytes

namespace UpipeAgents

open Transition

variable {x y : UpipeAgents} {e : AgentEvent}

def Sound (x : UpipeAgents) : Prop := x.pipe.Follows (readers x.registered) (writers x.registered)

theorem Sound.accounted (h : x.Sound) : x.Accounted := ⟨h.numReaders, h.numWriters, h.enabled, h.waits⟩

theorem Sound.next (h : x.Sound) (hspared : x.Spared e) (hy : x.next e = some y) : y.Sound := by
  cases e with
  | made access bases =>
    cases hy
    obtain ⟨hfollows, hrefuses⟩ := UpipeBytes.nsRegisterAgent_follows access bases h
    unfold Sound
    by_cases hpasses : bases.Passes
    · simp only [if_neg fun hr => hrefuses.mp hr hpasses, readers_cons, writers_cons]
      exact hfollows
    · have hneither := not_or.mp fun hrw => hpasses (hspared hrw)
      simp only [if_pos (hrefuses.mpr hpasses)]
      simp only [if_neg hneither.1, if_neg hneither.2] at hfollows
      exact hfollows
  | gone access bases =>
    simp only [UpipeAgents.next] at hy
    split_ifs at hy with hmem
    cases hy
    refine UpipeBytes.nsUnregisterAgent_follows bases ?_
    rw [← readers_erase hmem, ← writers_erase hmem]
    exact h

theorem Sound.spared (h : x.Sound) (hy : x.next e = some y) (haccounted : y.Accounted) : x.Spared e := by
  cases e with
  | gone access bases => trivial
  | made access bases =>
    cases hy
    obtain ⟨hfollows, hrefuses⟩ := UpipeBytes.nsRegisterAgent_follows access bases h
    intro hrw
    by_contra hpasses
    have hr := haccounted.numReaders
    have hw := haccounted.numWriters
    simp only [hfollows.numReaders, hfollows.numWriters, if_pos (hrefuses.mpr hpasses)] at hr hw
    rcases hrw with hread | hwrite
    · rw [if_pos hread] at hr
      omega
    · rw [if_pos hwrite] at hw
      omega

theorem boot_sound (bufsize : ℕ) : (boot bufsize).Sound := ⟨rfl, rfl, rfl, rfl⟩

theorem accounted_iff {bufsize : ℕ} {events : List AgentEvent}
    (hrun : exec next (boot bufsize) events = some y) :
    Throughout next Accounted (boot bufsize) events ↔ Admits next Spared (boot bufsize) events :=
  throughout_iff (fun _ h => Sound.accounted h) (fun _ _ _ h hs hy => h.next hs hy)
    (fun _ _ _ h hy ha => h.spared hy ha) (boot_sound bufsize) hrun

end UpipeAgents

end MachUS.Pipenet

namespace MachUS.Pipenet

open CltsAgents

open Io (iosEnabled iosWaitAllowed)
open Records (RecordStream)

namespace CltsBase

variable {ι : Type} {c : CltsBase ι} {r : ℕ} {access : UInt32} {agency : Registration}

structure Follows (c : CltsBase ι) (r : ℕ) : Prop where
  readersCount : c.readersCount = r
  write : c.incomingStream.writeStrategy = if r = 0 then 0 else iosEnabled ||| iosWaitAllowed

theorem flush_strategies {s t : RecordStream ι} {code : Records.Code}
    (h : s.ioFlushStream = .ok (code, t)) :
    t.readStrategy = s.readStrategy ∧ t.writeStrategy = s.writeStrategy := by
  unfold RecordStream.ioFlushStream at h
  cases hfree : RecordStream.freeLoop s.qused s.heap s.firstRecord with
  | error fault =>
    rw [hfree] at h
    cases h
  | ok heap =>
    rw [hfree] at h
    cases h
    exact ⟨rfl, rfl⟩

theorem nsRegisterAgent_follows (access : UInt32) (agency : Registration) (h : c.Follows r) :
    (c.nsRegisterAgent access agency).1 = agency ∧
      (c.nsRegisterAgent access agency).2.Follows (r + if Reads access then 1 else 0) ∧
        (c.nsRegisterAgent access agency).2.incomingStream.readStrategy =
          c.incomingStream.readStrategy := by
  unfold nsRegisterAgent
  by_cases hreads : Reads access
  · simp only [if_pos hreads, h.readersCount]
    by_cases hr : r = 0
    · rw [if_pos (by omega)]
      exact ⟨rfl, ⟨by simp, by rw [hr]; rfl⟩, rfl⟩
    · rw [if_neg (by omega)]
      exact ⟨rfl, ⟨rfl, h.write.trans (by rw [if_neg hr, if_neg (by omega)])⟩, rfl⟩
  · simp only [if_neg hreads]
    exact ⟨trivial, h, trivial⟩

theorem nsUnregisterAgent_follows {d : CltsBase ι} {code : Registration}
    (h : c.Follows (r + if Reads access then 1 else 0))
    (hd : c.nsUnregisterAgent access agency = .ok (code, d)) : d.Follows r ∧
      d.incomingStream.readStrategy =
        if Reads access ∧ r = 0 then 0 else c.incomingStream.readStrategy := by
  unfold nsUnregisterAgent at hd
  by_cases hreads : Reads access
  · simp only [if_pos hreads] at h hd
    have hnum : c.readersCount - 1 = r := by
      have := h.readersCount
      omega
    rw [hnum] at hd
    by_cases hr : r = 0
    · rw [if_pos (by omega)] at hd
      rw [if_pos ⟨hreads, hr⟩]
      cases hflush : (c.incomingStream.ioSetReadStrategy 0).2.ioSetWriteStrategy 0 |>.2.ioFlushStream with
      | error fault =>
        rw [hflush] at hd
        cases hd
      | ok t =>
        obtain ⟨hread, hwrite⟩ := flush_strategies hflush
        rw [hflush] at hd
        cases hd
        refine ⟨⟨rfl, ?_⟩, hread⟩
        rw [if_pos hr]
        exact hwrite
    · rw [if_neg (by omega)] at hd
      cases hd
      rw [if_neg fun h => hr h.2]
      exact ⟨⟨rfl, h.write.trans (by rw [if_neg hr, if_neg (by omega)])⟩, rfl⟩
  · simp only [if_neg hreads] at h hd
    cases hd
    rw [if_neg fun h => hreads h.1]
    exact ⟨h, rfl⟩

end CltsBase

namespace CltsAgents

open Transition

variable {ι : Type} {x y : CltsAgents ι} {e : AgentEvent}

structure Sound (x : CltsAgents ι) : Prop where
  follows : x.endpoint.Follows (readers x.registered)
  kept : x.deserted = false →
    x.endpoint.incomingStream.readStrategy = iosEnabled ||| iosWaitAllowed
  shut : x.deserted = true →
    readers x.registered = 0 ∧ x.endpoint.incomingStream.readStrategy = 0

theorem Sound.accounted (h : x.Sound) : x.Accounted := by
  refine ⟨h.follows.readersCount, fun hpos => ?_⟩
  have hopen : x.deserted = false := by
    by_contra hshut
    have := (h.shut (Bool.eq_true_of_not_eq_false hshut)).1
    omega
  rw [h.kept hopen, h.follows.write, if_neg (by omega)]
  decide

theorem Sound.next (h : x.Sound) (hspared : x.Spared e) (hy : x.next e = some y) : y.Sound := by
  cases e with
  | made access bases =>
    cases hy
    obtain ⟨hcode, hfollows, hread⟩ := CltsBase.nsRegisterAgent_follows access bases.agency h.follows
    have hreaders : readers (if bases.agency.Refuses then x.registered else access :: x.registered) =
        readers x.registered + if Reads access then 1 else 0 := by
      by_cases hrefuses : bases.agency.Refuses
      · rw [if_pos hrefuses, if_neg fun hr => (hspared hr).1 hrefuses]
        rfl
      · rw [if_neg hrefuses, readers_cons]
    refine ⟨?_, fun hopen => hread.trans (h.kept hopen), fun hshut => ?_⟩
    · simp only [hcode, hreaders]
      exact hfollows
    · have hreads : ¬ Reads access := fun hr => by
        rw [(hspared hr).2] at hshut
        cases hshut
      obtain ⟨hnone, hzero⟩ := h.shut hshut
      simp only [hcode, hreaders, if_neg hreads]
      exact ⟨hnone, hread.trans hzero⟩
  | gone access bases =>
    simp only [next] at hy
    split_ifs at hy with hmem
    cases hd : x.endpoint.nsUnregisterAgent access bases.agency with
    | error fault =>
      rw [hd] at hy
      cases hy
    | ok r =>
      rw [hd] at hy
      cases hy
      have hreaders := readers_erase hmem
      obtain ⟨hfollows, hread⟩ := CltsBase.nsUnregisterAgent_follows (hreaders ▸ h.follows) hd
      refine ⟨hfollows, fun hopen => ?_, fun hshut => ?_⟩
      · obtain ⟨hwas, hlast⟩ := Bool.or_eq_false_iff.mp hopen
        rw [if_neg (of_decide_eq_false hlast)] at hread
        exact hread.trans (h.kept hwas)
      · rcases Bool.or_eq_true_iff.mp hshut with hwas | hlast
        · obtain ⟨hnone, hzero⟩ := h.shut hwas
          have hstill : readers (x.registered.erase access) = 0 := by omega
          refine ⟨hstill, hread.trans ?_⟩
          rw [hzero, ite_self]
        · have hlast := of_decide_eq_true hlast
          rw [if_pos hlast] at hread
          exact ⟨hlast.2, hread⟩

theorem Sound.spared (h : x.Sound) (hy : x.next e = some y) (haccounted : y.Accounted) : x.Spared e := by
  cases e with
  | gone access bases => trivial
  | made access bases =>
    cases hy
    obtain ⟨hcode, hfollows, hread⟩ := CltsBase.nsRegisterAgent_follows access bases.agency h.follows
    intro hreads
    have hcount := haccounted.readersCount
    simp only [hfollows.readersCount, hcode, if_pos hreads] at hcount
    have hpasses : ¬ bases.agency.Refuses := fun hrefuses => by
      rw [if_pos hrefuses] at hcount
      omega
    refine ⟨hpasses, ?_⟩
    by_contra hshut
    have hzero := (h.shut (Bool.eq_true_of_not_eq_false hshut)).2
    have hopen := (haccounted.usable ?_).1
    · simp only [hread, hzero] at hopen
      exact hopen rfl
    · simp only [hcode, if_neg hpasses, readers_cons, if_pos hreads]
      omega

theorem boot_sound (bufsize : UInt32) (infosize : ℕ) : (boot bufsize infosize : CltsAgents ι).Sound :=
  ⟨⟨rfl, rfl⟩, fun _ => rfl, fun h => by cases h⟩

theorem accounted_iff {bufsize : UInt32} {infosize : ℕ} {events : List AgentEvent}
    (hrun : exec next (boot bufsize infosize) events = some y) :
    Throughout next Accounted (boot bufsize infosize : CltsAgents ι) events ↔
      Admits next Spared (boot bufsize infosize : CltsAgents ι) events :=
  throughout_iff (fun _ h => Sound.accounted h) (fun _ _ _ h hs hy => h.next hs hy)
    (fun _ _ _ h hy ha => h.spared hy ha) (boot_sound bufsize infosize) hrun

end CltsAgents

section Accounts

open Transition

theorem agents_accounted (ι : Type) :
    (∀ bufsize events y, exec UpipeAgents.next (.boot bufsize) events = some y →
      (Throughout UpipeAgents.next UpipeAgents.Accounted (.boot bufsize) events ↔
        Admits UpipeAgents.next UpipeAgents.Spared (.boot bufsize) events)) ∧
    ∀ bufsize infosize events (y : CltsAgents ι),
      exec next (.boot bufsize infosize) events = some y →
        (Throughout next Accounted (.boot bufsize infosize : CltsAgents ι) events ↔
          Admits next Spared (.boot bufsize infosize : CltsAgents ι) events) :=
  ⟨fun _ _ _ hrun => UpipeAgents.accounted_iff hrun, fun _ _ _ _ hrun => accounted_iff hrun⟩

def fine : Bases := ⟨.success, .success⟩

def visits : List AgentEvent :=
  [.made nsrRead fine, .made nsrWrite fine, .gone nsrRead fine, .made (nsrRead ||| nsrWrite) fine]

theorem agents_accounted_visits :
    Throughout UpipeAgents.next UpipeAgents.Accounted (.boot 4096) visits ∧
      Throughout next Accounted (.boot 100 0 : CltsAgents Unit) (visits.take 3) :=
  ⟨((agents_accounted Unit).1 4096 visits _ rfl).mpr (by decide),
    ((agents_accounted Unit).2 100 0 (visits.take 3) _ rfl).mpr (by decide)⟩

theorem reopened_endpoint_shut :
    ¬ Throughout next Accounted (.boot 100 0 : CltsAgents Unit) visits := by
  intro h
  have hlast := ((((h.2 _ rfl).2 _ rfl).2 _ rfl).2 _ rfl).usable (by decide)
  exact absurd hlast.1 (by decide)

end Accounts

end MachUS.Pipenet
