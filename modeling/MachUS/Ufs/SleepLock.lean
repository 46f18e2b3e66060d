import MachUS.Foundation.Guard
import MachUS.Foundation.Transition

namespace MachUS.Ufs.SleepLock

inductive Phase where
  | idle
  | wanting (asleep : Bool)
  | draining (asleep : Bool)
  | writing
  | entering (asleep : Bool)
  | reading
  | upgrading (asleep : Bool)
  | upgraded
  deriving DecidableEq

namespace Phase

def asleep : Phase → Bool
  | .wanting b | .draining b | .entering b | .upgrading b => b
  | _ => false

def woken : Phase → Phase
  | .wanting _ => .wanting false
  | .draining _ => .draining false
  | .entering _ => .entering false
  | .upgrading _ => .upgrading false
  | p => p

def reads (p : Phase) : Bool := p = .reading

def writes (p : Phase) : Bool := p = .writing || p = .upgraded

def wantsWrite : Phase → Bool
  | .draining _ | .writing => true
  | _ => false

def wantsUpgrade : Phase → Bool
  | .upgrading _ | .upgraded => true
  | _ => false

end Phase

structure Lock (T : Type) where
  wantWrite : Bool
  wantUpgrade : Bool
  waiting : Bool
  readCount : ℤ
  thread : Option T
  recursionDepth : ℤ

structure Sys (T : Type) where
  lock : Lock T
  phase : T → Phase

namespace Sys

variable {T : Type}

def init : Sys T where
  lock := ⟨false, false, false, 0, none, 0⟩
  phase := fun _ => .idle

def wakeup (s : Sys T) : Sys T :=
  if s.lock.waiting then ⟨{ s.lock with waiting := false }, fun u => (s.phase u).woken⟩ else s

def letGo (l : Lock T) : Lock T :=
  if l.recursionDepth ≠ 0 then { l with recursionDepth := l.recursionDepth - 1 }
  else if l.wantUpgrade then { l with wantUpgrade := false }
  else { l with wantWrite := false }

variable [DecidableEq T] (s : Sys T) (t : T)

def enter (p : Phase) : Sys T := { s with phase := Function.update s.phase t p }

def wait (p : Phase) : Sys T :=
  ({ s with lock := { s.lock with waiting := true } } : Sys T).enter t p

def recur : Sys T :=
  ({ s with lock := { s.lock with recursionDepth := s.lock.recursionDepth + 1 } } : Sys T).enter t .writing

def letIn : Sys T :=
  ({ s with lock := { s.lock with readCount := s.lock.readCount + 1 } } : Sys T).enter t .reading

def drain : Sys T :=
  if s.lock.readCount ≠ 0 ∨ s.lock.wantUpgrade = true then s.wait t (.draining true)
  else s.enter t .writing

def want : Sys T :=
  if s.lock.wantWrite then s.wait t (.wanting true)
  else ({ s with lock := { s.lock with wantWrite := true } } : Sys T).drain t

def lockWrite : Sys T := if s.lock.thread = some t then s.recur t else s.want t

def lockDone : Sys T :=
  let l := if s.lock.readCount ≠ 0 then { s.lock with readCount := s.lock.readCount - 1 } else letGo s.lock
  ((⟨l, s.phase⟩ : Sys T).enter t .idle).wakeup

def queueUp : Sys T :=
  if s.lock.wantWrite = true ∨ s.lock.wantUpgrade = true then s.wait t (.entering true) else s.letIn t

def lockRead : Sys T := if s.lock.thread = some t then s.letIn t else s.queueUp t

def upgrade : Sys T :=
  if s.lock.readCount ≠ 0 then s.wait t (.upgrading true) else s.enter t .upgraded

def lockReadToWrite : Sys T × Bool :=
  let s := { s with lock := { s.lock with readCount := s.lock.readCount - 1 } }
  if s.lock.thread = some t then (s.recur t, false)
  else if s.lock.wantUpgrade then ((s.enter t .idle).wakeup, true)
  else (({ s with lock := { s.lock with wantUpgrade := true } } : Sys T).upgrade t, false)

def lockWriteToRead : Sys T :=
  ((⟨letGo { s.lock with readCount := s.lock.readCount + 1 }, s.phase⟩ : Sys T).enter t .reading).wakeup

def lockTryWrite : Sys T × Bool :=
  if s.lock.thread = some t then (s.recur t, true)
  else if s.lock.wantWrite = true ∨ s.lock.wantUpgrade = true ∨ s.lock.readCount ≠ 0 then (s, false)
  else (({ s with lock := { s.lock with wantWrite := true } } : Sys T).enter t .writing, true)

def lockTryRead : Sys T × Bool :=
  if s.lock.thread = some t then (s.letIn t, true)
  else if s.lock.wantWrite = true ∨ s.lock.wantUpgrade = true then (s, false)
  else (s.letIn t, true)

def lockTryReadToWrite : Sys T × Bool :=
  if s.lock.thread = some t then
    (({ s with lock := { s.lock with readCount := s.lock.readCount - 1 } } : Sys T).recur t, true)
  else if s.lock.wantUpgrade then (s, false)
  else
    (({ s with lock := { s.lock with wantUpgrade := true, readCount := s.lock.readCount - 1 } } : Sys T).upgrade t,
      true)

end Sys

inductive Call where
  | write
  | read
  | tryWrite
  | tryRead
  | done
  | readToWrite
  | writeToRead
  | tryReadToWrite
  | resume
  deriving DecidableEq

variable {T : Type} [DecidableEq T]

def next (s : Sys T) : T × Call → Option (Sys T)
  | (t, c) =>
    match s.phase t, c with
    | .idle, .write => some (s.lockWrite t)
    | .idle, .read => some (s.lockRead t)
    | .idle, .tryWrite => some (s.lockTryWrite t).1
    | .idle, .tryRead => some (s.lockTryRead t).1
    | .reading, .done | .writing, .done | .upgraded, .done => some (s.lockDone t)
    | .reading, .readToWrite => some (s.lockReadToWrite t).1
    | .reading, .tryReadToWrite => some (s.lockTryReadToWrite t).1
    | .writing, .writeToRead | .upgraded, .writeToRead => some (s.lockWriteToRead t)
    | .wanting false, .resume => some (s.want t)
    | .draining false, .resume => some (s.drain t)
    | .entering false, .resume => some (s.queueUp t)
    | .upgrading false, .resume => some (s.upgrade t)
    | _, _ => none

def Blocked (l : Lock T) : Phase → Prop
  | .wanting _ => l.wantWrite = true
  | .draining _ => l.readCount ≠ 0 ∨ l.wantUpgrade = true
  | .entering _ => l.wantWrite = true ∨ l.wantUpgrade = true
  | .upgrading _ => l.readCount ≠ 0
  | _ => True

structure Counted [Fintype T] (s : Sys T) : Prop where
  readers : s.lock.readCount = census Phase.reads s.phase
  writer : s.lock.wantWrite = true ↔ ∃ t, (s.phase t).wantsWrite = true
  upgrader : s.lock.wantUpgrade = true ↔ ∃ t, (s.phase t).wantsUpgrade = true

structure Safe [Fintype T] (s : Sys T) : Prop where
  counted : Counted s
  oneWriter : ∀ t u, (s.phase t).writes = true → (s.phase u).writes = true → t = u
  noReader : ∀ t u, (s.phase t).writes = true → s.phase u ≠ .reading
  oneUpgrade : ∀ t u, (s.phase t).wantsUpgrade = true → (s.phase u).wantsUpgrade = true → t = u
  failed : ∀ t, s.phase t = .reading → (s.lockReadToWrite t).2 = true →
    (s.lockReadToWrite t).1.phase t = .idle ∧ Counted (s.lockReadToWrite t).1
  wakeful : ∀ t, (s.phase t).asleep = true → Blocked s.lock (s.phase t)

end MachUS.Ufs.SleepLock
