import MachUS.Foundation.Transition
import Mathlib.Data.UInt

namespace MachUS.Tm

open Function

inductive RunState where
  | running
  | stopped
  | dead
  deriving DecidableEq

inductive Signal where
  | kill
  | stop
  | cont
  | chld
  | other (n : ℤ)
  deriving DecidableEq

abbrev WaitStatus := UInt32

namespace WaitStatus

def stopval (status : WaitStatus) : UInt32 := status &&& 0xff

def wstopped : UInt32 := 0x7f

def killed : WaitStatus := 9

def stopped : WaitStatus := 0x117f

def default : WaitStatus := 0xff00

def update (old status mask : WaitStatus) : WaitStatus := (old &&& ~~~mask) ||| (status &&& mask)

end WaitStatus

structure Family (Task : Type) where
  parent : Task → Task
  taskId : Task → ℤ
  find : ℤ → Option Task
  born : Task → ℕ
  named : ∀ i t, find i = some t → taskId t = i
  unique : Injective taskId
  older : ∀ t, parent t = t ∨ born (parent t) < born t

-- The fields of a tm_task, what the kernel makes of the task master's calls on it, and, for
-- the record, how often it was suspended, in which states it was resumed and whether it died.
structure TaskState where
  state : RunState
  lastTmPostId : ℤ
  lastHurtmeId : ℤ
  emulStatus : WaitStatus
  suspendCount : ℕ
  terminated : Bool
  suspends : ℕ
  resumes : List RunState
  died : Bool

namespace TaskState

def init : TaskState := ⟨.running, 0, 0, .default, 0, false, 0, [], false⟩

variable (s : TaskState)

def taskSuspend (ok : Bool) : TaskState :=
  { s with
    suspendCount := if ok then s.suspendCount + 1 else s.suspendCount
    suspends := s.suspends + 1 }

def taskResume (ok : Bool) : TaskState :=
  { s with
    suspendCount := if ok then s.suspendCount - 1 else s.suspendCount
    resumes := s.resumes ++ [s.state] }

def taskTerminate : TaskState := { s with terminated := true }

def Ignores (postId : ℤ) : Prop := postId ≠ 0 ∧ postId ≤ s.lastHurtmeId

instance (postId : ℤ) : Decidable (s.Ignores postId) := inferInstanceAs (Decidable (_ ∧ _))

def noted (status : WaitStatus) (postId : ℤ) : TaskState :=
  { s with
    lastHurtmeId := if postId ≠ 0 then postId else s.lastHurtmeId
    emulStatus := status }

def posting : TaskState := { s with lastTmPostId := (s.lastTmPostId + 1).bmod (2 ^ 32) }

end TaskState

structure Attempt where
  running : Bool
  suspends : ℕ

inductive Act (Task : Type) where
  | event (t : Task) (ev : Signal) (code : ℤ) (subcode : WaitStatus)
  | hurtme (t : Task) (ev : Signal) (status : WaitStatus) (postId : ℤ) (attempt : Option Attempt)
  | setEmulStatus (t : Task) (status mask : WaitStatus)
  | setTgrp (t : Task)
  | death (t : Task)
  | unlock (t : Task)
  | post (t : Task) (ev : Signal) (postId : ℤ) (suspends : ℕ)
  | tellParent (t : Task)

structure Report where
  signal : Signal
  running : Bool
  posted : Bool
  terminated : Bool
  suspended : Bool
  forced : Bool

structure Outside where
  kernelOk : Bool
  posted : Bool
  found : Bool

section Calls

variable {Task : Type} [DecidableEq Task] (f : Family Task) (t : Task) (s : TaskState) (o : Outside)

def forcedStatus : Signal → WaitStatus
  | .kill => .killed
  | _ => .stopped

def Forces (ev : Signal) (postId : ℤ) : Prop :=
  ¬s.Ignores postId ∧ (ev = .stop → s.state = .running)

instance (ev : Signal) (postId : ℤ) : Decidable (Forces s ev postId) :=
  inferInstanceAs (Decidable (_ ∧ _))

def tmHurtme (ev : Signal) (status : WaitStatus) (postId : ℤ) : TaskState × List (Act Task) :=
  if s.Ignores postId then (s, [.unlock t])
  else if ev = .stop then
    if s.state = .running then
      ({ (s.noted status postId).taskSuspend o.kernelOk with state := .stopped },
        [.event (f.parent t) .chld (f.taskId t) status, .unlock t])
    else (s.noted status postId, [.unlock t])
  else ((s.noted status postId).taskTerminate, [.unlock t])

def child (code : ℤ) (subcode : WaitStatus) : Option Task :=
  if code ≠ 0 ∧ subcode.stopval ≠ WaitStatus.wstopped ∧ o.found then f.find code else none

def tmEventToTaskThread (ev : Signal) (code : ℤ) (subcode : WaitStatus) :
    TaskState × List (Act Task) :=
  if s.state = .dead then (s, [.unlock t])
  else
    match ev with
    | .kill | .stop =>
      let postId := s.posting.lastTmPostId
      if s.state = .running then (s.posting, [.unlock t, .post t ev postId s.suspends])
      else
        (s.posting,
          [.unlock t, .hurtme t ev (forcedStatus ev) postId (some ⟨false, s.suspends⟩)])
    | .cont => ({ s.taskResume o.kernelOk with emulStatus := 0, state := .running }, [.unlock t])
    | .chld =>
      match child f o code subcode with
      | some c => (s, [.setEmulStatus c subcode (~~~0), .unlock t])
      | none => (s, [.unlock t])
    | .other _ => (s, [.unlock t])

def tmSetTaskEmulStatus (status mask : WaitStatus) : TaskState × List (Act Task) :=
  ({ s with emulStatus := .update s.emulStatus status mask }, [.unlock t])

def tmSetTgrp : TaskState × List (Act Task) := (s, [.unlock t])

def tmTaskDeath : TaskState × List (Act Task) :=
  if s.state = .dead then (s, [.unlock t])
  else ({ s with state := .dead, died := true }, [.unlock t, .setTgrp t, .tellParent t])

def epitaph : TaskState :=
  if s.emulStatus.stopval = WaitStatus.wstopped then { s with emulStatus := .default } else s

end Calls

structure World (Task Thread : Type) where
  task : Task → TaskState
  lock : Task → Option Thread
  todo : Thread → List (Act Task)
  reports : List Report

namespace World

inductive Event (Task Thread : Type) where
  | call (th : Thread) (a : Act Task)
  | step (th : Thread) (o : Outside)

variable {Task Thread : Type}

def init : World Task Thread := ⟨fun _ => .init, fun _ => none, fun _ => [], []⟩

end World

namespace Act

variable {Task : Type}

def wants : Act Task → Option Task
  | .event t _ _ _ => some t
  | .hurtme t _ _ _ _ => some t
  | .setEmulStatus t _ _ => some t
  | .setTgrp t => some t
  | .death t => some t
  | _ => none

def Entry : Act Task → Prop
  | .event _ _ _ _ => True
  | .hurtme _ _ _ _ none => True
  | .setEmulStatus _ _ _ => True
  | .setTgrp _ => True
  | .death _ => True
  | _ => False

instance : ∀ a : Act Task, Decidable a.Entry
  | .event _ _ _ _ | .hurtme _ _ _ _ none | .setEmulStatus _ _ _ | .setTgrp _ | .death _ =>
    .isTrue trivial
  | .hurtme _ _ _ _ (some _) | .unlock _ | .post _ _ _ _ | .tellParent _ => .isFalse id

end Act

namespace World

variable {Task Thread : Type} [DecidableEq Task] [DecidableEq Thread] (f : Family Task)
  (x : World Task Thread)

def enters (th : Thread) (t : Task) (rest : List (Act Task)) (r : TaskState × List (Act Task)) :
    World Task Thread :=
  { x with
    task := update x.task t r.1
    lock := update x.lock t (some th)
    todo := update x.todo th (r.2 ++ rest) }

def goes (th : Thread) (rest : List (Act Task)) : World Task Thread :=
  { x with todo := update x.todo th rest }

def forcing (t : Task) (ev : Signal) (postId : ℤ) (attempt : Attempt) (s : TaskState) : Report where
  signal := ev
  running := attempt.running
  posted := attempt.running
  terminated := s.terminated
  suspended := !attempt.running || attempt.suspends < s.suspends
  forced := Forces (x.task t) ev postId

def perform (th : Thread) (o : Outside) (rest : List (Act Task)) :
    Act Task → Option (World Task Thread)
  | .event t ev code subcode =>
    if x.lock t = none then
      some (x.enters th t rest (tmEventToTaskThread f t (x.task t) o ev code subcode))
    else none
  | .hurtme t ev status postId attempt =>
    if x.lock t = none then
      let r := tmHurtme f t (x.task t) o ev status postId
      some { x.enters th t rest r with
        reports := x.reports ++ (attempt.map (x.forcing t ev postId · r.1)).toList }
    else none
  | .setEmulStatus t status mask =>
    if x.lock t = none then
      some (x.enters th t rest (tmSetTaskEmulStatus t (x.task t) status mask))
    else none
  | .setTgrp t =>
    if x.lock t = none then some (x.enters th t rest (tmSetTgrp t (x.task t))) else none
  | .death t =>
    if x.lock t = none then some (x.enters th t rest (tmTaskDeath t (x.task t))) else none
  | .unlock t => some { x.goes th rest with lock := update x.lock t none }
  | .post t ev postId n =>
    if o.posted then
      some (x.goes th (.hurtme t ev (forcedStatus ev) postId (some ⟨true, n⟩) :: rest))
    else
      some { x.goes th rest with
        reports := x.reports ++
          [⟨ev, true, false, (x.task t).terminated, n < (x.task t).suspends, false⟩] }
  | .tellParent t =>
    let y := { x with task := update x.task t (epitaph (x.task t)) }
    if f.parent t ≠ t ∧ (x.task (f.parent t)).state ≠ .dead then
      some (y.goes th
        (.event (f.parent t) .chld (f.taskId t) (epitaph (x.task t)).emulStatus :: rest))
    else some (y.goes th rest)

def next : Event Task Thread → Option (World Task Thread)
  | .call th a => if x.todo th = [] ∧ a.Entry then some (x.goes th [a]) else none
  | .step th o =>
    match x.todo th with
    | [] => none
    | a :: rest => x.perform f th o rest a

end World

namespace Sample

def family : Family (Fin 2) where
  parent := fun _ => 0
  taskId := fun t => t + 1
  find := fun i => if i = 1 then some 0 else if i = 2 then some 1 else none
  born := fun t => t
  named := by
    intro i t h
    split_ifs at h with h1 h2
    · cases h
      simp [h1]
    · cases h
      simp [h2]
  unique := by
    intro t u h
    simpa [Fin.ext_iff] using h
  older := by decide

def fine : Outside := ⟨true, true, true⟩

def steps (n : ℕ) : List (World.Event (Fin 2) (Fin 2)) := List.replicate n (.step 0 fine)

end Sample

end MachUS.Tm
