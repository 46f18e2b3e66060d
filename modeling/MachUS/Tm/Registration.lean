import MachUS.Foundation.Transition
import Mathlib.Logic.Function.Basic

namespace MachUS.Tm.Registration

open Function

structure TmTask where
  taskId : ℕ
  kernelPort : ℕ
  dead : Bool
  session : ℕ
  tgrp : Option ℕ
  counted : Bool

structure Entry where
  task : ℕ
  installed : Bool
  deriving DecidableEq

inductive Source where
  | forked (parent : ℕ)
  | initial
  deriving DecidableEq

def Source.accepts : Source → Bool → Bool
  | .forked _, _ => true
  | .initial, ok => ok

inductive Lookup where
  | deregister
  | postRegister
  deriving DecidableEq

inductive Phase where
  | idle
  | joining (task : ℕ) (source : Source)
  | counting (task : ℕ) (source : Source)
  | cancelling (task : ℕ)
  | installing (task : ℕ) (source : Source)
  | entering (task : ℕ) (source : Source)
  | forwarding (task : ℕ) (source : Source)
  | undoing (task : ℕ) (source : Source)
  | agents (task : ℕ)
  | reading (port record : ℕ) (purpose : Lookup)
  | seeking (port id : ℕ) (purpose : Lookup)
  | dying (port id task : ℕ)
  | leaving (port id task : ℕ)
  | uncounting (port id task : ℕ)
  | unmapping (port id task : ℕ)
  | burying (id task : ℕ)
  deriving DecidableEq

inductive Request where
  | register (source : Source) (id port : ℕ)
  | postRegister (port : ℕ)
  | deregister (port : ℕ)

structure Report where
  task : ℕ
  success : Bool
  left : Bool

structure Answers where
  ok : Bool
  group : Option ℕ

inductive Event (T : Type) where
  | call (t : T) (r : Request)
  | act (t : T) (a : Answers)

structure Master (T : Type) where
  task : ℕ → TmTask
  tasks : ℕ
  taskDir : ℕ → Option Entry
  portTable : ℕ → Option ℕ
  record : ℕ → Option ℕ
  records : ℕ
  numOfTasks : ℕ → ℕ
  sessions : ℕ
  phase : T → Phase
  reports : List Report
  faulted : Bool

namespace Master

variable {T : Type}

def boot : Master T where
  task := fun _ => ⟨0, 0, false, 0, none, false⟩
  tasks := 0
  taskDir := fun _ => none
  portTable := fun _ => none
  record := fun _ => none
  records := 0
  numOfTasks := fun _ => 0
  sessions := 0
  phase := fun _ => .idle
  reports := []
  faulted := false

section Objects

variable (x : Master T)

def amend (k : ℕ) (f : TmTask → TmTask) : Master T :=
  { x with task := update x.task k (f (x.task k)) }

def idOf (k : ℕ) : ℕ := (x.task k).taskId

def portOf (k : ℕ) : ℕ := (x.task k).kernelPort

def setEntry (id : ℕ) (e : Option Entry) : Master T :=
  { x with taskDir := update x.taskDir id e }

def crash : Master T := { x with faulted := true }

def newTask (o : TmTask) : Master T :=
  { x with task := update x.task x.tasks o, tasks := x.tasks + 1 }

def mapped (port : ℕ) : Option ℕ := (x.portTable port).bind x.record

def leaves (k : ℕ) : Bool :=
  x.taskDir (x.idOf k) = some ⟨k, false⟩ || x.taskDir (x.idOf k) = some ⟨k, true⟩ ||
    x.mapped (x.portOf k) = some (x.idOf k) || (x.task k).counted || (x.task k).tgrp.isSome

def report (k : ℕ) (success : Bool) : Master T :=
  { x with reports := ⟨k, success, x.leaves k⟩ :: x.reports }

def enterPortMapping (port id : ℕ) : Master T :=
  match x.portTable port with
  | some _ => x
  | none =>
    { x with
      portTable := update x.portTable port (some x.records)
      record := update x.record x.records (some id)
      records := x.records + 1 }

def removePortMapping (port : ℕ) : Master T :=
  match x.portTable port with
  | none => x
  | some r =>
    { x with
      portTable := update x.portTable port none
      record := update x.record r none }

def cancelEntry (k : ℕ) : Master T :=
  match x.taskDir (x.idOf k) with
  | none => x.crash
  | some ⟨i, installed⟩ =>
    if i = k then if installed then x else x.setEntry (x.idOf k) none else x.crash

end Objects

variable [DecidableEq T] (maxuprc : ℕ) (x : Master T)

section Calls

variable (x : Master T)

def goes (t : T) (p : Phase) : Master T := { x with phase := update x.phase t p }

def construct (id port : ℕ) : Source → Master T
  | .forked parent => x.newTask ⟨id, port, false, (x.task parent).session, none, false⟩
  | .initial =>
    { x.newTask ⟨id, port, false, x.sessions, none, false⟩ with sessions := x.sessions + 1 }

def register (t : T) (source : Source) (id port : ℕ) : Master T :=
  match x.taskDir id with
  | some _ => x
  | none =>
    ((x.construct id port source).setEntry id (some ⟨x.tasks, false⟩)).goes t
      (.joining x.tasks source)

def lookup (t : T) (port : ℕ) (l : Lookup) : Master T :=
  match x.portTable port with
  | none => x
  | some r => x.goes t (.reading port r l)

def start (t : T) : Request → Option (Master T)
  | .register (.forked parent) id port =>
    if parent < x.tasks then some (x.register t (.forked parent) id port) else none
  | .register .initial id port => some (x.register t .initial id port)
  | .postRegister port => some (x.lookup t port .postRegister)
  | .deregister port => some (x.lookup t port .deregister)

def newTgrp (a : Answers) : Source → Option ℕ
  | .forked parent => if a.ok then (x.task parent).tgrp else none
  | .initial => a.group

def join (t : T) (k : ℕ) (source : Source) (a : Answers) : Master T :=
  (x.amend k fun o => { o with tgrp := x.newTgrp a source }).goes t (.counting k source)

def increment (k : ℕ) : Master T :=
  let s := (x.task k).session
  { x.amend k fun o => { o with counted := true } with
    numOfTasks := update x.numOfTasks s (x.numOfTasks s + 1) }

def decrement (k : ℕ) : Master T :=
  let s := (x.task k).session
  { x.amend k fun o => { o with counted := false } with
    numOfTasks := update x.numOfTasks s (x.numOfTasks s - 1) }

def cancel (t : T) (k : ℕ) : Master T := ((x.cancelEntry k).report k false).goes t .idle

def install (t : T) (k : ℕ) (source : Source) (ok : Bool) : Master T :=
  if ok then (x.setEntry (x.idOf k) (some ⟨k, true⟩)).goes t (.entering k source)
  else x.goes t (.undoing k source)

def enter (t : T) (k : ℕ) (source : Source) : Master T :=
  (x.enterPortMapping (x.portOf k) (x.idOf k)).goes t (.forwarding k source)

def succeed (t : T) (k : ℕ) : Source → Master T
  | .forked _ => (x.report k true).goes t .idle
  | .initial => x.goes t (.agents k)

def forward (t : T) (k : ℕ) (source : Source) (ok : Bool) : Master T :=
  if ok then x.succeed t k source else x.goes t (.undoing k source)

def undo (t : T) (k : ℕ) : Source → Master T
  | .forked _ => x.cancel t k
  | .initial => (x.cancelEntry k).goes t (.agents k)

def read (t : T) (port r : ℕ) (l : Lookup) : Master T :=
  match x.record r with
  | none => x.crash
  | some id => x.goes t (.seeking port id l)

def seek (t : T) (port id : ℕ) (l : Lookup) (ok : Bool) : Option (Master T) :=
  match x.taskDir id with
  | none => some (x.goes t .idle)
  | some ⟨_, false⟩ => if ok then none else some (x.goes t .idle)
  | some ⟨k, true⟩ =>
    match l with
    | .postRegister => some (x.goes t .idle)
    | .deregister => some (x.goes t (.dying port id k))

def die (t : T) (port id k : ℕ) : Master T :=
  if (x.task k).dead then x.goes t .idle
  else (x.amend k fun o => { o with dead := true }).goes t (.leaving port id k)

def leave (t : T) (port id k : ℕ) : Master T :=
  (x.amend k fun o => { o with tgrp := none }).goes t (.uncounting port id k)

def bury (t : T) (id : ℕ) (ok : Bool) : Option (Master T) :=
  match x.taskDir id with
  | none => some (x.goes t .idle)
  | some ⟨_, true⟩ => some ((x.setEntry id none).goes t .idle)
  | some ⟨_, false⟩ => if ok then none else some (x.goes t .idle)

end Calls

def count (t : T) (k : ℕ) (source : Source) (ok : Bool) : Master T :=
  if x.numOfTasks (x.task k).session = maxuprc then x.goes t (.cancelling k)
  else (x.increment k).goes t (if source.accepts ok then .installing k source else .cancelling k)

def act (t : T) (a : Answers) : Phase → Option (Master T)
  | .idle => none
  | .joining k source => some (x.join t k source a)
  | .counting k source => some (x.count maxuprc t k source a.ok)
  | .cancelling k => some (x.cancel t k)
  | .installing k source => some (x.install t k source a.ok)
  | .entering k source => some (x.enter t k source)
  | .forwarding k source => some (x.forward t k source a.ok)
  | .undoing k source => some (x.undo t k source)
  | .agents k => some ((x.report k a.ok).goes t .idle)
  | .reading port r l => some (x.read t port r l)
  | .seeking port id l => x.seek t port id l a.ok
  | .dying port id k => some (x.die t port id k)
  | .leaving port id k => some (x.leave t port id k)
  | .uncounting port id k => some ((x.decrement k).goes t (.unmapping port id k))
  | .unmapping port id k => some ((x.removePortMapping port).goes t (.burying id k))
  | .burying id _ => x.bury t id a.ok

def next : Event T → Option (Master T)
  | .call t r =>
    match x.faulted, x.phase t with
    | false, .idle => x.start t r
    | _, _ => none
  | .act t a => if x.faulted then none else x.act maxuprc t a (x.phase t)

end Master

namespace Phase

def owns : Phase → Option ℕ
  | .joining k _ | .counting k _ | .cancelling k | .installing k _ | .entering k _
  | .leaving _ _ k | .uncounting _ _ k | .unmapping _ _ k | .burying _ k => some k
  | _ => none

def hides : Phase → Option ℕ
  | .entering k _ | .burying _ k => some k
  | _ => none

def reserves : Phase → Option ℕ
  | .joining k _ | .counting k _ | .cancelling k | .installing k _ => some k
  | _ => none

theorem owns_of_hides {p : Phase} {k : ℕ} (h : p.hides = some k) : p.owns = some k := by
  cases p <;> first | exact h | cases h

theorem owns_of_reserves {p : Phase} {k : ℕ} (h : p.reserves = some k) : p.owns = some k := by
  cases p <;> first | exact h | cases h

end Phase

namespace Master

section Views

variable {T : Type} (x : Master T)

def Reserved (k : ℕ) : Prop := x.taskDir (x.idOf k) = some ⟨k, false⟩

def Installed (k : ℕ) : Prop := x.taskDir (x.idOf k) = some ⟨k, true⟩

def Public (k : ℕ) : Prop := x.Installed k ∧ x.mapped (x.portOf k) = some (x.idOf k)

def Struck (port id k : ℕ) : Prop := port = x.portOf k ∧ id = x.idOf k

def Fits : Phase → Prop
  | .joining k _ | .counting k _ => x.Reserved k ∧ (x.task k).counted = false
  | .installing k _ => x.Reserved k
  | .cancelling k => x.Reserved k ∧ (x.task k).counted = false ∧ (x.task k).tgrp = none
  | .entering k _ => x.Installed k
  | .undoing _ _ => False
  | .dying port id k => x.Struck port id k ∧ ((x.task k).dead = true ∨ x.Public k)
  | .leaving port id k | .uncounting port id k | .unmapping port id k =>
    x.Struck port id k ∧ (x.task k).dead = true ∧ x.Public k
  | .burying id k => id = x.idOf k ∧ (x.task k).dead = true ∧ x.Installed k
  | _ => True

structure Inv : Prop where
  named : ∀ id k b, x.taskDir id = some ⟨k, b⟩ → id = x.idOf k ∧ k < x.tasks
  fits : ∀ t, x.Fits (x.phase t)
  owner : ∀ t u k, (x.phase t).owns = some k → (x.phase u).owns = some k → t = u
  mapped : ∀ port r, x.portTable port = some r → r < x.records ∧ ∃ k, x.record r = some (x.idOf k) ∧
    x.portOf k = port ∧ x.Installed k ∧ ∀ t, (x.phase t).hides ≠ some k
  reserved : ∀ k, x.Reserved k → ∃ t, (x.phase t).reserves = some k
  installed : ∀ k, x.Installed k → x.Public k ∨ ∃ t, (x.phase t).hides = some k
  fresh : ∀ k, x.tasks ≤ k → (x.task k).dead = false
  reports : ∀ r ∈ x.reports, r.success = false → r.left = false
  faulted : x.faulted = false

def Quiet : Prop := ∀ t, x.phase t = .idle

structure Agreed : Prop where
  tables : x.Quiet → ∀ port id, x.mapped port = some id ↔
    ∃ k, x.taskDir id = some ⟨k, true⟩ ∧ x.portOf k = port
  single : x.Quiet → ∀ id k, x.taskDir id = some ⟨k, true⟩ →
    (∀ id', x.taskDir id' = some ⟨k, true⟩ → id' = id) ∧ ∃! port, x.mapped port = some id
  settled : x.Quiet → ∀ id k, x.taskDir id ≠ some ⟨k, false⟩
  reports : ∀ r ∈ x.reports, r.success = false → r.left = false
  answered : x.faulted = false

end Views

variable {T : Type}

def Orderly (maxuprc : ℕ) (x : Master T) : Event T → Prop
  | .call _ _ => True
  | .act t a =>
    match x.phase t with
    | .counting k source =>
      if x.numOfTasks (x.task k).session = maxuprc then (x.task k).tgrp = none
      else source.accepts a.ok = true
    | .installing _ _ | .forwarding _ _ => a.ok = true
    | .entering k _ => x.portTable (x.portOf k) = none
    | .agents k => a.ok = true ∨ x.leaves k = false
    | .reading _ r _ => x.record r ≠ none
    | .seeking port id .deregister =>
      match x.taskDir id with
      | some ⟨k, true⟩ => port = x.portOf k ∧ ((x.task k).dead = true ∨ x.mapped port = some id)
      | _ => True
    | _ => True

end Master

end MachUS.Tm.Registration
