import MachUS.Foundation.Transition
import MachUS.Foundation.Tally
import Mathlib.Data.Set.Card

namespace MachUS.Tm.Sessions

open Function

abbrev Cred := List ℕ

abbrev Prot := List (ℕ × ℕ)

def Prot.owned (p : Prot) (c : Cred) : Prot :=
  (p.modify 0 fun e => (c.getD 0 0, e.2)).modify 1 fun e => (c.getD 1 0, e.2)

inductive Life where
  | unborn
  | made
  | live
  | listed
  | refused
  | dead
  deriving DecidableEq

structure TmTask where
  life : Life
  session : ℕ
  taskCred : Option Cred
  prot : Prot
  first : Bool
  held : ℕ
  seated : Bool

structure TmSession where
  numOfTasks : ℕ
  refs : ℕ

inductive Request where
  | registerInitial (prot : Prot)
  | fork (parent : ℕ)
  | changeTaskAuth (task : ℕ)
  | taskDeath (task : ℕ)

inductive Phase where
  | idle
  | inheriting (task parent : ℕ)
  | referencing (task parent : ℕ)
  | authenticating (task : ℕ)
  | joining (task : ℕ) (failed : Bool)
  | introducing (task : ℕ)
  | departing (task : ℕ)
  | dropping (task : ℕ)
  | translating (task : ℕ)
  | renewing (task : ℕ)
  | rejoining (task : ℕ)
  | dying (task : ℕ)
  | releasing (task : ℕ)

structure Report where
  task : ℕ
  success : Bool
  touched : Bool
  translated : Bool

inductive Introduced where
  | done
  | failed
  | listed
  deriving DecidableEq

structure Answers where
  ok : Bool
  cred : Option Cred
  introduced : Introduced

inductive Event (T : Type) where
  | call (t : T) (r : Request) (a : Answers)
  | act (t : T) (a : Answers)

structure Master (T : Type) where
  task : ℕ → TmTask
  session : ℕ → TmSession
  tasks : ℕ
  sessions : ℕ
  phase : T → Phase
  reports : List Report
  faulted : Bool

namespace Master

variable {T : Type}

def boot : Master T where
  task := fun _ => ⟨.unborn, 0, none, [], false, 0, false⟩
  session := fun _ => ⟨0, 0⟩
  tasks := 0
  sessions := 0
  phase := fun _ => .idle
  reports := []
  faulted := false

section Objects

variable (x : Master T)

def amend (k : ℕ) (f : TmTask → TmTask) : Master T :=
  { x with task := update x.task k (f (x.task k)) }

def amendSession (s : ℕ) (f : TmSession → TmSession) : Master T :=
  { x with session := update x.session s (f (x.session s)) }

def sessionOf (k : ℕ) : TmSession := x.session (x.task k).session

def crash : Master T := { x with faulted := true }

def report (r : Report) : Master T := { x with reports := r :: x.reports }

def tasksIncrement (k : ℕ) : Master T :=
  (x.amendSession (x.task k).session fun s => { s with numOfTasks := s.numOfTasks + 1 }).amend k
    fun o => { o with seated := true }

def tasksDecrement (k : ℕ) : Master T :=
  (x.amendSession (x.task k).session fun s => { s with numOfTasks := s.numOfTasks - 1 }).amend k
    fun o => { o with seated := false }

def reference (k : ℕ) : Master T :=
  (x.amendSession (x.task k).session fun s => { s with refs := s.refs + 1 }).amend k
    fun o => { o with held := o.held + 1 }

def dereference (k : ℕ) : Master T :=
  (x.amendSession (x.task k).session fun s => { s with refs := s.refs - 1 }).amend k
    fun o => { o with held := o.held - 1 }

def newSession (k : ℕ) (first : Bool) : Master T :=
  { x.amend k fun o => { o with session := x.sessions, first := first, held := 1 } with
    session := update x.session x.sessions ⟨0, 1⟩
    sessions := x.sessions + 1 }

def newTask (o : TmTask) : Master T :=
  { x with task := update x.task x.tasks o, tasks := x.tasks + 1 }

end Objects

section Calls

variable [DecidableEq T] (x : Master T)

def goes (t : T) (p : Phase) : Master T := { x with phase := update x.phase t p }

def registerInitial (t : T) (prot : Prot) (a : Answers) : Master T :=
  if a.ok then
    let y := x.newTask ⟨.made, 0, none, prot, false, 0, false⟩
    ((y.newSession x.tasks true).reference x.tasks).goes t (.authenticating x.tasks)
  else x

def fork (t : T) (parent : ℕ) (a : Answers) : Master T :=
  if a.ok then
    (x.newTask ⟨.made, 0, (x.task parent).taskCred, [], false, 0, false⟩).goes t
      (.inheriting x.tasks parent)
  else x

def changeTaskAuth (t : T) (k : ℕ) (a : Answers) : Master T :=
  if a.ok then x.goes t (.departing k) else x.report ⟨k, false, false, false⟩

def taskDeath (t : T) (k : ℕ) : Master T :=
  if (x.task k).life = .dead then x
  else (x.amend k fun o => { o with life := .dead }).goes t (.dying k)

def Known (k : ℕ) : Prop :=
  (x.task k).life = .live ∨ (x.task k).life = .listed ∨ (x.task k).life = .dead

instance (k : ℕ) : Decidable (x.Known k) := inferInstanceAs (Decidable (_ ∨ _))

def start (t : T) (a : Answers) : Request → Option (Master T)
  | .registerInitial prot => some (x.registerInitial t prot a)
  | .fork parent => if x.Known parent then some (x.fork t parent a) else none
  | .changeTaskAuth k => if x.Known k then some (x.changeTaskAuth t k a) else none
  | .taskDeath k => if x.Known k then some (x.taskDeath t k) else none

def inherit (t : T) (k parent : ℕ) : Master T :=
  (x.amend k fun o => { o with session := (x.task parent).session }).goes t (.referencing k parent)

def referenceSession (t : T) (k parent : ℕ) : Master T :=
  if (x.sessionOf k).refs = 0 then x.crash
  else
    ((x.reference k).amend k fun o => { o with prot := (x.task parent).prot }).goes t
      (.joining k false)

def authenticate (t : T) (k : ℕ) (a : Answers) : Master T :=
  (x.amend k fun o => { o with taskCred := a.cred }).goes t (.joining k a.cred.isNone)

def introduce (t : T) (k : ℕ) : Introduced → Master T
  | .done => (x.amend k fun o => { o with life := .live }).goes t .idle
  | .failed => (x.amend k fun o => { o with life := .refused }).goes t .idle
  | .listed => (x.amend k fun o => { o with life := .listed }).goes t .idle

def drop (t : T) (k : ℕ) (p : Phase) : Master T :=
  if (x.sessionOf k).refs = 0 then x.crash else (x.dereference k).goes t p

-- A token that is not valid leaves a null task_cred, through which the next call goes.
def translate (t : T) (k : ℕ) (a : Answers) : Master T :=
  match a.cred with
  | none => (x.amend k fun o => { o with taskCred := none }).crash
  | some c =>
    (x.amend k fun o => { o with taskCred := some c, prot := o.prot.owned c }).goes t (.renewing k)

end Calls

variable [DecidableEq T] (maxuprc : ℕ) (x : Master T)

def join (t : T) (k : ℕ) (failed : Bool) : Master T :=
  if (x.sessionOf k).numOfTasks = maxuprc then
    (x.amend k fun o => { o with life := .refused }).goes t .idle
  else if failed then
    ((x.tasksIncrement k).amend k fun o => { o with life := .refused }).goes t .idle
  else (x.tasksIncrement k).goes t (.introducing k)

def rejoin (t : T) (k : ℕ) : Master T :=
  if (x.sessionOf k).numOfTasks = maxuprc then
    (x.report ⟨k, false, true, true⟩).goes t .idle
  else ((x.tasksIncrement k).report ⟨k, true, true, true⟩).goes t .idle

def act (t : T) (a : Answers) : Phase → Option (Master T)
  | .idle => none
  | .inheriting k parent => some (x.inherit t k parent)
  | .referencing k parent => some (x.referenceSession t k parent)
  | .authenticating k => some (x.authenticate t k a)
  | .joining k failed => some (x.join maxuprc t k failed)
  | .introducing k => some (x.introduce t k a.introduced)
  | .departing k => some ((x.tasksDecrement k).goes t (.dropping k))
  | .dropping k => some (x.drop t k (.translating k))
  | .translating k => some (x.translate t k a)
  | .renewing k => some ((x.newSession k false).goes t (.rejoining k))
  | .rejoining k => some (x.rejoin maxuprc t k)
  | .dying k => some ((x.tasksDecrement k).goes t (.releasing k))
  | .releasing k => some (x.drop t k .idle)

def next : Event T → Option (Master T)
  | .call t r a =>
    match x.faulted, x.phase t with
    | false, .idle => x.start t a r
    | _, _ => none
  | .act t a => if x.faulted then none else x.act maxuprc t a (x.phase t)

end Master

namespace TmTask

variable (o : TmTask)

def due : ℕ := if o.first then 2 else 1

def Vacant : Prop := o.seated = false ∧ o.held = 0

def Away : Prop := (o.life = .live ∨ o.life = .dead) ∧ o.seated = false

def heldOn (s : ℕ) : ℕ := if o.session = s then o.held else 0

def seatOn (s : ℕ) : ℕ := if o.seated = true ∧ o.session = s then 1 else 0

def Rests (dying : Prop) : Prop :=
  match o.life with
  | .unborn => o.Vacant
  | .made | .listed => False
  | .live => o.seated = true ∧ o.held = o.due
  | .refused => o.seated = false
  | .dead => (o.seated = true → dying) ∧ (dying → o.seated = true ∧ o.held = o.due)

end TmTask

namespace Phase

def moves : Phase → Option ℕ
  | .inheriting k _ | .referencing k _ | .authenticating k | .joining k _ | .introducing k
  | .dropping k | .translating k | .renewing k | .rejoining k => some k
  | .idle | .departing _ | .dying _ | .releasing _ => none

def buries : Phase → Option ℕ
  | .dying k | .releasing k => some k
  | _ => none

def Between : Phase → ℕ → Prop
  | .dropping k, i | .translating k, i | .renewing k, i | .rejoining k, i => k = i
  | _, _ => False

def Fits : Phase → TmTask → Prop
  | .inheriting _ _, o | .referencing _ _, o => o.life = .made ∧ o.Vacant ∧ o.first = false
  | .authenticating _, o => o.life = .made ∧ o.seated = false ∧ o.held = o.due
  | .joining _ failed, o => o.life = .made ∧ o.seated = false ∧ o.held = o.due ∧ failed = false
  | .introducing _, o => o.life = .made ∧ o.seated = true ∧ o.held = o.due
  | .dropping _, o => o.Away ∧ o.held = o.due
  | .translating _, o | .renewing _, o => o.Away
  | .rejoining _, o => o.Away ∧ o.held = o.due ∧ o.first = false
  | .dying _, o => o.life = .dead
  | .releasing _, o => o.life = .dead ∧ o.seated = false ∧ o.held = o.due
  | .idle, _ | .departing _, _ => True

end Phase

namespace Master

section Views

variable {T : Type} (x : Master T)

def Dying (k : ℕ) : Prop := ∃ t, x.phase t = .dying k

def Rests (k : ℕ) : Prop := (x.task k).Rests (x.Dying k)

def Free (k : ℕ) : Prop := ∀ t, ¬(x.phase t).Between k

structure Staged : Prop where
  fits : ∀ t k, (x.phase t).moves = some k ∨ (x.phase t).buries = some k →
    (x.phase t).Fits (x.task k)
  mover : ∀ t u k, (x.phase t).moves = some k → (x.phase u).moves = some k → t = u
  burier : ∀ t u k, (x.phase t).buries = some k → (x.phase u).buries = some k → t = u
  mourned : ∀ t k, (x.phase t).moves = some k → (x.task k).life = .dead → x.Dying k
  apart : ∀ t u k, x.phase t = .releasing k → (x.phase u).moves ≠ some k
  rests : ∀ k, (∃ t, (x.phase t).moves = some k) ∨ (∃ t, x.phase t = .releasing k) ∨ x.Rests k

def Members (s : ℕ) : Set ℕ := {k | (x.task k).session = s ∧
  (x.Free k ∧ ((x.task k).life = .live ∨ x.Dying k) ∨ ∃ t, x.phase t = .introducing k)}

end Views

variable {T : Type} (maxuprc : ℕ) (x : Master T)

structure Counted : Prop where
  count : ∀ s, (x.session s).numOfTasks = Tally.tally x.tasks x.task (·.seatOn s)
  refs : ∀ s, Tally.tally x.tasks x.task (·.heldOn s) ≤ (x.session s).refs
  bound : ∀ s, (x.session s).numOfTasks ≤ maxuprc
  unborn : ∀ k, x.tasks ≤ k → (x.task k).life = .unborn
  born : ∀ k, (x.task k).life = .unborn → (x.task k).Vacant
  housed : ∀ k, (x.task k).seated = true ∨ 0 < (x.task k).held →
    (x.task k).session < x.sessions
  unused : ∀ s, x.sessions ≤ s → x.session s = ⟨0, 0⟩

structure Inv : Prop where
  staged : x.Staged
  counted : x.Counted maxuprc
  reports : ∀ r ∈ x.reports, (r.success = false → r.touched = false) ∧
    (r.translated = false → r.success = false)
  faulted : x.faulted = false

def Orderly : Event T → Prop
  | .call _ _ _ => True
  | .act t a =>
    match x.phase t with
    | .referencing k _ => ((x.session (x.task k).session)).refs ≠ 0
    | .authenticating _ | .translating _ => a.cred ≠ none
    | .introducing _ => a.introduced = .done
    | .departing k => (x.task k).life = .live ∧ x.Free k
    | .dying k => x.Free k
    | .rejoining k => (x.session (x.task k).session).numOfTasks ≠ maxuprc
    | _ => True

structure Balanced (P : ℕ → Prop) : Prop where
  count : ∀ s, (x.session s).numOfTasks = (x.Members s).ncard
  bound : ∀ s, (x.session s).numOfTasks ≤ maxuprc
  held : ∀ k, (x.task k).life = .live → x.Free k → P k → (x.task k).held = 1
  reports : ∀ r ∈ x.reports, (r.success = false → r.touched = false) ∧
    (r.translated = false → r.success = false)
  answered : x.faulted = false

end Master

end MachUS.Tm.Sessions
