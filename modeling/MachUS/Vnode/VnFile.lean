import MachUS.Foundation.Transition
import Mathlib.Data.List.Count

namespace MachUS.Vnode

inductive AotState where
  | dirActive
  | fileActive
  | fileMustClean
  | inactive
  deriving DecidableEq

structure NsAccess where
  read : Bool
  write : Bool
  execute : Bool
  deriving DecidableEq

namespace NsAccess

def none : NsAccess := ⟨false, false, false⟩

def performsIo (a : NsAccess) : Bool := a.read || a.write || a.execute

end NsAccess

structure VnFile where
  state : AotState
  vnRefcount : ℤ
  numWriters : ℤ
  ioActive : Bool
  temporary : Bool
  writable : Bool

namespace VnFile

variable (f : VnFile)

def vnReference : VnFile := { f with vnRefcount := f.vnRefcount + 1 }

def startIo (a : NsAccess) (ok : Bool) : Option VnFile :=
  if a.performsIo && !f.ioActive then
    if ok then some { f with ioActive := true } else none
  else some f

def count (a : NsAccess) : VnFile :=
  { f with
    vnRefcount := f.vnRefcount + 1
    numWriters := if a.write then f.numWriters + 1 else f.numWriters
    writable := f.writable || a.write }

def activate : VnFile :=
  if f.ioActive ∧ 0 < f.numWriters then { f with state := .fileMustClean }
  else if f.state ≠ .fileMustClean then { f with state := .fileActive }
  else f

def nsRegisterAgent (a : NsAccess) (ok : Bool) : Option VnFile :=
  (f.startIo a ok).map fun g => (g.count a).activate

def uncount (a : NsAccess) : VnFile :=
  { f with
    vnRefcount := f.vnRefcount - 1
    numWriters := if a.write then f.numWriters - 1 else f.numWriters }

def deactivate : Option VnFile :=
  if f.state = .fileMustClean then if f.ioActive then some f else none
  else some { f with state := .inactive }

def nsUnregisterAgent (a : NsAccess) : Option VnFile :=
  if (f.uncount a).vnRefcount = 0 then (f.uncount a).deactivate else some (f.uncount a)

def vnMarkTemporary : VnFile := { f with temporary := true }

def vnMarkPermanent : VnFile :=
  if 0 < f.numWriters then { f with temporary := false, state := .fileMustClean }
  else { f with temporary := false }

def cleanStarts : VnFile := if f.numWriters = 0 then { f with writable := false } else f

def cleanEnds : Option VnFile :=
  if f.vnRefcount = 0 then
    if f.ioActive then some { f with state := .inactive } else none
  else if !f.writable || f.temporary then some { f with state := .fileActive }
  else some f

-- ok: io_deactivate succeeds.
def vnDestroy (ok : Bool) : Bool × VnFile :=
  if f.vnRefcount = 0 then
    if f.ioActive then if ok then (true, { f with ioActive := false }) else (false, f)
    else (true, f)
  else (false, f)

end VnFile

inductive Hold where
  | reference
  | agent (a : NsAccess)
  deriving DecidableEq

namespace Hold

def access : Hold → NsAccess
  | reference => .none
  | agent a => a

def writes (h : Hold) : Bool := h.access.write

end Hold

inductive Call where
  | lookup
  | registerAgent (a : NsAccess)
  | unregister (h : Hold)
  | markTemporary
  | markPermanent
  | clean
  | settle (ok : Bool)
  | destroy
  deriving DecidableEq

inductive Phase where
  | idle
  | waiting (c : Call)
  | entered (c : Call)
  | locked (c : Call)
  | leaving (cleans : Bool)
  | cleaning
  | freeing
  deriving DecidableEq

inductive Event (T : Type) where
  | call (t : T) (c : Call)
  | clean
  | destroy
  | act (p : Option T) (ok : Bool)
  | write (t : T)
  | pass (t u : T) (h : Hold)

structure Server (T : Type) where
  file : VnFile
  entryLock : Option (Option T)
  vnLock : Option (Option T)
  phase : Option T → Phase
  held : List (T × Hold)
  dirty : Bool
  fresh : Bool
  destroyed : Bool
  critical : Bool

namespace Server

variable {T : Type}

def boot (t : T) : Server T where
  file := ⟨.fileActive, 1, 0, false, false, false⟩
  entryLock := none
  vnLock := none
  phase := fun _ => .idle
  held := [(t, .reference)]
  dirty := false
  fresh := false
  destroyed := false
  critical := false

variable [DecidableEq T] (x : Server T)

def goes (p : Option T) (q : Phase) : Server T := { x with phase := Function.update x.phase p q }

def Holds (t : T) : Prop := ∃ e ∈ x.held, e.1 = t

instance (t : T) : Decidable (x.Holds t) := inferInstanceAs (Decidable (∃ e ∈ x.held, e.1 = t))

def May (t : T) : Call → Prop
  | .lookup => True
  | .registerAgent _ | .markTemporary | .markPermanent => x.Holds t
  | .unregister h => (t, h) ∈ x.held
  | .clean | .settle _ | .destroy => False

instance (t : T) (c : Call) : Decidable (x.May t c) := by
  cases c <;> unfold May <;> infer_instance

def grant (p : Option T) (h : Hold) : List (T × Hold) :=
  match p with
  | some t => (t, h) :: x.held
  | none => x.held

def revoke (p : Option T) (h : Hold) : List (T × Hold) :=
  match p with
  | some t => x.held.erase (t, h)
  | none => x.held

def crash : Server T := { x with critical := true }

def release (p : Option T) (f : VnFile) (q : Phase) : Server T :=
  { x with file := f, vnLock := none }.goes p q

def settle (p : Option T) (f : VnFile) : Server T :=
  match f.cleanEnds with
  | none => x.crash
  | some g => x.release p g (.leaving false)

def perform (p : Option T) (ok : Bool) : Call → Server T
  | .lookup =>
    { x with held := x.grant p .reference }.release p x.file.vnReference (.leaving false)
  | .registerAgent a =>
    match x.file.nsRegisterAgent a ok with
    | none => x.release p x.file (.leaving false)
    | some g => { x with held := x.grant p (.agent a) }.release p g (.leaving false)
  | .unregister h =>
    match x.file.nsUnregisterAgent h.access with
    | none => x.crash
    | some g => { x with held := x.revoke p h }.release p g (.leaving false)
  | .markTemporary => x.release p x.file.vnMarkTemporary .idle
  | .markPermanent => x.release p x.file.vnMarkPermanent (.leaving false)
  | .clean =>
    if x.file.temporary then x.settle p x.file.cleanStarts
    else x.release p x.file.cleanStarts (.leaving true)
  | .settle _ => x.settle p x.file
  | .destroy =>
    x.release p (x.file.vnDestroy ok).2 (if (x.file.vnDestroy ok).1 then .freeing else .leaving false)

def takeVnLock (p : Option T) (c : Call) : Option (Server T) :=
  match x.vnLock with
  | some _ => none
  | none => some ({ x with vnLock := some p }.goes p (.locked c))

def takeEntryLock (p : Option T) (c : Call) : Option (Server T) :=
  if x.destroyed then some (if c = .lookup then x.goes p .idle else x.crash)
  else
    match x.entryLock with
    | some _ => none
    | none => some ({ x with entryLock := some p }.goes p (.entered c))

def await (p : Option T) (c : Call) : Option (Server T) :=
  if c = .markTemporary then x.takeVnLock p c else x.takeEntryLock p c

def leave (p : Option T) (cleans : Bool) : Server T :=
  if cleans then { x with entryLock := none, fresh := false }.goes p .cleaning
  else { x with entryLock := none }.goes p .idle

def cleaned (p : Option T) (ok : Bool) : Server T :=
  { x with dirty := if ok then x.fresh else x.dirty }.goes p (.waiting (.settle ok))

def free (p : Option T) : Server T :=
  { x with entryLock := none, destroyed := true }.goes p .idle

def act (p : Option T) (ok : Bool) : Phase → Option (Server T)
  | .idle => none
  | .waiting c => x.await p c
  | .entered c => x.takeVnLock p c
  | .locked c => some (x.perform p ok c)
  | .leaving cleans => some (x.leave p cleans)
  | .cleaning => some (x.cleaned p ok)
  | .freeing => some (x.free p)

def sweepClean : Option (Server T) :=
  if x.phase none = .idle ∧ x.destroyed = false ∧ x.file.state = .fileMustClean then
    some (x.goes none (.waiting .clean))
  else none

def sweepDestroy : Option (Server T) :=
  if x.phase none = .idle ∧ x.destroyed = false ∧ x.file.state = .inactive ∧ x.entryLock = none then
    some ({ x with entryLock := some none }.goes none (.entered .destroy))
  else none

def next : Event T → Option (Server T)
  | .call t c =>
    if x.critical = false ∧ x.phase (some t) = .idle ∧ x.May t c then
      some (x.goes (some t) (.waiting c))
    else none
  | .clean => if x.critical then none else x.sweepClean
  | .destroy => if x.critical then none else x.sweepDestroy
  | .act p ok => if x.critical then none else x.act p ok (x.phase p)
  | .write t =>
    if x.critical = false ∧ x.phase (some t) = .idle ∧ ∃ e ∈ x.held, e.1 = t ∧ e.2.writes then
      some { x with dirty := true, fresh := true }
    else none
  | .pass t u h =>
    if x.critical = false ∧ x.phase (some t) = .idle ∧ (t, h) ∈ x.held then
      some { x with held := (u, h) :: x.held.erase (t, h) }
    else none

end Server

end MachUS.Vnode
