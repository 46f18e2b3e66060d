import MachUS.Foundation.Transition
import MachUS.Foundation.Program
import Mathlib.Logic.Function.Basic

namespace MachUS.Dir

inductive Ret where
  | success
  | objectDead
  | invalidLinkCount
  | dirNotEmpty
  | notFound
  | entryExists
  | entryNotReserved
  | nameTooLong
  | invalidName
  | internalError
  | other (code : ℤ)
  deriving DecidableEq

structure TmpProp (τ : Type) where
  active : Bool
  agentCount : ℤ
  stronglinkCount : ℤ
  tmplinkCount : ℤ
  temporaryObj : Bool
  parent : Option τ
  held : ℤ
  given : ℕ
  shutdowns : List (ℤ × ℤ)
  late : ℕ

namespace TmpProp

variable {τ : Type} (p : TmpProp τ)

def start : TmpProp τ where
  active := true
  agentCount := 0
  stronglinkCount := 0
  tmplinkCount := 0
  temporaryObj := false
  parent := none
  held := 0
  given := 0
  shutdowns := []
  late := 0

def referenceTemporary : TmpProp τ :=
  if p.temporaryObj then { p with held := p.held + 1 } else p

def dereferenceTemporary : TmpProp τ :=
  if p.temporaryObj then { p with held := p.held - 1 } else p

inductive Shutdown (τ : Type) where
  | stays
  | calls (parent : Option τ)

def registered (p : TmpProp τ) : TmpProp τ := if p.active then p else { p with late := p.late + 1 }

def inactive (p : TmpProp τ) : TmpProp τ :=
  { p with active := false, shutdowns := (p.agentCount, p.stronglinkCount) :: p.shutdowns }

def tmpShutdownInternal (lastChance : Ret) : TmpProp τ × Shutdown τ :=
  if p.active = false then (p, .stays)
  else if p.temporaryObj = false then (p.inactive, .stays)
  else if lastChance ≠ .success then (p, .stays)
  else if 0 < p.tmplinkCount then
    ({ p.inactive with tmplinkCount := p.tmplinkCount - 1 }, .calls p.parent)
  else (p.inactive.dereferenceTemporary, .stays)

def tmplinkRemoved : TmpProp τ := { p with parent := none }.dereferenceTemporary

def shutdownIfUnused (lastChance : Ret) : TmpProp τ × Shutdown τ :=
  if p.agentCount = 0 ∧ p.stronglinkCount = 0 then p.tmpShutdownInternal lastChance else (p, .stays)

def nsRegisterTmplink (parent : τ) : Ret × TmpProp τ :=
  if p.active = false then (.objectDead, p)
  else if p.parent.isSome then (.invalidLinkCount, p)
  else
    (.success,
      { p.registered with
        tmplinkCount := p.tmplinkCount + 1
        temporaryObj := true
        held := p.held + 1
        parent := some parent })

def tmplinkUnregistered : TmpProp τ := { p with tmplinkCount := p.tmplinkCount - 1, parent := none }

-- none: temporary_obj is asked about its last link and is null.
def nsUnregisterTmplink (lastLink : Ret) : Option (Ret × TmpProp τ) :=
  if p.active = false then some (.objectDead, p)
  else if p.parent.isNone then some (.invalidLinkCount, p)
  else if p.stronglinkCount = 0 ∧ p.tmplinkCount = 1 then
    if p.temporaryObj = false then none
    else if lastLink ≠ .success then some (lastLink, p)
    else some (.success, p.tmplinkUnregistered)
  else some (.success, p.tmplinkUnregistered)

def nsReferenceTmplink (lastChance : Ret) : TmpProp τ × Shutdown τ := p.shutdownIfUnused lastChance

def referenced : Ret × TmpProp τ :=
  if p.active then (.success, if p.temporaryObj then { p with given := p.given + 1 } else p)
  else (.objectDead, p)

def nsRegisterStronglink : TmpProp τ :=
  { p.registered with stronglinkCount := p.stronglinkCount + 1 }.referenceTemporary

def mayUnregisterStronglink (lastLink : Ret) : Option Ret :=
  if p.stronglinkCount = 1 ∧ p.tmplinkCount = 0 then
    if p.temporaryObj = false then none else some lastLink
  else some .success

def nsRegisterAgent : TmpProp τ := { p.registered with agentCount := p.agentCount + 1 }

end TmpProp

structure Answers where
  lastLink : Ret
  lastChance : Ret

inductive LinkOperation (τ : Type) where
  | registerTmplink (parent : τ)
  | unregisterTmplink
  | referenceTmplink
  | registerStronglink
  | unregisterStronglink
  | registerAgent
  | unregisterAgent

structure LinkCall (τ : Type) where
  operation : LinkOperation τ
  answers : Answers

namespace TmpProp

variable {τ : Type}

def completed : TmpProp τ × Shutdown τ → Option (TmpProp τ)
  | (p, .stays) => some p
  | (p, .calls (some _)) => some p.tmplinkRemoved
  | (_, .calls none) => none

def call (p : TmpProp τ) (c : LinkCall τ) : Option (Ret × TmpProp τ) :=
  match c.operation with
  | .registerTmplink parent => some (p.nsRegisterTmplink parent)
  | .unregisterTmplink => p.nsUnregisterTmplink c.answers.lastLink
  | .referenceTmplink =>
    (completed (p.nsReferenceTmplink c.answers.lastChance)).map fun p => p.referenced
  | .registerStronglink => some (.success, p.nsRegisterStronglink)
  | .unregisterStronglink =>
    match p.mayUnregisterStronglink c.answers.lastLink with
    | none => none
    | some .success =>
      (completed (shutdownIfUnused { p with stronglinkCount := p.stronglinkCount - 1 }
        c.answers.lastChance)).map fun p => (.success, p.dereferenceTemporary)
    | some ret => some (ret, p)
  | .registerAgent => some (.success, p.nsRegisterAgent)
  | .unregisterAgent =>
    (completed (shutdownIfUnused { p with agentCount := p.agentCount - 1 }
      c.answers.lastChance)).map fun p => (.success, p)

def next (p : TmpProp τ) (c : LinkCall τ) : Option (TmpProp τ) := (p.call c).map Prod.snd

end TmpProp

end MachUS.Dir

namespace MachUS.Dir

open Program Function

abbrev Name := List UInt8

-- The address of a dir_entry, which is also its tag; 0 is the null pointer.
abbrev Addr := ℕ

abbrev DirId := ℕ

abbrev ObjId := ℕ

def nsNamelen : ℕ := 256

def hashsize : ℕ := 32

def nameHash (name : Name) : ℕ := (name.foldl (· ^^^ ·) 0 &&& 31).toNat

def nstInvalid : ℕ := 0

def nstReserved : ℕ := 0xfffffffe

structure Entry where
  name : Name
  type : ℕ
  objId : ℕ
  obj : Option ObjId
  serial : ℕ

structure Directory where
  buckets : ℕ → List Addr
  entryCount : ℤ
  linkCount : ℤ

structure Link where
  dir : DirId
  tag : Addr
  serial : ℕ
  deriving DecidableEq

inductive Kind where
  | foreign
  | agency
  | temporary
  | directory (d : DirId)
  | temporaryDirectory (d : DirId)
  deriving DecidableEq

inductive Lock where
  | dir (d : DirId)
  | tmp (o : ObjId)
  | vol (o : ObjId)
  deriving DecidableEq

structure World where
  kind : ObjId → Kind
  dirs : DirId → Directory
  entries : Addr → Option Entry
  tmp : ObjId → TmpProp Link
  links : ObjId → ℤ
  serials : ℕ
  held : List Lock
  freed : List ℕ
  registered : List ℕ
  unregistered : List ℕ

inductive Fault where
  | selfDeadlock (l : Lock)
  | badEntry
  | noMemory
  | nullObject
  deriving DecidableEq

abbrev M := Prog World Fault

def acquire (l : Lock) : M Unit := do
  let w ← get
  if l ∈ w.held then lift (.error (.selfDeadlock l)) else modify fun w => { w with held := l :: w.held }

def release (l : Lock) : M Unit := modify fun w => { w with held := w.held.erase l }

def readEntry (a : Addr) : M Entry := do
  let w ← get
  match w.entries a with
  | none => lift (.error .badEntry)
  | some e => pure e

def writeEntry (a : Addr) (f : Entry → Entry) : M Unit := do
  let e ← readEntry a
  modify fun w => { w with entries := update w.entries a (some (f e)) }

def freeEntry (a : Addr) : M Unit := do
  let e ← readEntry a
  modify fun w =>
    { w with entries := update w.entries a none, freed := e.serial :: w.freed }

def newEntry (fresh : Addr) (name : Name) : M Unit := do
  let w ← get
  if fresh = 0 ∨ (w.entries fresh).isSome then lift (.error .noMemory)
  else
    modify fun w =>
      { w with
        entries := update w.entries fresh (some ⟨name, nstReserved, 0, none, w.serials⟩)
        serials := w.serials + 1 }

def modifyDir (d : DirId) (f : Directory → Directory) : M Unit :=
  modify fun w => { w with dirs := update w.dirs d (f (w.dirs d)) }

def modifyTmp (o : ObjId) (f : TmpProp Link → TmpProp Link) : M Unit :=
  modify fun w => { w with tmp := update w.tmp o (f (w.tmp o)) }

def logRegistered (ret : Ret) (parent : Link) : M Unit :=
  modify fun w =>
    { w with registered := if ret = .success then parent.serial :: w.registered else w.registered }

def logUnregistered (ret : Ret) (parent : Option Link) : M Unit :=
  modify fun w =>
    { w with unregistered := match ret, parent with
      | .success, some parent => parent.serial :: w.unregistered
      | _, _ => w.unregistered }

namespace Directory

def link (dir : Directory) (i : ℕ) (a : Addr) : Directory :=
  { dir with
    buckets := update dir.buckets i (a :: dir.buckets i)
    entryCount := dir.entryCount + 1 }

def unlink (dir : Directory) (i : ℕ) (a : Addr) : Directory :=
  { dir with
    buckets := update dir.buckets i ((dir.buckets i).erase a)
    entryCount := dir.entryCount - 1 }

end Directory

def scanBucket (name : Name) : List Addr → M (Option Addr)
  | [] => pure none
  | a :: rest => do
    let e ← readEntry a
    if e.name = name then pure (some a) else scanBucket name rest

def scanForName (d : DirId) (name : Name) : M (Option Addr) := do
  let w ← get
  scanBucket name ((w.dirs d).buckets (nameHash name))

def nsReserveEntry (d : DirId) (name : Name) (fresh : Addr) : M Ret :=
  if nsNamelen ≤ name.length then pure .nameTooLong
  else if name.length = 0 then pure .invalidName
  else do
    acquire (.dir d)
    let found ← scanForName d name
    match found with
    | some _ =>
      release (.dir d)
      pure .entryExists
    | none =>
      newEntry fresh name
      modifyDir d fun dir => dir.link (nameHash name) fresh
      release (.dir d)
      pure .success

def takeOut (d : DirId) (a : Addr) : M Unit := do
  let e ← readEntry a
  let w ← get
  if a ∈ (w.dirs d).buckets (nameHash e.name) then
    modifyDir d fun dir => dir.unlink (nameHash e.name) a
  else pure ()

def nsRemoveTmplink (d : DirId) (tag : Addr) : M Ret := do
  acquire (.dir d)
  if tag = 0 then
    release (.dir d)
    pure .internalError
  else
    takeOut d tag
    release (.dir d)
    freeEntry tag
    pure .success

def lastAnswer (w : World) (o : ObjId) (given : Ret) : Ret :=
  match w.kind o with
  | .temporaryDirectory d => if (w.dirs d).entryCount ≠ 0 then .dirNotEmpty else .success
  | _ => given

def removeFromParent (o : ObjId) : TmpProp.Shutdown Link → M Unit
  | .stays => pure ()
  | .calls none => lift (.error .nullObject)
  | .calls (some parent) => do
    logUnregistered .success (some parent)
    release (.tmp o)
    let _ ← nsRemoveTmplink parent.dir parent.tag
    acquire (.tmp o)
    modifyTmp o TmpProp.tmplinkRemoved

def tmpStep (o : ObjId) (step : TmpProp Link → TmpProp Link × TmpProp.Shutdown Link) :
    M (TmpProp.Shutdown Link) := do
  let w ← get
  let (p, shutdown) := step (w.tmp o)
  modifyTmp o fun _ => p
  pure shutdown

def tmpReferenceTmplink (o : ObjId) (answers : Answers) : M Ret := do
  acquire (.tmp o)
  let w ← get
  let shutdown ← tmpStep o (·.nsReferenceTmplink (lastAnswer w o answers.lastChance))
  removeFromParent o shutdown
  let w ← get
  let (ret, p) := (w.tmp o).referenced
  modifyTmp o fun _ => p
  release (.tmp o)
  pure ret

def nsReferenceTmplink (o : ObjId) (answers : Answers) : M Ret := do
  let w ← get
  match w.kind o with
  | .foreign => pure (.other 0)
  | .agency => pure .success
  | .directory _ => pure .success
  | .temporary => tmpReferenceTmplink o answers
  | .temporaryDirectory _ => tmpReferenceTmplink o answers

def tmpRegisterTmplink (o : ObjId) (parent : Link) : M Ret := do
  acquire (.tmp o)
  let w ← get
  let (ret, p) := (w.tmp o).nsRegisterTmplink parent
  modifyTmp o fun _ => p
  logRegistered ret parent
  release (.tmp o)
  pure ret

def volLink (o : ObjId) (change : ℤ) : M Ret := do
  acquire (.vol o)
  modify fun w => { w with links := update w.links o (w.links o + change) }
  release (.vol o)
  pure .success

def dirLink (d : DirId) : M Ret := do
  acquire (.dir d)
  modifyDir d fun dir => { dir with linkCount := dir.linkCount + 1 }
  release (.dir d)
  pure .success

def dirUnlink (d : DirId) : M Ret := do
  acquire (.dir d)
  let w ← get
  if (w.dirs d).linkCount = 1 ∧ 0 < (w.dirs d).entryCount then
    release (.dir d)
    pure .dirNotEmpty
  else
    modifyDir d fun dir => { dir with linkCount := dir.linkCount - 1 }
    release (.dir d)
    pure .success

def nsRegisterTmplink (o : ObjId) (parent : Link) : M Ret := do
  let w ← get
  match w.kind o with
  | .foreign => pure (.other 0)
  | .agency => volLink o 1
  | .directory d => dirLink d
  | .temporary => tmpRegisterTmplink o parent
  | .temporaryDirectory _ => tmpRegisterTmplink o parent

def tmpUnregisterTmplink (o : ObjId) (answers : Answers) : M Ret := do
  acquire (.tmp o)
  let w ← get
  match (w.tmp o).nsUnregisterTmplink (lastAnswer w o answers.lastLink) with
  | none => lift (.error .nullObject)
  | some (ret, p) =>
    modifyTmp o fun _ => p
    logUnregistered ret (w.tmp o).parent
    release (.tmp o)
    pure ret

def nsUnregisterTmplink (o : ObjId) (answers : Answers) : M Ret := do
  let w ← get
  match w.kind o with
  | .foreign => pure (.other 0)
  | .agency => volLink o (-1)
  | .directory d => dirUnlink d
  | .temporary => tmpUnregisterTmplink o answers
  | .temporaryDirectory _ => tmpUnregisterTmplink o answers

end MachUS.Dir
