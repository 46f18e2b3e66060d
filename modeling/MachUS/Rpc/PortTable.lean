import MachUS.Foundation.Transition
import MachUS.Foundation.Word

namespace MachUS.Rpc

open Function

abbrev Port := ℕ

abbrev RemoteId := ℕ

abbrev ThreadId := ℕ

def maxActiveInvokes : ℕ := 64

structure UsRemote where
  refCnt : ℕ
  objectPort : Option Port
  externalPort : Option Port
  activeInvokes : List ThreadId
  mscount : ℕ
  noSenders : Bool
  nextSeqno : ℕ

def UsRemote.create : UsRemote where
  refCnt := 1
  objectPort := none
  externalPort := none
  activeInvokes := []
  mscount := 0
  noSenders := false
  nextSeqno := 0

def UsRemote.resetAfterClone (r : UsRemote) : UsRemote :=
  { r with externalPort := none, nextSeqno := 0, mscount := 0 }

structure TaskImage where
  objects : RemoteId → Option UsRemote
  table : List (Port × RemoteId)
  rights : List Port
  locals : RemoteId → ℕ

namespace TaskImage

def start : TaskImage := ⟨fun _ => none, [], [], fun _ => 0⟩

variable (x : TaskImage)

def setObject (o : RemoteId) (r : UsRemote) : TaskImage :=
  { x with objects := update x.objects o (some r) }

def delete (o : RemoteId) : TaskImage := { x with objects := update x.objects o none }

def lookup (p : Port) : Option RemoteId := (x.table.find? (·.1 = p)).map Prod.snd

def registerExternalPort (p : Port) (o : RemoteId) (r : UsRemote) : TaskImage :=
  { x.setObject o { r with refCnt := r.refCnt + 1 } with
    table := if (x.lookup p).isSome then x.table else x.table ++ [(p, o)] }

def destroyLocked (o : RemoteId) (r : UsRemote) : Option TaskImage :=
  match r.externalPort with
  | none => some (x.delete o)
  | some p => if r.noSenders then some { x.delete o with rights := x.rights.erase p } else none

def dereferenceLocked (o : RemoteId) : Option TaskImage :=
  match x.objects o with
  | none => none
  | some r =>
    if r.refCnt = 0 then none
    else if r.refCnt = 1 then x.destroyLocked o r
    else some (x.setObject o { r with refCnt := r.refCnt - 1 })

def deregisterExternalPort (p : Port) : Option TaskImage :=
  match x.lookup p with
  | none => some x
  | some o => { x with table := x.table.eraseP (·.1 = p) }.dereferenceLocked o

def destroy (o : RemoteId) (r : UsRemote) : Option TaskImage :=
  match r.externalPort with
  | none => some (x.delete o)
  | some p =>
    if r.noSenders then some { x.delete o with rights := x.rights.erase p }
    else
      ((x.setObject o { r with refCnt := 0 }).deregisterExternalPort p).map fun y =>
        { y.delete o with rights := y.rights.erase p }

def dereference (o : RemoteId) : Option TaskImage :=
  match x.objects o with
  | none => none
  | some r =>
    if r.refCnt = 0 then none
    else if r.refCnt = 1 then x.destroy o r
    else some (x.setObject o { r with refCnt := r.refCnt - 1 })

-- fresh is the port that mach_port_allocate returns.
def getTransferPort (o : RemoteId) (r : UsRemote) (fresh : Port) : Port × TaskImage :=
  match r.externalPort with
  | some p =>
    let r := { r with mscount := Word.add r.mscount 1 }
    if r.noSenders then (p, x.registerExternalPort p o { r with noSenders := false })
    else (p, x.setObject o r)
  | none =>
    match r.objectPort with
    | some p => (p, x)
    | none =>
      (fresh, { x with rights := fresh :: x.rights }.registerExternalPort fresh o
        { r with
          externalPort := some fresh
          mscount := 1
          nextSeqno := 0
          noSenders := false })

def setObjectPort (o : RemoteId) (r : UsRemote) (p : Option Port) : TaskImage :=
  x.setObject o { r with objectPort := p }

def noRemoteSenders (o : RemoteId) (r : UsRemote) (notMscount : ℕ) : Option TaskImage :=
  if r.mscount < notMscount then none
  else if notMscount = r.mscount then
    let y := x.setObject o { r with noSenders := true }
    match r.externalPort with
    | none => some y
    | some p => y.deregisterExternalPort p
  else some x

def lookupWithSeqno (p : Port) (seqno : ℕ) : Option TaskImage :=
  match x.lookup p with
  | none => some x
  | some o =>
    match x.objects o with
    | none => none
    | some r =>
      if seqno + 1 < 2 ^ 32 then
        some
          { x.setObject o
              { r with
                refCnt := r.refCnt + (seqno + 1 - r.nextSeqno)
                nextSeqno := max r.nextSeqno (seqno + 1) } with
            locals := update x.locals o (x.locals o + (seqno + 1 - r.nextSeqno)) }
      else none

def registerIncomingInvoke (o : RemoteId) (r : UsRemote) (id : ThreadId) : TaskImage :=
  if r.activeInvokes.length = maxActiveInvokes then x
  else x.setObject o { r with activeInvokes := r.activeInvokes ++ [id] }

def deregisterIncomingInvoke (o : RemoteId) (r : UsRemote) (id : ThreadId) : TaskImage :=
  match r.activeInvokes.getLast? with
  | none => x
  | some last =>
    if id ∈ r.activeInvokes then
      x.setObject o
        { r with
          activeInvokes := (r.activeInvokes.set (r.activeInvokes.idxOf id) last).dropLast }
    else x

def cloneInternal (o : RemoteId) : Option TaskImage :=
  match x.objects o with
  | none => none
  | some r => (x.setObject o r.resetAfterClone).dereferenceLocked o

def hashApply (x : TaskImage) : List (Port × RemoteId) → Option TaskImage
  | [] => some x
  | (_, o) :: rest => (x.cloneInternal o).bind fun y => y.hashApply rest

def fork : TaskImage := { x with rights := [] }

def cloneComplete : Option TaskImage :=
  (x.hashApply x.table).map fun y => { y with table := [] }

end TaskImage

inductive TaskEvent where
  | create (o : RemoteId)
  | transfer (o : RemoteId) (fresh : Port)
  | setObjectPort (o : RemoteId) (p : Option Port)
  | noRemoteSenders (o : RemoteId) (notMscount : ℕ)
  | lookup (p : Port)
  | lookupWithSeqno (p : Port) (seqno : ℕ)
  | registerIncomingInvoke (o : RemoteId) (id : ThreadId)
  | deregisterIncomingInvoke (o : RemoteId) (id : ThreadId)
  | reference (o : RemoteId)
  | dereference (o : RemoteId)
  | clone

namespace TaskImage

def onObject (x : TaskImage) (o : RemoteId) (call : UsRemote → Option TaskImage) : Option TaskImage :=
  if x.locals o = 0 then none
  else
    match x.objects o with
    | none => none
    | some r => call r

def referenced (x : TaskImage) (o : RemoteId) (r : UsRemote) : TaskImage :=
  { x.setObject o { r with refCnt := r.refCnt + 1 } with
    locals := update x.locals o (x.locals o + 1) }

def next (x : TaskImage) : TaskEvent → Option TaskImage
  | .create o =>
    match x.objects o with
    | some _ => none
    | none =>
      some { x.setObject o UsRemote.create with locals := update x.locals o (x.locals o + 1) }
  | .transfer o fresh =>
    if fresh ∈ x.rights then none
    else x.onObject o fun r => some (x.getTransferPort o r fresh).2
  | .setObjectPort o p => x.onObject o fun r => some (x.setObjectPort o r p)
  | .noRemoteSenders o n => x.onObject o fun r => x.noRemoteSenders o r n
  | .lookup p =>
    match x.lookup p with
    | none => some x
    | some o => (x.objects o).map (x.referenced o)
  | .lookupWithSeqno p seqno => x.lookupWithSeqno p seqno
  | .registerIncomingInvoke o id => x.onObject o fun r => some (x.registerIncomingInvoke o r id)
  | .deregisterIncomingInvoke o id => x.onObject o fun r => some (x.deregisterIncomingInvoke o r id)
  | .reference o => x.onObject o fun r => some (x.referenced o r)
  | .dereference o =>
    x.onObject o fun _ =>
      { x with locals := update x.locals o (x.locals o - 1) }.dereference o
  | .clone => x.fork.cloneComplete

end TaskImage

end MachUS.Rpc
