import MachUS.Foundation.Word
import MachUS.Rpc.Handler

namespace MachUS.Rpc

inductive Item where
  | message
  | noSenders (notCount : ℕ)
  deriving DecidableEq

inductive Stage where
  | received
  | retrying
  | found
  | handled
  deriving DecidableEq

structure Job where
  item : Item
  seqno : ℕ
  stage : Stage
  deriving DecidableEq

structure ExternalPort where
  refCnt : ℕ
  destroyed : Bool
  suspended : Bool
  external : Bool
  noSenders : Bool
  mscount : ℕ
  nextSeqno : ℕ
  registered : Bool
  endless : Bool
  queue : List Item
  seqno : ℕ
  makeSends : ℕ
  senders : ℕ
  request : Bool
  inTransit : ℕ
  locals : ℕ
  tableRefs : ℕ
  jobs : List Job
  delivered : List ℕ
  dispatched : List ℕ
  released : List ℕ
  deriving DecidableEq

namespace ExternalPort

def create : ExternalPort where
  refCnt := 1
  destroyed := false
  suspended := false
  external := false
  noSenders := false
  mscount := 0
  nextSeqno := 0
  registered := false
  endless := false
  queue := []
  seqno := 0
  makeSends := 0
  senders := 0
  request := false
  inTransit := 0
  locals := 1
  tableRefs := 0
  jobs := []
  delivered := []
  dispatched := []
  released := []

variable (s : ExternalPort)

def destructor : ExternalPort :=
  if s.external then
    let s := if s.noSenders = false ∧ s.registered then
        { s with registered := false, tableRefs := s.tableRefs - 1, suspended := true }
      else s
    { s with destroyed := true, external := false, queue := [], senders := 0, request := false }
  else { s with destroyed := true }

def dereference : ExternalPort :=
  if s.refCnt = 0 then { s with suspended := true }
  else if s.refCnt = 1 then destructor { s with refCnt := 0 }
  else { s with refCnt := s.refCnt - 1 }

def registerExternalPort : ExternalPort :=
  { s with registered := true, refCnt := s.refCnt + 1, tableRefs := s.tableRefs + 1 }

def deregisterExternalPort : ExternalPort :=
  if s.registered then
    dereference { s with registered := false, tableRefs := s.tableRefs - 1 }
  else s

def allocateExternalPort : ExternalPort :=
  { s with
    external := true
    queue := []
    seqno := 0
    makeSends := 0
    senders := 0
    request := true }

def getTransferPort : ExternalPort :=
  if s.external then
    let s := { s with mscount := Word.add s.mscount 1, inTransit := s.inTransit + 1 }
    if s.noSenders then registerExternalPort { s with noSenders := false } else s
  else
    { s.allocateExternalPort.registerExternalPort with
      mscount := 1
      nextSeqno := 0
      noSenders := false
      inTransit := s.inTransit + 1 }

def noRemoteSenders (notCount : ℕ) : ExternalPort :=
  if notCount = s.mscount then deregisterExternalPort { s with noSenders := true } else s

def seqnoLoop : ℕ → ℕ → ExternalPort → Option ExternalPort
  | 0, _, _ => none
  | n + 1, seqno, s =>
    if s.nextSeqno ≤ seqno then
      seqnoLoop n seqno
        { s with refCnt := s.refCnt + 1, nextSeqno := Word.add s.nextSeqno 1 }
    else some s

def referenceWithSeqno (seqno : ℕ) : ExternalPort :=
  match seqnoLoop (2 ^ 32 + 1) seqno s with
  | none => { s with endless := true }
  | some s => s

def dropRight : ExternalPort :=
  let s := { s with senders := s.senders - 1 }
  if s.senders = 0 ∧ s.request ∧ 1 ≤ s.makeSends then
    { s with request := false, queue := s.queue ++ [.noSenders s.makeSends] }
  else s

def receive (item : Item) (rest : List Item) : ExternalPort :=
  { s with
    queue := rest
    seqno := Word.add s.seqno 1
    jobs := s.jobs ++ [⟨item, s.seqno, .received⟩]
    delivered := s.delivered ++ [s.seqno] }

def receiveFails (a : Answer) (rest : List Item) : ExternalPort :=
  let seqno := s.seqno
  let s := { s with queue := rest, seqno := Word.add s.seqno 1 }
  if a.receiveError ∧ s.registered then dereference (s.referenceWithSeqno seqno) else s

def lookup (i : ℕ) (j : Job) (miss : List Job) : ExternalPort :=
  if s.registered then
    { s.referenceWithSeqno j.seqno with jobs := s.jobs.set i { j with stage := .found } }
  else { s with jobs := miss }

def dispatch (i : ℕ) (j : Job) : ExternalPort :=
  let s := { s with
    jobs := s.jobs.set i { j with stage := .handled }
    dispatched := s.dispatched ++ [j.seqno] }
  match j.item with
  | .message => s
  | .noSenders notCount => s.noRemoteSenders notCount

def release (i : ℕ) (j : Job) : ExternalPort :=
  dereference { s with jobs := s.jobs.eraseIdx i, released := s.released ++ [j.seqno] }

end ExternalPort

inductive PortEvent where
  | transfer
  | sent
  | lost
  | copyRight
  | dropRight
  | post
  | receive
  | receiveFails (a : Answer)
  | handle (i : ℕ)
  | reference
  | dereference

namespace ExternalPort

def handle (s : ExternalPort) (i : ℕ) (j : Job) : ExternalPort :=
  match j.stage with
  | .received => s.lookup i j (s.jobs.set i { j with stage := .retrying })
  | .retrying => s.lookup i j (s.jobs.eraseIdx i)
  | .found => s.dispatch i j
  | .handled => s.release i j

def move (s : ExternalPort) : PortEvent → Option ExternalPort
  | .transfer => if s.locals = 0 then none else some s.getTransferPort
  | .sent =>
    if s.inTransit = 0 ∨ s.external = false then none
    else some { s with
      inTransit := s.inTransit - 1
      makeSends := Word.add s.makeSends 1
      senders := s.senders + 1 }
  | .lost => if s.inTransit = 0 then none else some { s with inTransit := s.inTransit - 1 }
  | .copyRight => if s.senders = 0 then none else some { s with senders := s.senders + 1 }
  | .dropRight => if s.senders = 0 then none else some s.dropRight
  | .post => if s.senders = 0 then none else some { s with queue := s.queue ++ [.message] }
  | .receive =>
    match s.queue with
    | [] => none
    | item :: rest => some (s.receive item rest)
  | .receiveFails a =>
    match s.queue with
    | .message :: rest => some (s.receiveFails a rest)
    | _ => none
  | .handle i => s.jobs[i]?.map (s.handle i)
  | .reference =>
    if s.locals = 0 then none
    else some { s with locals := s.locals + 1, refCnt := s.refCnt + 1 }
  | .dereference =>
    if s.locals = 0 then none else some (dereference { s with locals := s.locals - 1 })

def next (s : ExternalPort) (e : PortEvent) : Option ExternalPort :=
  if s.endless = true ∨ s.suspended = true then none else s.move e

end ExternalPort

end MachUS.Rpc
