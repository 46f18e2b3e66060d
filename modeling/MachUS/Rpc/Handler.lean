import MachUS.Foundation.Transition
import MachUS.Rpc.Marshal

namespace MachUS.Rpc

open Memory Relation

def machPortNull : ℤ := 0

def errSystem (x : ℤ) : ℤ := x % 64 * 2 ^ 26

def errSub (x : ℤ) : ℤ := x % 4096 * 2 ^ 14

def errGetSystem (err : ℤ) : ℤ := err / 2 ^ 26 % 64

def errGetSub (err : ℤ) : ℤ := err / 2 ^ 14 % 4096

def errServer : ℤ := errSystem 2

def errMachIpc : ℤ := errSystem 4

def machMsgSuccess : ℤ := 0

def machSendInvalidDest : ℤ := 0x10000003

def machNotifyNoSenders : ℤ := 70

def abortId : ℤ := 0xAB

namespace Ret

def machObjectModule : ℤ := errServer + errSub 11

def code : Ret → ℤ
  | .success => 0
  | .noSuchOperation => machObjectModule + 2
  | .badMessage => machObjectModule + 5

end Ret

structure Request where
  incoming : Incoming
  mem : Mem

namespace Request

variable (q : Request)

def remotePort : ℤ := word q.mem (q.incoming.message.start + 8)

def localPort : ℤ := word q.mem (q.incoming.message.start + 12)

def id : ℤ := signed (word q.mem (q.incoming.message.start + 20))

end Request

structure Message where
  serial : Option ℕ
  remotePort : ℤ
  localPort : ℤ
  id : ℤ
  retval : ℤ
  request : Request

def Message.ofRequest (serial : ℕ) (q : Request) : Message :=
  ⟨some serial, q.remotePort, q.localPort, q.id, 0, q⟩

structure Config where
  minWaiting : ℤ
  maxWaiting : ℤ
  maxThreads : ℤ

inductive Phase where
  | looping
  | messaging (rcvRequest : Bool)
  | invoking (mid : Method)
  | exited
  | faulted
  deriving DecidableEq

structure Handler where
  phase : Phase
  req : Message
  rep : Message
  sendReply : Bool
  sendingFailure : Bool
  waitCnt : ℕ

structure Stack where
  req : Message
  rep : Message
  sendingFailure : Bool

namespace Handler

def fresh (stack : Stack) : Handler where
  phase := .looping
  req := { stack.req with serial := none }
  rep := { stack.rep with serial := none }
  sendReply := false
  sendingFailure := stack.sendingFailure
  waitCnt := 0

def sends (h : Handler) (rcvRequest : Bool) : Bool := h.sendReply || !rcvRequest

def addressed (h : Handler) (rcvRequest : Bool) : Message :=
  if h.sends rcvRequest then { h.rep with remotePort := h.req.remotePort, localPort := machPortNull }
  else { h.rep with localPort := machPortNull }

end Handler

structure Reply where
  serial : Option ℕ
  port : ℤ
  code : ℤ
  deriving DecidableEq

def Message.toReply (m : Message) : Reply := ⟨m.serial, m.remotePort, m.retval⟩

structure Call where
  handler : ℕ
  request : Request
  tables : Tables
  returned : Option ℤ
  failed : Option ℤ

structure ObjectServer where
  threadsWaiting : ℤ
  threadCount : ℤ
  threads : List Handler
  tables : Tables
  calls : List Call
  sent : List Reply

structure Answer where
  ret : ℤ
  delivered : Bool
  received : Option Request
  deadName : Bool

namespace Answer

def Fits (a : Answer) (sends receives : Bool) (dest : ℤ) : Prop :=
  (a.ret = machMsgSuccess → a.delivered = sends ∧ a.received.isSome = receives) ∧
    (a.ret ≠ machMsgSuccess → a.received = none) ∧
    (a.delivered = true → sends = true ∧ dest ≠ machPortNull)

instance (a : Answer) (sends receives : Bool) (dest : ℤ) : Decidable (a.Fits sends receives dest) :=
  inferInstanceAs (Decidable (_ ∧ _ ∧ _))

def sendError (a : Answer) : Bool :=
  errGetSystem a.ret = errMachIpc && errGetSub a.ret = 0

def receiveError (a : Answer) : Bool :=
  errGetSystem a.ret = errMachIpc && errGetSub a.ret = 1

end Answer

inductive Verdict where
  | exits
  | waits (rcvRequest : Bool)
  deriving DecidableEq

namespace ObjectServer

def start (t : Tables) (stack : Stack) : ObjectServer :=
  ⟨1, 1, [Handler.fresh stack], t, [], []⟩

def adjustThreads (cfg : Config) (waitingAdjust : ℤ) (exitOk : Bool) (stack : Stack)
    (s : ObjectServer) : ObjectServer × Verdict :=
  let waiting := s.threadsWaiting + waitingAdjust
  if waiting > cfg.maxWaiting ∧ 0 ≤ waitingAdjust then
    if exitOk then
      ({ s with threadsWaiting := waiting - 1, threadCount := s.threadCount - 1 }, .exits)
    else ({ s with threadsWaiting := waiting - 1 }, .waits false)
  else if waiting < cfg.minWaiting ∧ (s.threadCount < cfg.maxThreads ∨ cfg.maxThreads = 0) then
    ({ s with
        threadsWaiting := waiting + 1
        threadCount := s.threadCount + 1
        threads := s.threads ++ [Handler.fresh stack] }, .waits (0 ≤ waitingAdjust))
  else ({ s with threadsWaiting := waiting }, .waits (0 ≤ waitingAdjust))

def setHandler (s : ObjectServer) (th : ℕ) (h : Handler) : ObjectServer :=
  { s with threads := s.threads.set th h }

def modifyCall (s : ObjectServer) (serial : Option ℕ) (f : Call → Call) : ObjectServer :=
  match serial with
  | none => s
  | some i => { s with calls := s.calls.modify i f }

def beginMessage (cfg : Config) (s : ObjectServer) (th : ℕ) (h : Handler) (stack : Stack) :
    ObjectServer :=
  match s.adjustThreads cfg h.waitCnt (!h.sendReply) stack with
  | (s, .exits) => s.setHandler th { h with phase := .exited }
  | (s, .waits rcvRequest) =>
    s.setHandler th
      { h with phase := .messaging rcvRequest, waitCnt := 1, rep := h.addressed rcvRequest }

def recordSend (s : ObjectServer) (h : Handler) (a : Answer) : ObjectServer :=
  if a.delivered then { s with sent := s.sent ++ [h.rep.toReply] }
  else s.modifyCall h.rep.serial fun c => { c with failed := some a.ret }

def incomingInvoke (s : ObjectServer) (th : ℕ) (h : Handler) : ObjectServer :=
  match unpackRequest s.tables h.req.request.incoming h.req.request.mem with
  | .error _ => s.setHandler th { h with phase := .faulted }
  | .ok (.error result) =>
    s.setHandler th
      { h with rep :=
        { h.rep with
          id := -1
          retval := result.code
          remotePort := h.req.remotePort
          localPort := machPortNull } }
  | .ok (.ok (mid, _)) =>
    s.setHandler th
      { h with phase := .invoking mid, req := { h.req with localPort := machPortNull } }

def dispatch (s : ObjectServer) (th : ℕ) (h : Handler) (ret : ℤ) : ObjectServer :=
  match s.tables.lookupExternalPort h.req.localPort with
  | none => s.setHandler th h
  | some _ =>
    if h.sendingFailure then
      s.setHandler th
        { h with rep := { h.rep with id := h.rep.id + 100, retval := ret }, sendReply := true }
    else if h.req.id = machNotifyNoSenders then s.setHandler th h
    else if h.req.id = abortId then s.setHandler th h
    else s.incomingInvoke th h

def receive (s : ObjectServer) (th : ℕ) (h : Handler) (q : Request) : ObjectServer :=
  dispatch { s with calls := s.calls ++ [⟨th, q, s.tables, none, none⟩] } th
    { h with req := Message.ofRequest s.calls.length q, rep := h.req } machMsgSuccess

def copeWith (s : ObjectServer) (th : ℕ) (h : Handler) (a : Answer) : ObjectServer :=
  if a.ret ≠ machMsgSuccess then
    if a.ret = machSendInvalidDest ∧ a.deadName = true then s.setHandler th h
    else if a.sendError then
      if h.sendingFailure then s.setHandler th { h with sendingFailure := false }
      else s.dispatch th { h with sendingFailure := true } a.ret
    else if a.receiveError then s.setHandler th h
    else s.setHandler th h
  else
    match a.received with
    | none => s.setHandler th { h with sendingFailure := false }
    | some q => s.receive th { h with sendingFailure := false } q

def endMessage (cfg : Config) (s : ObjectServer) (th : ℕ) (h : Handler) (rcvRequest : Bool)
    (a : Answer) (stack : Stack) : ObjectServer :=
  let s := if rcvRequest then (s.adjustThreads cfg (-1) false stack).1 else s
  let s := if h.sends rcvRequest then s.recordSend h a else s
  s.copeWith th { h with phase := .looping, sendReply := false } a

def endInvoke (s : ObjectServer) (th : ℕ) (h : Handler) (mid : Method) (retval : ℤ) :
    ObjectServer :=
  let s := s.modifyCall h.req.serial fun c => { c with returned := some retval }
  if mid.argType.rpc then
    s.setHandler th
      { h with
        phase := .looping
        rep := { h.req with id := -1, retval := retval }
        sendReply := true }
  else s.setHandler th { h with phase := .looping, sendReply := false }

end ObjectServer

inductive HandlerEvent where
  | adjusts (th : ℕ) (stack : Stack)
  | answered (th : ℕ) (a : Answer) (stack : Stack)
  | returns (th : ℕ) (retval : ℤ)
  | redefines (t : Tables)

namespace HandlerEvent

def thread : HandlerEvent → Option ℕ
  | .adjusts th _ => some th
  | .answered th _ _ => some th
  | .returns th _ => some th
  | .redefines _ => none

end HandlerEvent

namespace ObjectServer

def next (cfg : Config) (s : ObjectServer) : HandlerEvent → Option ObjectServer
  | .adjusts th stack =>
    match s.threads[th]? with
    | some h => if h.phase = .looping then some (s.beginMessage cfg th h stack) else none
    | none => none
  | .answered th a stack =>
    match s.threads[th]? with
    | some h =>
      match h.phase with
      | .messaging rcvRequest =>
        if a.Fits (h.sends rcvRequest) rcvRequest h.rep.remotePort then
          some (s.endMessage cfg th h rcvRequest a stack)
        else none
      | _ => none
    | none => none
  | .returns th retval =>
    match s.threads[th]? with
    | some h =>
      match h.phase with
      | .invoking mid => some (s.endInvoke th h mid retval)
      | _ => none
    | none => none
  | .redefines t => some { s with tables := t }

def Reachable (cfg : Config) (s : ObjectServer) : Prop :=
  ∃ t stack, ReflTransGen (Transition.Under (next cfg) Transition.Free) (start t stack) s

end ObjectServer

end MachUS.Rpc
