import MachUS.Foundation.Transition
import Mathlib.Data.Finset.Card

namespace MachUS.Ux

open Function

abbrev SignalSet := BitVec 32

def sigmask (sig : ℕ) : SignalSet := 1#32 <<< ((sig + 31) % 32)

def nsig : ℕ := 32

def sigkill : ℕ := 9

def sigstop : ℕ := 17

def sigcont : ℕ := 19

def cantmask : SignalSet := sigmask sigkill ||| sigmask sigcont ||| sigmask sigstop

inductive SigDef where
  | ignore
  | terminate
  | core
  | stop
  deriving DecidableEq

def defaultHandlers (sig : ℕ) : SigDef :=
  [.ignore, .terminate, .terminate, .core, .core, .core, .core, .core, .core, .terminate, .core,
    .core, .core, .terminate, .terminate, .terminate, .ignore, .stop, .stop, .ignore, .ignore,
    .stop, .stop, .ignore, .terminate, .terminate, .terminate, .terminate, .ignore, .terminate,
    .terminate].getD sig .ignore

inductive Handler where
  | dfl
  | ign
  | signalIgnore
  | signalTerminate
  | signalCore
  | signalStop
  | routine (address : ℕ)
  deriving DecidableEq

def SigDef.handler : SigDef → Handler
  | ignore => .signalIgnore
  | terminate => .signalTerminate
  | core => .signalCore
  | stop => .signalStop

structure SigVec where
  handler : Handler
  mask : SignalSet
  onStack : Bool

structure HandlerCall where
  stack : ℕ
  handler : Handler
  sig : ℕ
  code : ℤ
  oldMask : SignalSet
  onStack : Bool
  sensitive : Bool
  isDefaultHandler : Bool

structure Uxsignal where
  pending : SignalSet
  blocked : SignalSet
  prevBlocked : SignalSet
  paused : Bool
  useOldMask : Bool
  onStack : Bool
  vec : ℕ → SigVec
  uxCode : ℕ → ℤ
  tmPostIds : ℕ → ℤ
  sigstack : ℕ
  calls : List HandlerCall

namespace Uxsignal

def create (prevBlocked : SignalSet) (uxCode tmPostIds : ℕ → ℤ) : Uxsignal where
  pending := 0
  blocked := 0
  prevBlocked := prevBlocked
  paused := false
  useOldMask := false
  onStack := false
  vec := fun _ => ⟨.dfl, 0, false⟩
  uxCode := uxCode
  tmPostIds := tmPostIds
  sigstack := 0
  calls := []

variable (x : Uxsignal)

def signalReset : Uxsignal :=
  { x with
    pending := 0
    blocked := 0
    paused := false
    useOldMask := false
    onStack := false
    vec := fun _ => ⟨.dfl, 0, false⟩
    sigstack := 0 }

def signalPost (sig code tmPostId : ℤ) : Uxsignal :=
  if sig ≤ 0 ∨ nsig < sig then x
  else
    { x with
      pending := x.pending ||| sigmask sig.toNat
      uxCode := update x.uxCode sig.toNat code
      tmPostIds :=
        if tmPostId = 0 then x.tmPostIds else update x.tmPostIds sig.toNat tmPostId }

def nxtBit (mask : SignalSet) : ℕ :=
  ((List.range' 1 31).find? fun i => mask &&& sigmask i ≠ 0#32).getD 0

inductive Turn where
  | again (x : Uxsignal)
  | done (x : Uxsignal) (handler : Handler)

def oldMask : SignalSet := if x.useOldMask then x.prevBlocked else x.blocked

def block (sig : ℕ) : Uxsignal :=
  { x with
    useOldMask := false
    blocked := x.blocked ||| (sigmask sig ||| (x.vec sig).mask)
    onStack := (x.vec sig).onStack }

def record (sensitive : Bool) (sig : ℕ) (handler : Handler) (code : ℤ) (isDefaultHandler : Bool) :
    HandlerCall where
  stack := if (x.vec sig).onStack then x.sigstack else 0
  handler := handler
  sig := sig
  code := code
  oldMask := x.oldMask
  onStack := (x.vec sig).onStack
  sensitive := sensitive
  isDefaultHandler := isDefaultHandler

def hand (old : Uxsignal) (sensitive fails : Bool) (sig : ℕ) (handler : Handler) (code : ℤ)
    (isDefaultHandler : Bool) : Turn :=
  if fails then
    .done
      { x with
        blocked := old.blocked
        pending := old.pending
        paused := old.paused
        useOldMask := old.useOldMask
        onStack := old.onStack } .signalIgnore
  else
    let y :=
      { x.block sig with calls := x.record sensitive sig handler code isDefaultHandler :: x.calls }
    if handler = .signalIgnore then .again y else .done y handler

def turn (sensitive : Bool) (fails : ℕ → Bool) : Turn :=
  let pending := x.pending &&& ~~~x.blocked
  if pending = 0#32 then .done x .signalIgnore
  else
    let sig := nxtBit pending
    if sig = 0 then .done x .signalIgnore
    else
      let y := { x with pending := x.pending &&& ~~~sigmask sig }
      match (x.vec sig).handler with
      | .ign => .done y .ign
      | .dfl =>
        match defaultHandlers sig with
        | .ignore => .again y
        | d =>
          let z := { y with tmPostIds := update x.tmPostIds sig 0 }
          if sensitive then z.hand x sensitive (fails sig) sig d.handler (x.tmPostIds sig) true
          else .done z d.handler
      | h => y.hand x sensitive (fails sig) sig h (x.uxCode sig) false

def deliverLoop (sensitive : Bool) (fails : ℕ → Bool) : ℕ → Uxsignal → Uxsignal × Handler
  | 0, x => (x, .signalIgnore)
  | n + 1, x =>
    match x.turn sensitive fails with
    | .again y => deliverLoop sensitive fails n y
    | .done y h => (y, h)

def deliver (sensitive : Bool) (fails : ℕ → Bool) : Uxsignal × Bool :=
  let r := deliverLoop sensitive fails 32 x
  if r.2 = .signalIgnore then (r.1, false) else ({ r.1 with paused := false }, true)

def signalReturn (onStack : Bool) (mask : SignalSet) (fails : ℕ → Bool) : Uxsignal :=
  (deliver { x with blocked := mask, onStack := onStack } true fails).1

def signalSetVec (sig : ℤ) (vec : Option SigVec) : Uxsignal :=
  if sig < 0 ∨ nsig < sig ∨ sig = sigkill ∨ sig = sigstop then x
  else if sigmask sig.toNat &&& cantmask = 0#32 then
    match vec with
    | some v => { x with vec := update x.vec sig.toNat v }
    | none => x
  else x

def signalSetHandler (sig : ℤ) (handler : Handler) : Uxsignal :=
  if sig < 0 ∨ nsig < sig then x
  else
    { x with
      vec := update x.vec sig.toNat
        { x.vec sig.toNat with
          handler := handler
          mask := (x.vec sig.toNat).mask &&& ~~~cantmask } }

def signalBlock (mask : SignalSet) : Uxsignal :=
  { x with blocked := x.blocked ||| (mask &&& ~~~cantmask) }

def signalSetMask (mask : SignalSet) (fails : ℕ → Bool) : Uxsignal :=
  (deliver { x with blocked := mask &&& ~~~cantmask } true fails).1

def signalSetStack (stack : Option ℕ) : Uxsignal :=
  { x with sigstack := stack.getD x.sigstack }

def signalPause (mask : SignalSet) (fails : ℕ → Bool) : Uxsignal :=
  let r := deliver { x with prevBlocked := x.blocked, blocked := mask, useOldMask := true } true fails
  if r.2 then r.1 else { r.1 with paused := true }

inductive Call where
  | reset
  | post (sig code tmPostId : ℤ)
  | deliver (sensitive : Bool) (fails : ℕ → Bool)
  | sigreturn (onStack : Bool) (mask : SignalSet) (fails : ℕ → Bool)
  | setVec (sig : ℤ) (vec : Option SigVec)
  | setHandler (sig : ℤ) (handler : Handler)
  | block (mask : SignalSet)
  | setMask (mask : SignalSet) (fails : ℕ → Bool)
  | setStack (stack : Option ℕ)
  | pause (mask : SignalSet) (fails : ℕ → Bool)

def next : Call → Option Uxsignal
  | .reset => some x.signalReset
  | .post sig code tmPostId => some (x.signalPost sig code tmPostId)
  | .deliver sensitive fails => some (x.deliver sensitive fails).1
  | .sigreturn onStack mask fails => some (x.signalReturn onStack mask fails)
  | .setVec sig vec => some (x.signalSetVec sig vec)
  | .setHandler sig handler => some (x.signalSetHandler sig handler)
  | .block mask => some (x.signalBlock mask)
  | .setMask mask fails => some (x.signalSetMask mask fails)
  | .setStack stack => some (x.signalSetStack stack)
  | .pause mask fails => some (x.signalPause mask fails)

end Uxsignal

end MachUS.Ux
