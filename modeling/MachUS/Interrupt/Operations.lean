import MachUS.Foundation.Program
import Mathlib.Data.List.AList

namespace MachUS.Interrupt

open Program

-- An intr_cthread_id_t, with 0 for INTR_CTHREAD_ID_NULL.
abbrev ThreadId := ℕ

-- An address of an intr_thread_info, with 0 for INTR_THREAD_INFO_NULL.
abbrev Addr := ℕ

-- An address of an intr_handler, with 0 for INTR_HANDLER_NULL.
abbrev HandlerAddr := ℕ

abbrev Bits := BitVec 32

def intrSync : Bits := 0xf

def intrAsync : Bits := 0xf0

def intrImmediate : Bits := 0x1

def intrBlocked : Bits := 0x2

def intrBounds : Bits := 0x4

def intrWithTest : Bits := 0x8

def intrAsyncBlocked : Bits := intrBlocked <<< 4

def intrAsyncBounds : Bits := intrBounds <<< 4

def intrAll : Bits := -1

def maxIntrHandlers : ℤ := 10

structure Handler where
  threadInfo : Addr
  index : ℤ
  regionType : Bits
  returnIndex : ℤ
  intrType : Bits
  error : ℤ
  code : ℤ
  subcode : ℤ
  abortReturn : ℤ

def Handler.region (junk : Handler) (regionType : Bits) : Handler :=
  { junk with threadInfo := 0, regionType := regionType, index := -1, returnIndex := -1 }

inductive Shake where
  | msg
  | condWait
  deriving DecidableEq

structure ShakeInfo where
  occurred : Bool
  id : ThreadId
  sends : Bool

structure ThreadInfo where
  handlers : ℤ → HandlerAddr
  nextIndex : ℤ
  returnIndex : ℤ
  pending : Bits
  masked : Bits
  syncError : ℤ
  asyncError : ℤ
  syncCode : ℤ
  asyncCode : ℤ
  syncSubcode : ℤ
  asyncSubcode : ℤ
  shakeOnPost : Option Shake
  shakeInfo : ShakeInfo

namespace ThreadInfo

def init (info : ThreadInfo) : ThreadInfo :=
  { info with
    nextIndex := 0
    returnIndex := 0
    pending := 0
    syncError := 0
    asyncError := 0
    syncCode := 0
    asyncCode := 0
    syncSubcode := 0
    asyncSubcode := 0
    shakeOnPost := none }

end ThreadInfo

structure Taskwide where
  table : Option (List (ThreadId × Addr))
  lastId : ThreadId
  lastThreadInfo : Addr
  records : Addr → Option ThreadInfo
  handlers : HandlerAddr → Handler
  syncDefault : Bool
  held : Bool
  acquired : ℕ
  released : ℕ

inductive Fault where
  | deadlock
  | nullTable
  | badRecord
  | noMemory
  | outsideHandlers
  | taskTerminated
  | longjmp

abbrev M := Prog Taskwide Fault

def lock : M Unit := do
  let s ← get
  if s.held then lift (.error .deadlock)
  else modify fun s => { s with held := true, acquired := s.acquired + 1 }

def unlock : M Unit := modify fun s => { s with held := false, released := s.released + 1 }

def hashTable : M (List (ThreadId × Addr)) := do
  let s ← get
  match s.table with
  | none => lift (.error .nullTable)
  | some table => pure table

def readInfo (a : Addr) : M ThreadInfo := do
  let s ← get
  match s.records a with
  | none => lift (.error .badRecord)
  | some info => pure info

def writeInfo (a : Addr) (f : ThreadInfo → ThreadInfo) : M Unit := do
  let info ← readInfo a
  modify fun s => { s with records := Function.update s.records a (some (f info)) }

def free (a : Addr) : M Unit := do
  let _ ← readInfo a
  modify fun s => { s with records := Function.update s.records a none }

structure Allocation where
  addr : Addr
  junk : ThreadInfo

def new (fresh : Allocation) : M Addr := do
  let s ← get
  if fresh.addr = 0 ∨ (s.records fresh.addr).isSome then lift (.error .noMemory)
  else
    modify fun s => { s with records := Function.update s.records fresh.addr (some fresh.junk) }
    pure fresh.addr

def writeHandler (h : HandlerAddr) (f : Handler → Handler) : M Unit :=
  modify fun s => { s with handlers := Function.update s.handlers h (f (s.handlers h)) }

def cacheInHandler (h : HandlerAddr) (a : Addr) : M Unit :=
  if h = 0 then pure () else writeHandler h fun hand => { hand with threadInfo := a }

def setCache (id : ThreadId) (a : Addr) : M Unit :=
  modify fun s => { s with lastId := id, lastThreadInfo := a }

def intrGetThreadInfo (self id : ThreadId) (h : HandlerAddr) (allocateNew : Bool)
    (fresh : Allocation) : M Addr := do
  let s ← get
  if h ≠ 0 ∧ (s.handlers h).threadInfo ≠ 0 then pure (s.handlers h).threadInfo
  else
    let id := if id = 0 then self else id
    if s.lastId = id then
      cacheInHandler h s.lastThreadInfo
      pure s.lastThreadInfo
    else
      let table ← hashTable
      setCache id ((table.lookup id).getD 0)
      match table.lookup id with
      | some a =>
        cacheInHandler h a
        pure a
      | none =>
        if allocateNew then
          let a ← new fresh
          setCache id a
          writeInfo a ThreadInfo.init
          modify fun s => { s with table := some (table ++ [(id, a)]) }
          cacheInHandler h a
          pure a
        else
          setCache 0 0
          pure 0

end MachUS.Interrupt

namespace MachUS.Interrupt

open Program

def kernSuccess : ℤ := 0

def kernFailure : ℤ := 5

structure Outside where
  fresh : Allocation
  syncDefault : ℤ
  doHandler : ℤ
  ownThread : Bool
  portNull : Bool
  portStillNull : Bool

def intrInit : M Unit :=
  modify fun s => { s with table := some (s.table.getD []), lastId := 0, lastThreadInfo := 0 }

def intrSetSyncDefault (installed : Bool) : M Unit := do
  lock
  modify fun s => { s with syncDefault := installed }
  unlock

def freeAll : List (ThreadId × Addr) → M Unit
  | [] => pure ()
  | entry :: rest => do
    free entry.2
    freeAll rest

def intrReset : M Unit := do
  lock
  let table ← hashTable
  freeAll table
  modify fun s => { s with table := none }
  intrInit
  unlock

def intrResetSelf (self : ThreadId) (o : Outside) : M ℤ := do
  lock
  let a ← intrGetThreadInfo self 0 0 false o.fresh
  if a = 0 then
    unlock
    pure kernSuccess
  else
    writeInfo a ThreadInfo.init
    unlock
    pure kernSuccess

def hashRemove (id : ThreadId) : M Unit := do
  let table ← hashTable
  modify fun s => { s with table := some (table.eraseP (·.1 = id)) }

def intrDestroySelf (self : ThreadId) (o : Outside) : M ℤ := do
  lock
  let a ← intrGetThreadInfo self 0 0 false o.fresh
  if a = 0 then
    unlock
    pure kernSuccess
  else
    hashRemove self
    free a
    unlock
    pure kernSuccess

def inHandlers (i : ℤ) : M Unit :=
  if 0 ≤ i ∧ i < maxIntrHandlers then pure () else lift (.error .outsideHandlers)

def intrEnableHandler (self : ThreadId) (h : HandlerAddr) (o : Outside) : M ℤ := do
  lock
  let a ← intrGetThreadInfo self 0 h true o.fresh
  let info ← readInfo a
  writeHandler h fun hand => { hand with index := info.nextIndex }
  inHandlers info.nextIndex
  writeInfo a fun info =>
    { info with
      handlers := Function.update info.handlers info.nextIndex h
      nextIndex := info.nextIndex + 1 }
  unlock
  pure kernSuccess

def intrDisableHandlerInternal (self : ThreadId) (h : HandlerAddr) (o : Outside) : M ℤ := do
  let s ← get
  if (s.handlers h).index < 0 then pure kernSuccess
  else
    let a ← intrGetThreadInfo self 0 h false o.fresh
    let index := (s.handlers h).index
    writeInfo a fun info => { info with nextIndex := index }
    if index = 0 then
      writeInfo a fun info => { info with returnIndex := 0 }
      pure kernSuccess
    else
      inHandlers (index - 1)
      let s ← get
      writeInfo a fun info =>
        { info with returnIndex := (s.handlers (info.handlers (index - 1))).returnIndex }
      pure kernSuccess

def intrDisableHandler (self : ThreadId) (h : HandlerAddr) (o : Outside) : M ℤ := do
  lock
  let ret ← intrDisableHandlerInternal self h o
  unlock
  pure ret

def intrEnterHandler (self : ThreadId) (h : HandlerAddr) (interrupt : Bits) (o : Outside) :
    M Bool := do
  let a ← intrGetThreadInfo self 0 h true o.fresh
  let info ← readInfo a
  if intrSync &&& info.pending &&& info.masked ≠ 0 then lift (.error .taskTerminated)
  else
    let intr := if interrupt &&& intrSync ≠ 0 then intrSync else intrAsync
    if intrAsync &&& intr &&& info.masked ≠ 0 then pure false
    else
      writeHandler h fun hand => { hand with abortReturn := 0, intrType := intr }
      if intrSync &&& intr ≠ 0 then
        writeHandler h fun hand =>
          { hand with error := info.syncError, code := info.syncCode, subcode := info.syncSubcode }
        writeInfo a fun info =>
          { info with
            masked := info.masked ||| intr
            pending := info.pending &&& ~~~intr
            syncError := 0
            syncCode := 0
            syncSubcode := 0 }
        pure true
      else
        writeHandler h fun hand =>
          { hand with error := info.asyncError, code := info.asyncCode, subcode := info.asyncSubcode }
        writeInfo a fun info =>
          { info with
            masked := info.masked ||| intr
            pending := info.pending &&& ~~~intr
            asyncError := 0
            asyncCode := 0
            asyncSubcode := 0 }
        pure true

def intrDeliverableRegion (intrTypes deliveryTypes regionType : Bits) : Bits :=
  let appRegion := intrTypes &&& regionType
  if intrAsyncBlocked &&& appRegion ≠ 0 then appRegion &&& ~~~intrAsync
  else
    let appRegion :=
      if intrBounds &&& deliveryTypes = 0 then appRegion &&& ~~~intrAsyncBounds else appRegion
    if intrWithTest &&& deliveryTypes = 0 then appRegion &&& ~~~(intrWithTest <<< 4) else appRegion

def findHandler (info : ThreadInfo) : M HandlerAddr :=
  if info.nextIndex - 1 < 0 then lift (.error .outsideHandlers) else pure 0

def intrDeliverInterruptInternal (self : ThreadId) (deliveryType interruptType : Bits) (a : Addr)
    (o : Outside) : M ℤ := do
  let info ← readInfo a
  if info.nextIndex = 0 then pure kernFailure
  else
    let hand ← findHandler info
    let s ← get
    if hand = 0 then
      if intrSync &&& interruptType ≠ 0 ∧ s.syncDefault = true then pure o.syncDefault
      else pure kernFailure
    else if intrDeliverableRegion interruptType deliveryType (s.handlers hand).regionType = 0 then
      pure 0
    else
      let entered ← intrEnterHandler self hand interruptType o
      if entered then
        let _ ← intrDisableHandlerInternal self hand o
        if o.ownThread then lift (.error .longjmp) else pure o.doHandler
      else pure 0

def intrExitHandler (self : ThreadId) (h : HandlerAddr) (o : Outside) : M Unit := do
  lock
  let a ← intrGetThreadInfo self 0 h false o.fresh
  let s ← get
  writeInfo a fun info => { info with masked := info.masked &&& ~~~(s.handlers h).intrType }
  let info ← readInfo a
  if info.pending ≠ 0 then
    let _ ← intrDeliverInterruptInternal self intrImmediate info.pending a o
    unlock
  else unlock

def intrNewRoutine (self : ThreadId) (o : Outside) : M Unit := do
  lock
  let a ← intrGetThreadInfo self 0 0 false o.fresh
  if a ≠ 0 then
    writeInfo a fun info => { info with returnIndex := info.nextIndex }
    unlock
  else unlock

def popHandlers (self : ThreadId) (a : Addr) (o : Outside) : M Unit := do
  writeInfo a fun info => { info with pending := info.pending &&& ~~~info.masked, masked := 0 }
  let info ← readInfo a
  if info.nextIndex = info.returnIndex then
    inHandlers (info.nextIndex - 1)
    let s ← get
    writeInfo a fun info =>
      { info with returnIndex := (s.handlers (info.handlers (info.nextIndex - 1))).returnIndex }
    unlock
  else
    inHandlers info.returnIndex
    let _ ← intrDisableHandlerInternal self (info.handlers info.returnIndex) o
    unlock

def intrReturn (self : ThreadId) (h : HandlerAddr) (o : Outside) : M Unit := do
  lock
  let a ← intrGetThreadInfo self 0 h false o.fresh
  if a = 0 then pure () else popHandlers self a o

def intrPending (self : ThreadId) (h : HandlerAddr) (enterHandler : Bool) (o : Outside) :
    M Bool := do
  lock
  let a ← intrGetThreadInfo self 0 h false o.fresh
  if a = 0 then
    unlock
    pure false
  else
    let info ← readInfo a
    let s ← get
    if intrDeliverableRegion info.pending intrAll (s.handlers h).regionType = 0 then
      unlock
      pure false
    else if enterHandler then
      let _ ← intrEnterHandler self h info.pending o
      unlock
      pure true
    else
      unlock
      pure true

def intrDeliverInterrupt (self id : ThreadId) (deliveryType interruptType : Bits) (o : Outside) :
    M ℤ := do
  lock
  let a ← intrGetThreadInfo self id 0 false o.fresh
  if a ≠ 0 then
    let ret ← intrDeliverInterruptInternal self deliveryType interruptType a o
    unlock
    pure ret
  else
    unlock
    pure kernSuccess

def occurs (info : ThreadInfo) : ThreadInfo :=
  { info with shakeInfo := { info.shakeInfo with occurred := true } }

def intrMsgShake (self : ThreadId) (a : Addr) (o : Outside) : M Unit := do
  let info ← readInfo a
  if info.shakeInfo.occurred then pure ()
  else
    writeInfo a occurs
    if info.shakeInfo.sends then pure ()
    else if o.portNull ∧ o.portStillNull then
      let b ← intrGetThreadInfo self info.shakeInfo.id 0 true o.fresh
      let _ ← intrDeliverInterruptInternal self intrWithTest intrAsync b o
      pure ()
    else pure ()

def intrCondWaitShake (a : Addr) : M Unit := do
  let info ← readInfo a
  if info.shakeInfo.occurred then pure () else writeInfo a occurs

def callShake (self : ThreadId) (shake : Shake) (a : Addr) (o : Outside) : M Unit :=
  match shake with
  | .msg => intrMsgShake self a o
  | .condWait => intrCondWaitShake a

def shakePosted (self : ThreadId) (interruptType : Bits) (info : ThreadInfo) (a : Addr)
    (o : Outside) : M Unit :=
  match info.shakeOnPost with
  | some shake => if interruptType &&& ~~~info.masked ≠ 0 then callShake self shake a o else pure ()
  | none => pure ()

def intrPostInterrupt (self id : ThreadId) (deliveryType interruptType : Bits)
    (error code subcode : ℤ) (o : Outside) : M ℤ := do
  lock
  let a ← intrGetThreadInfo self id 0 true o.fresh
  writeInfo a fun info =>
    if info.pending &&& interruptType = 0 then
      if intrSync &&& interruptType ≠ 0 then
        { info with
          pending := info.pending ||| interruptType
          syncError := error
          syncCode := code
          syncSubcode := subcode }
      else
        { info with
          pending := info.pending ||| interruptType
          asyncError := error
          asyncCode := code
          asyncSubcode := subcode }
    else info
  let info ← readInfo a
  shakePosted self interruptType info a o
  if intrBlocked &&& deliveryType ≠ 0 ∨ deliveryType = 0 then
    unlock
    pure kernSuccess
  else
    let ret ← intrDeliverInterruptInternal self intrImmediate interruptType a o
    unlock
    pure ret

def intrShakeOnPost (self : ThreadId) (shake : Shake) (shakeInfo : ShakeInfo) (o : Outside) :
    M Unit := do
  lock
  let a ← intrGetThreadInfo self 0 0 true o.fresh
  writeInfo a fun info => { info with shakeOnPost := some shake, shakeInfo := shakeInfo }
  let info ← readInfo a
  if info.pending &&& ~~~info.masked ≠ 0 then
    callShake self shake a o
    unlock
  else unlock

def intrClearShakeOnPost (self : ThreadId) (o : Outside) : M Unit := do
  lock
  let a ← intrGetThreadInfo self 0 0 true o.fresh
  let info ← readInfo a
  if info.shakeOnPost = none then unlock
  else
    writeInfo a fun info => { info with shakeOnPost := none }
    unlock

inductive Operation where
  | init
  | setSyncDefault (installed : Bool)
  | reset
  | resetSelf
  | destroySelf
  | openRegion (h : HandlerAddr) (regionType : Bits)
  | enableHandler (h : HandlerAddr)
  | disableHandler (h : HandlerAddr)
  | exitHandler (h : HandlerAddr)
  | newRoutine
  | return_ (h : HandlerAddr)
  | pending (h : HandlerAddr) (enterHandler : Bool)
  | deliver (id : ThreadId) (deliveryType interruptType : Bits)
  | post (id : ThreadId) (deliveryType interruptType : Bits) (error code subcode : ℤ)
  | shakeOnPost (shake : Shake) (shakeInfo : ShakeInfo)
  | clearShakeOnPost

structure Call where
  self : ThreadId
  pos : self ≠ 0
  operation : Operation
  outside : Outside

def ignoring {α : Type} (m : M α) : M Unit := do
  let _ ← m
  pure ()

def Call.run (c : Call) : M Unit :=
  match c.operation with
  | .init => intrInit
  | .setSyncDefault installed => intrSetSyncDefault installed
  | .reset => intrReset
  | .resetSelf => ignoring (intrResetSelf c.self c.outside)
  | .destroySelf => ignoring (intrDestroySelf c.self c.outside)
  | .openRegion h regionType => writeHandler h (·.region regionType)
  | .enableHandler h => ignoring (intrEnableHandler c.self h c.outside)
  | .disableHandler h => ignoring (intrDisableHandler c.self h c.outside)
  | .exitHandler h => intrExitHandler c.self h c.outside
  | .newRoutine => intrNewRoutine c.self c.outside
  | .return_ h => intrReturn c.self h c.outside
  | .pending h enterHandler => ignoring (intrPending c.self h enterHandler c.outside)
  | .deliver id deliveryType interruptType =>
    ignoring (intrDeliverInterrupt c.self id deliveryType interruptType c.outside)
  | .post id deliveryType interruptType error code subcode =>
    ignoring (intrPostInterrupt c.self id deliveryType interruptType error code subcode c.outside)
  | .shakeOnPost shake shakeInfo => intrShakeOnPost c.self shake shakeInfo c.outside
  | .clearShakeOnPost => intrClearShakeOnPost c.self c.outside

namespace Taskwide

def start (handlers : HandlerAddr → Handler) : Taskwide where
  table := none
  lastId := 0
  lastThreadInfo := 0
  records := fun _ => none
  handlers := handlers
  syncDefault := false
  held := false
  acquired := 0
  released := 0

-- One call from LOCK to its end; none where it blocks on the lock or does not come back.
def next (s : Taskwide) (c : Call) : Option Taskwide :=
  match c.run s with
  | .ok (_, t) => some t
  | .error _ => none

end Taskwide

end MachUS.Interrupt
