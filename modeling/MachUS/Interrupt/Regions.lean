import MachUS.Interrupt.Bookkeeping

namespace MachUS.Interrupt

def newRoutineAtTop (self : ThreadId) (routineTopRegion : Bool) (o : Outside) : M Unit :=
  if routineTopRegion then intrNewRoutine self o else pure ()

def intrRegion (self : ThreadId) (h : HandlerAddr) (rtype : Bits) (routineTopRegion : Bool)
    (o : Outside) : M Bool := do
  newRoutineAtTop self routineTopRegion o
  writeHandler h (·.region rtype)
  let doHandler ← intrPending self h true o
  if doHandler then pure true
  else
    let _ ← intrEnableHandler self h o
    pure false

def intrHandler (self : ThreadId) (h : HandlerAddr) (o : Outside) : M Bool := do
  let doHandler ← intrPending self h true o
  if doHandler then pure true
  else
    let _ ← intrDisableHandler self h o
    pure false

def intrEnd (self : ThreadId) (h : HandlerAddr) (o : Outside) : M Unit := do
  intrExitHandler self h o
  ignoring (intrDisableHandler self h o)

structure Region where
  hand : HandlerAddr
  entry : ℤ
  enabled : Bool
  handled : Bool
  handling : Bool

inductive RegionAct where
  | call
  | leave
  | newRoutine
  | region (h : HandlerAddr) (rtype : Bits) (handled : Bool)
  | handler
  | end_
  | return_
  | deliver (source : ThreadId) (deliveryType interruptType : Bits)
  | post (source : ThreadId) (deliveryType interruptType : Bits) (error code subcode : ℤ)

structure RegionState where
  task : Taskwide
  routines : List (List Region)

namespace Taskwide

def thread (s : Taskwide) (self : ThreadId) : Option ThreadInfo := (s.entry self).bind s.records

def index (s : Taskwide) (self : ThreadId) : ℤ := ((s.thread self).map ThreadInfo.nextIndex).getD 0

end Taskwide

namespace RegionState

variable (self : ThreadId)

def regions (s : RegionState) : List Region := s.routines.flatten

def innermost (s : RegionState) : Option Region := (s.routines.head?.getD []).head?

def outermost (s : RegionState) : Option Region := (s.routines.head?.getD []).getLast?

def withRoutine (s : RegionState) (t : Taskwide) (f : List Region → List Region) : RegionState :=
  ⟨t, s.routines.modifyHead f⟩

def step (s : RegionState) (o : Outside) : RegionAct → Except Fault RegionState
  | .call => .ok ⟨s.task, [] :: s.routines⟩
  | .leave => .ok ⟨s.task, s.routines.tail⟩
  | .newRoutine => do
    let (_, t) ← intrNewRoutine self o s.task
    .ok (s.withRoutine t id)
  | .region h rtype handled => do
    let (doHandler, t) ← intrRegion self h rtype s.innermost.isNone o s.task
    if doHandler && !handled then
      let (_, t) ← intrDisableHandler self h o t
      .ok (s.withRoutine t id)
    else
      .ok (s.withRoutine t (⟨h, s.task.index self, !doHandler, handled, doHandler⟩ :: ·))
  | .handler =>
    match s.innermost with
    | none => .ok s
    | some r => do
      let (doHandler, t) ← intrHandler self r.hand o s.task
      if doHandler then .ok (s.withRoutine t fun rs => { r with handling := true } :: rs.tail)
      else .ok (s.withRoutine t List.tail)
  | .end_ =>
    match s.innermost with
    | none => .ok s
    | some r => do
      let (_, t) ← intrEnd self r.hand o s.task
      .ok (s.withRoutine t List.tail)
  | .return_ =>
    match s.innermost with
    | none => .ok s
    | some r => do
      let (_, t) ← intrReturn self r.hand o s.task
      .ok ⟨t, s.routines.tail⟩
  | .deliver source deliveryType interruptType => do
    let (_, t) ← intrDeliverInterrupt source self deliveryType interruptType o s.task
    .ok (s.withRoutine t id)
  | .post source deliveryType interruptType error code subcode => do
    let (_, t) ←
      intrPostInterrupt source self deliveryType interruptType error code subcode o s.task
    .ok (s.withRoutine t id)

def next (s : RegionState) (e : Outside × RegionAct) : Option RegionState :=
  match step self s e.1 e.2 with
  | .ok t => some t
  | .error _ => none

def Nested (s : RegionState) (e : Outside × RegionAct) : Prop :=
  match e.2 with
  | .leave => s.innermost = none ∧ 1 < s.routines.length
  | .newRoutine => s.innermost = none
  | .region h _ _ =>
    s.routines ≠ [] ∧ (∀ r ∈ s.regions, r.hand ≠ h) ∧ s.task.index self < maxIntrHandlers
  | .handler => ∃ r ∈ s.innermost, r.handled = true ∧ r.handling = false
  | .end_ => ∃ r ∈ s.innermost, (r.handling = true ∨ r.handled = false)
  | .return_ => s.innermost ≠ none
  | .call | .deliver _ _ _ | .post _ _ _ _ _ _ => True

instance (s : RegionState) : ∀ e : Outside × RegionAct, Decidable (Nested self s e)
  | (_, .leave) => inferInstanceAs (Decidable (_ ∧ _))
  | (_, .newRoutine) => inferInstanceAs (Decidable (_ = none))
  | (_, .region h _ _) =>
    inferInstanceAs (Decidable (_ ≠ [] ∧ (∀ r ∈ s.regions, r.hand ≠ h) ∧ _ < maxIntrHandlers))
  | (_, .handler) =>
    inferInstanceAs (Decidable (∃ r ∈ s.innermost, r.handled = true ∧ r.handling = false))
  | (_, .end_) =>
    inferInstanceAs (Decidable (∃ r ∈ s.innermost, (r.handling = true ∨ r.handled = false)))
  | (_, .return_) => inferInstanceAs (Decidable (_ ≠ none))
  | (_, .call) => isTrue trivial
  | (_, .deliver _ _ _) => isTrue trivial
  | (_, .post _ _ _ _ _ _) => isTrue trivial

end RegionState

section Delivery

variable (hands : HandlerAddr → Handler)

def innermostFor (info : ThreadInfo) (interruptType : Bits) : ℕ → Option ℕ
  | 0 => none
  | k + 1 =>
    if interruptType &&& (hands (info.handlers k)).regionType ≠ 0 then some k
    else innermostFor info interruptType k

def enterable (info : ThreadInfo) (interruptType : Bits) : Prop :=
  intrSync &&& info.pending &&& info.masked = 0 ∧
    (intrSync &&& interruptType = 0 → intrAsync &&& info.masked = 0)

def Receives (info : ThreadInfo) (deliveryType interruptType : Bits) (i : ℤ) : Prop :=
  ∃ k : ℕ, i = k ∧ innermostFor hands info interruptType info.nextIndex.toNat = some k ∧
    intrDeliverableRegion interruptType deliveryType (hands (info.handlers k)).regionType ≠ 0 ∧
    enterable info interruptType

end Delivery

def ThreadInfo.posted (info : ThreadInfo) (interruptType : Bits) : ThreadInfo :=
  if info.pending &&& interruptType = 0 then
    { info with pending := info.pending ||| interruptType }
  else info

def ThreadInfo.exited (info : ThreadInfo) (hand : Handler) : ThreadInfo :=
  { info with masked := info.masked &&& ~~~hand.intrType }

namespace RegionState

variable (self : ThreadId)

def Receiving (s : RegionState) (i : ℤ) : RegionAct → Prop
  | .deliver _ deliveryType interruptType => ∃ info, s.task.thread self = some info ∧
      Receives s.task.handlers info deliveryType interruptType i
  | .post _ deliveryType interruptType _ _ _ =>
      intrBlocked &&& deliveryType = 0 ∧ deliveryType ≠ 0 ∧
        ∃ info, s.task.thread self = some info ∧
          Receives s.task.handlers (info.posted interruptType) intrImmediate interruptType i
  | .end_ => ∃ r info, s.innermost = some r ∧ s.task.thread self = some info ∧
      Receives s.task.handlers (info.exited (s.task.handlers r.hand)) intrImmediate info.pending i
  | _ => False

def Restored (s t : RegionState) : RegionAct → Prop
  | .region _ _ _ => t.regions.length = s.regions.length → t.task.index self = s.task.index self
  | .handler => t.regions.length < s.regions.length →
      ∀ r, s.innermost = some r → t.task.index self = r.entry
  | .end_ => ∀ r, s.innermost = some r → t.task.index self = r.entry
  | .return_ => ∀ r, s.outermost = some r → t.task.index self = r.entry
  | _ => True

def Unwound (t : RegionState) (i : ℤ) : RegionAct → Prop
  | .end_ => False
  | _ => t.task.index self = i

/-- The act stays inside the handlers, restores the index of a region it leaves, and unwinds to the
region that an interrupt it delivers belongs to. -/
def Right (s : RegionState) (e : Outside × RegionAct) : Prop :=
  match step self s e.1 e.2 with
  | .error .outsideHandlers => False
  | .error _ => True
  | .ok t => Restored self s t e.2 ∧ ∀ i, Receiving self s i e.2 → Unwound self t i e.2

def Fair (s : RegionState) (e : Outside × RegionAct) : Prop :=
  (∀ i, ¬Receiving self s i e.2) ∧
    (e.2 = .return_ → ∃ info, s.task.thread self = some info ∧ 0 < info.nextIndex ∧
      ∀ r, s.outermost = some r → info.returnIndex = r.entry)

end RegionState

end MachUS.Interrupt
