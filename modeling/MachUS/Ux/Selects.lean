import MachUS.Foundation.Transition
import Mathlib.Data.Finset.Card

namespace MachUS.Ux

open Function

inductive SelType where
  | read
  | write
  | except
  deriving DecidableEq

inductive SelState where
  | new
  | waiting
  | collecting
  | completed
  deriving DecidableEq

inductive SelProbe where
  | nothing
  | requested
  | succeeded
  deriving DecidableEq

inductive SelRet where
  | success
  | ioWouldWait
  | resourceExhausted
  | badFd
  | noFds
  | noPort
  | probeFailed
  | exceptSoftware
  | timeout
  deriving DecidableEq

inductive MsgRet where
  | received
  | timedOut
  | interrupted
  | failed
  deriving DecidableEq

abbrev Visit (n : ℕ) := SelType × Fin n

def uxioMaxSelectCount : ℕ := 16

abbrev SlotIndex := Fin uxioMaxSelectCount

structure Uxselect (n : ℕ) where
  nFds : ℤ
  selectedFds : Finset (Visit n)
  signaledFds : Finset (Visit n)
  countFoundFds : ℕ
  foundFds : ℕ
  state : SelState
  timed : Bool
  given : Finset (Visit n)
  looked : Finset (Visit n)
  told : Finset (Visit n)
  acknowledged : Finset (Visit n)
  answer : Option (Finset (Visit n))

namespace Uxselect

variable {n : ℕ} (x : Uxselect n)

def create (nfds : ℤ) (given : Finset (Visit n)) (timed : Bool) : Uxselect n where
  nFds := nfds
  selectedFds := given.filter fun v => v.1 ≠ .except
  signaledFds := ∅
  countFoundFds := 0
  foundFds := 0
  state := .new
  timed := timed
  given := given
  looked := ∅
  told := ∅
  acknowledged := ∅
  answer := none

def lookSet (nfds : ℤ) (fds : Finset (Visit n)) (i : SelType) : List (Fin n) → ℤ → List (Visit n) × ℤ
  | [], seen => ([], seen)
  | j :: js, seen =>
    if seen < nfds then
      if (i, j) ∈ fds then
        let r := lookSet nfds fds i js (seen + 1)
        ((i, j) :: r.1, r.2)
      else lookSet nfds fds i js seen
    else ([], seen)

def looks (nfds : ℤ) (fds : Finset (Visit n)) : List (Visit n) :=
  let r := lookSet nfds fds .read (List.finRange n) 0
  let w := lookSet nfds fds .write (List.finRange n) r.2
  let e := lookSet nfds fds .except (List.finRange n) w.2
  r.1 ++ (w.1 ++ e.1)

def signal (v : Visit n) : Bool × Uxselect n :=
  let x := { x with told := insert v x.told }
  if x.state = .completed then (false, x)
  else if v ∉ x.selectedFds then (false, x)
  else (true,
    { x with
      signaledFds := insert v x.signaledFds
      countFoundFds := x.countFoundFds + 1
      state := .collecting
      acknowledged := insert v x.acknowledged })

end Uxselect

structure SelectInfo (K : Type) (n : ℕ) where
  selector : Option K
  visit : Visit n
  wait : Bool
  thread : Bool

structure Sweep (K P : Type) where
  holder : K ⊕ P
  type : SelType
  next : ℕ
  countSignaled : ℕ

structure Uxio (K P : Type) (n : ℕ) where
  selectState : SelType → SelProbe
  activeSelects : SlotIndex → SelectInfo K n
  sweep : Option (Sweep K P)
  owed : SelType → Bool

structure Scan (n : ℕ) where
  localOnly : Bool
  rest : List (Visit n)
  found : Bool

inductive SelectPhase (U : Type) (n : ℕ) where
  | unborn
  | scanning (c : Scan n)
  | completing (c : Scan n) (v : Visit n) (u : U) (s : SlotIndex) (ret : SelRet) (prober : Bool)
  | finishing (c : Scan n) (v : Visit n) (u : U) (s : SlotIndex) (ret : SelRet)
  | probing (c : Scan n) (v : Visit n) (u : U) (s : SlotIndex) (wait : Bool)
  | storing (c : Scan n) (u : U) (s : SlotIndex)
  | settling
  | blocked
  | returned (ret : SelRet)

inductive ProbePhase (K U : Type) (n : ℕ) where
  | unborn
  | started (u : U) (s : SlotIndex) (k : K) (v : Visit n)
  | probing (u : U) (s : SlotIndex) (k : K) (v : Visit n) (type : SelType) (wait : Bool)
  | finishing (u : U)
  | gone

structure Selects (K U P : Type) (n : ℕ) where
  selector : K → Uxselect n
  refs : K → ℤ
  io : U → Uxio K P n
  phase : K → SelectPhase U n
  prober : P → ProbePhase K U n

inductive SelectEvent (K U P : Type) (n : ℕ) where
  | start (k : K) (nfds : ℤ) (given : Finset (Visit n)) (timed : Bool)
  | visit (k : K) (entry : Option U) (wait : Bool)
  | pass (k : K) (port : Bool)
  | attempt (k : K) (p : P) (ret : SelRet)
  | store (k : K)
  | complete (k : K)
  | settle (k : K) (msg : MsgRet)
  | wake (k : K) (interrupted : Bool)
  | begin (p : P)
  | report (p : P)
  | sweep (u : U)
  | read (u : U) (consumes : Bool)

namespace Selects

variable {K U P : Type} [DecidableEq K] [DecidableEq U] [DecidableEq P] {n : ℕ} (x : Selects K U P n)

def boot (idle : SelectInfo K n) : Selects K U P n where
  selector _ := .create 0 ∅ false
  refs _ := 1
  io _ := ⟨fun _ => .nothing, fun _ => { idle with selector := none }, none, fun _ => false⟩
  phase _ := .unborn
  prober _ := .unborn

def goes (k : K) (q : SelectPhase U n) : Selects K U P n :=
  { x with phase := update x.phase k q }

def sets (k : K) (y : Uxselect n) : Selects K U P n :=
  { x with selector := update x.selector k y }

def turns (u : U) (y : Uxio K P n) : Selects K U P n := { x with io := update x.io u y }

def probes (p : P) (q : ProbePhase K U n) : Selects K U P n :=
  { x with prober := update x.prober p q }

def slots (u : U) (s : SlotIndex) (y : SelectInfo K n) : Selects K U P n :=
  x.turns u { x.io u with activeSelects := update (x.io u).activeSelects s y }

def notes (u : U) (i : SelType) (y : SelProbe) : Selects K U P n :=
  x.turns u { x.io u with selectState := update (x.io u).selectState i y }

def references (k : K) (d : ℤ) : Selects K U P n :=
  { x with refs := update x.refs k (x.refs k + d) }

def returns (k : K) (ret : SelRet) : Selects K U P n :=
  (x.sets k { x.selector k with answer := some (x.selector k).signaledFds }).goes k (.returned ret)

def finish (k : K) : Selects K U P n :=
  (x.sets k { x.selector k with
    state := .completed
    foundFds := (x.selector k).countFoundFds }).returns k .success

def abandon (k : K) (ret : SelRet) : Selects K U P n :=
  (x.sets k { x.selector k with state := .completed }).returns k ret

def back (k : K) (c : Scan n) (v : Visit n) (ret : SelRet) : Selects K U P n :=
  if c.localOnly then
    match ret with
    | .success =>
      (x.sets k { x.selector k with signaledFds := insert v (x.selector k).signaledFds }).goes k
        (.scanning { c with found := true })
    | .ioWouldWait => x.goes k (.scanning c)
    | ret => x.returns k ret
  else
    match ret with
    | .success => x.goes k (.scanning c)
    | ret => x.returns k ret

def Vacant (i : SelectInfo K n) : Prop :=
  match i.selector with
  | none => True
  | some k => i.thread = false ∧ (x.selector k).state = .completed

instance (i : SelectInfo K n) : Decidable (x.Vacant i) := by
  unfold Vacant
  split <;> infer_instance

def emptyRecord (u : U) : Option SlotIndex :=
  (List.finRange uxioMaxSelectCount).find? fun s => x.Vacant ((x.io u).activeSelects s)

def evict (u : U) (s : SlotIndex) : Selects K U P n :=
  match ((x.io u).activeSelects s).selector with
  | none => x
  | some k => x.references k (-1)

def occupy (u : U) (s : SlotIndex) (k : K) (v : Visit n) (wait : Bool) : Selects K U P n :=
  ((x.evict u s).slots u s ⟨some k, v, wait, false⟩).references k 1

def uxSelectOne (k : K) (c : Scan n) (v : Visit n) (u : U) (wait : Bool) : Selects K U P n :=
  if (x.io u).selectState v.1 ≠ .succeeded ∧ c.localOnly then x.back k c v .ioWouldWait
  else
    match x.emptyRecord u with
    | none => x.back k c v .resourceExhausted
    | some s =>
      let y := x.occupy u s k v wait
      match (x.io u).selectState v.1 with
      | .succeeded => y.goes k (.completing c v u s .success false)
      | .requested => y.back k c v .success
      | .nothing =>
        ((y.notes u v.1 .requested).slots u s ⟨some k, v, wait, true⟩).goes k (.probing c v u s wait)

def uxSelectOneDone (u : U) (s : SlotIndex) (holder : K ⊕ P) (prober : Bool) : Selects K U P n :=
  let i := ((x.io u).activeSelects s).visit.1
  x.turns u { x.io u with
    selectState := update (x.io u).selectState i .succeeded
    sweep := some ⟨holder, i, 0, 0⟩
    owed := if prober then update (x.io u).owed i true else (x.io u).owed }

def sweepSlot (u : U) (w : Sweep K P) (s : SlotIndex) : Selects K U P n :=
  let i := (x.io u).activeSelects s
  let w' := { w with next := w.next + 1 }
  match i.selector with
  | none => x.turns u { x.io u with sweep := some w' }
  | some k =>
    if i.visit.1 = w.type then
      let r := (x.selector k).signal i.visit
      ((x.sets k r.2).references k (-1)).turns u { x.io u with
        activeSelects := update (x.io u).activeSelects s { i with selector := none }
        sweep := some { w' with countSignaled := w.countSignaled + r.1.toNat } }
    else x.turns u { x.io u with sweep := some w' }

def resume (holder : K ⊕ P) : Selects K U P n :=
  match holder with
  | .inl k =>
    match x.phase k with
    | .finishing c v _ _ ret => x.back k c v ret
    | _ => x
  | .inr p => x.probes p .gone

def sweepEnds (u : U) (w : Sweep K P) : Selects K U P n :=
  let y := x.io u
  (if 0 < w.countSignaled then
    x.turns u { y with
      selectState := update y.selectState w.type .nothing
      sweep := none
      owed := update y.owed w.type false }
  else x.turns u { y with sweep := none }).resume w.holder

def uxRead (u : U) (consumes : Bool) : Selects K U P n :=
  if (x.io u).selectState .read = .succeeded then
    x.turns u { x.io u with
      selectState := update (x.io u).selectState .read .nothing
      owed := if consumes then update (x.io u).owed .read false else (x.io u).owed }
  else x

def visitStep (k : K) (entry : Option U) (wait : Bool) : SelectPhase U n → Option (Selects K U P n)
  | .scanning ⟨localOnly, v :: rest, found⟩ =>
    let y := x.sets k { x.selector k with looked := insert v (x.selector k).looked }
    match entry with
    | none => some (y.returns k .badFd)
    | some u =>
      if (x.io u).sweep.isSome then none else some (y.uxSelectOne k ⟨localOnly, rest, found⟩ v u wait)
  | _ => none

def passStep (k : K) (port : Bool) : SelectPhase U n → Option (Selects K U P n)
  | .scanning ⟨true, [], true⟩ => some (x.finish k)
  | .scanning ⟨true, [], false⟩ =>
    let rest := Uxselect.looks (x.selector k).nFds (x.selector k).selectedFds
    if rest = [] then some (x.returns k .noFds)
    else if (x.selector k).timed && !port then some (x.returns k .noPort)
    else some (x.goes k (.scanning ⟨false, rest, false⟩))
  | .scanning ⟨false, [], _⟩ => some (x.goes k .settling)
  | _ => none

def attemptStep (k : K) (p : P) (ret : SelRet) : SelectPhase U n → Option (Selects K U P n)
  | .probing c v u s true =>
    match x.prober p with
    | .unborn => some ((x.probes p (.started u s k v)).goes k (.storing c u s))
    | _ => none
  | .probing c v u s false => some (x.goes k (.completing c v u s ret true))
  | _ => none

def storeStep (k : K) : SelectPhase U n → Option (Selects K U P n)
  | .storing c u s =>
    some ((x.slots u s { (x.io u).activeSelects s with thread := true }).goes k (.scanning c))
  | _ => none

def completeStep (k : K) : SelectPhase U n → Option (Selects K U P n)
  | .completing c v u s ret prober =>
    if (x.io u).sweep.isSome then none
    else some ((x.uxSelectOneDone u s (.inl k) prober).goes k (.finishing c v u s ret))
  | _ => none

def settleStep (k : K) (msg : MsgRet) : SelectPhase U n → Option (Selects K U P n)
  | .settling =>
    if (x.selector k).timed then
      match msg with
      | .interrupted => some (x.abandon k .exceptSoftware)
      | .timedOut =>
        if 0 < (x.selector k).countFoundFds then some (x.finish k) else some (x.abandon k .timeout)
      | .received | .failed => some (x.finish k)
    else if (x.selector k).state = .new then
      some ((x.sets k { x.selector k with state := .waiting }).goes k .blocked)
    else some (x.finish k)
  | _ => none

def wakeStep (k : K) (interrupted : Bool) : SelectPhase U n → Option (Selects K U P n)
  | .blocked =>
    if interrupted then some (x.abandon k .exceptSoftware)
    else if (x.selector k).state = .waiting then none
    else some (x.finish k)
  | _ => none

def next (x : Selects K U P n) : SelectEvent K U P n → Option (Selects K U P n)
  | .start k nfds given timed =>
    match x.phase k with
    | .unborn =>
      let y := Uxselect.create nfds given timed
      some ((x.sets k y).goes k (.scanning ⟨true, Uxselect.looks nfds y.selectedFds, false⟩))
    | _ => none
  | .visit k entry wait => x.visitStep k entry wait (x.phase k)
  | .pass k port => x.passStep k port (x.phase k)
  | .attempt k p ret => x.attemptStep k p ret (x.phase k)
  | .store k => x.storeStep k (x.phase k)
  | .complete k => x.completeStep k (x.phase k)
  | .settle k msg => x.settleStep k msg (x.phase k)
  | .wake k interrupted => x.wakeStep k interrupted (x.phase k)
  | .begin p =>
    match x.prober p with
    | .started u s k v =>
      let i := (x.io u).activeSelects s
      some (x.probes p (.probing u s k v i.visit.1 i.wait))
    | _ => none
  | .report p =>
    match x.prober p with
    | .probing u s _ _ _ _ =>
      if (x.io u).sweep.isSome then none
      else some ((x.uxSelectOneDone u s (.inr p) true).probes p (.finishing u))
    | _ => none
  | .sweep u =>
    match (x.io u).sweep with
    | none => none
    | some w =>
      if h : w.next < uxioMaxSelectCount then some (x.sweepSlot u w ⟨w.next, h⟩)
      else some (x.sweepEnds u w)
  | .read u consumes => some (x.uxRead u consumes)

end Selects

end MachUS.Ux
