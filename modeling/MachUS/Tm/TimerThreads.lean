import MachUS.Foundation.LinkRing
import MachUS.Foundation.Transition

namespace MachUS.Tm

open Function

structure TimeValue where
  seconds : ℤ
  microseconds : ℤ
  deriving DecidableEq

def timeMicrosMax : ℤ := 1000000

def timerMaxsec : ℤ := 100000000

def tick : ℤ := 1000

def timerInvalidId : ℤ := 0

namespace TimeValue

def clear : TimeValue := ⟨0, 0⟩

def cmp (r : ℤ → ℤ → Bool) (t u : TimeValue) : Bool :=
  r t.seconds u.seconds || (t.seconds = u.seconds && r t.microseconds u.microseconds)

def later : TimeValue → TimeValue → Bool := cmp (fun a b => a > b)

def earlier : TimeValue → TimeValue → Bool := cmp (fun a b => a < b)

def isSet (t : TimeValue) : Bool := t.seconds ≠ 0 || t.microseconds ≠ 0

def fix (t : TimeValue) : Option TimeValue :=
  if t.seconds < 0 ∨ t.seconds > timerMaxsec ∨ t.microseconds < 0 ∨
      t.microseconds ≥ timeMicrosMax then none
  else if t.seconds = 0 ∧ t.microseconds > 0 ∧ t.microseconds < tick then
    some { t with microseconds := tick }
  else some t

def relToAbs (t : TimeValue) : Option TimeValue → TimeValue
  | none => t
  | some now =>
    let seconds := (t.seconds + now.seconds).bmod (2 ^ 32)
    let microseconds := (t.microseconds + now.microseconds).bmod (2 ^ 32)
    if microseconds ≥ timeMicrosMax then
      ⟨(seconds + 1).bmod (2 ^ 32), microseconds - timeMicrosMax⟩
    else ⟨seconds, microseconds⟩

def absToRel (t : TimeValue) : Option TimeValue → TimeValue
  | none => t
  | some now =>
    let seconds := (t.seconds - now.seconds).bmod (2 ^ 32)
    let microseconds := (t.microseconds - now.microseconds).bmod (2 ^ 32)
    if microseconds < 0 then ⟨(seconds - 1).bmod (2 ^ 32), microseconds + timeMicrosMax⟩
    else ⟨seconds, microseconds⟩

end TimeValue

structure TimerValue where
  interval : TimeValue
  time : TimeValue
  deriving DecidableEq

structure Timer (Task : Type) where
  task : Task
  id : ℤ
  value : TimerValue
  event : ℤ
  code : ℤ
  subcode : ℤ

structure TimerQueue (Task : Type) where
  ring : LinkRing (Option ℕ)
  timer : ℕ → Timer Task
  freed : ℕ → Bool
  made : ℕ
  timerId : ℤ
  up : Bool
  bad : Bool

namespace TimerQueue

variable {Task : Type} (q : TimerQueue Task)

def init (garbage : ℕ → Timer Task) : TimerQueue Task :=
  ⟨LinkRing.init ⟨id, id⟩ none, garbage, fun _ => false, 0, timerInvalidId, true, false⟩

def isFreed : Option ℕ → Bool
  | none => false
  | some r => q.freed r

def access (nodes : List (Option ℕ)) : TimerQueue Task :=
  { q with bad := q.bad || nodes.any q.isFreed }

def first : Option ℕ := q.ring.next none

def dllRemove (r : ℕ) : TimerQueue Task :=
  { q.access [some r, q.ring.next (some r), q.ring.prev (some r)] with
    ring := q.ring.remove (some r) }

def dllEnter (node : Option ℕ) (r : ℕ) : TimerQueue Task :=
  { q.access [node, some r, if q.ring.next node = node then node else q.ring.prev node] with
    ring := q.ring.enter node (some r) }

def dllEnterFirst (r : ℕ) : TimerQueue Task :=
  { q.access [some r, q.first] with ring := q.ring.enterFirst none (some r) }

def release (r : ℕ) : TimerQueue Task :=
  { q.access [some r] with freed := update q.freed r true }

def write (r : ℕ) (x : Timer Task) : TimerQueue Task :=
  { q.access [some r] with timer := update q.timer r x }

def newId : ℤ := if q.timerId = timerInvalidId then (q.timerId + 1).bmod (2 ^ 32) else q.timerId

def malloc (t : Task) : TimerQueue Task :=
  { q with
    timer := update q.timer q.made { q.timer q.made with task := t, id := q.newId }
    made := q.made + 1
    timerId := (q.newId + 1).bmod (2 ^ 32) }

def findFrom [DecidableEq Task] (t : Task) (id : ℤ) :
    ℕ → Option ℕ → TimerQueue Task → Option (TimerQueue Task × Option ℕ)
  | _, none, q => some (q, none)
  | 0, some _, _ => none
  | fuel + 1, some r, q =>
    let q := q.access [some r]
    if (q.timer r).task = t ∧ (q.timer r).id = id then some (q, some r)
    else findFrom t id fuel (q.ring.next (some r)) q

def find [DecidableEq Task] (t : Task) (id : ℤ) : Option (TimerQueue Task × Option ℕ) :=
  findFrom t id q.made q.first q

def insertFrom (r : ℕ) : ℕ → Option ℕ → TimerQueue Task → Option (TimerQueue Task)
  | _, none, q => some (q.dllEnter none r)
  | 0, some _, _ => none
  | fuel + 1, some cur, q =>
    let q := q.access [some cur, some r]
    if (q.timer cur).value.time.later (q.timer r).value.time then
      if q.ring.prev (some cur) = none then some (q.dllEnterFirst r)
      else some (q.dllEnter (some cur) r)
    else insertFrom r fuel (q.ring.next (some cur)) q

def insert (r : ℕ) : Option (TimerQueue Task) := insertFrom r q.made q.first q

def sweepFrom (p : Timer Task → Bool) : ℕ → Option ℕ → TimerQueue Task → Option (TimerQueue Task)
  | _, none, q => some q
  | 0, some _, _ => none
  | fuel + 1, some r, q =>
    let q := q.access [some r]
    let q := if p (q.timer r) then (q.dllRemove r).release r else q
    let q := q.access [some r]
    sweepFrom p fuel (q.ring.next (some r)) q

def sweep (p : Timer Task → Bool) : Option (TimerQueue Task) := sweepFrom p q.made q.first q

end TimerQueue

structure TimerArgs where
  event : ℤ
  code : ℤ
  subcode : ℤ
  id : ℤ
  value : TimerValue

def TimerArgs.fix (a : TimerArgs) : Option TimerArgs :=
  match a.value.time.fix, a.value.interval.fix with
  | some time, some interval => some { a with value := ⟨interval, time⟩ }
  | _, _ => none

inductive TimerCode where
  | success
  | invalidArgs
  | objectNotFound
  | resourceExhausted
  | invalidTask
  deriving DecidableEq

structure TimerReturn where
  code : TimerCode
  id : Option ℤ
  value : Option TimerValue
  deriving DecidableEq

namespace TimerReturn

def plain (code : TimerCode) : TimerReturn := ⟨code, none, none⟩

def notFound : TimerReturn := ⟨.objectNotFound, none, some ⟨.clear, .clear⟩⟩

def read (v : TimerValue) (now : Option TimeValue) : TimerReturn :=
  ⟨.success, none, some { v with time := v.time.absToRel now }⟩

end TimerReturn

inductive ClientPhase (Task : Type) where
  | idle (last : TimerReturn)
  | setFound (t : Task) (args : TimerArgs) (found : Option ℕ) (late : Bool)
  | setHolds (r : ℕ) (args : TimerArgs)
  | setFilled (r : ℕ) (id : ℤ)
  | getFound (r : ℕ)
  | deleteFound (r : ℕ)
  | deleteHolds (r : ℕ)
  | dying (t : Task)
  | goingDown

inductive ServerPhase where
  | top
  | peeked (r : ℕ)
  | waited (tv : TimeValue)
  | expired (r : ℕ)
  | requeue (r : ℕ)
  | returned

-- The marks wasted and late are for the record: of which tasks tm_task_death has returned, and
-- which records a tm_timer_set that began after that has made.
structure TimerState (Thread Task : Type) where
  q : TimerQueue Task
  client : Thread → ClientPhase Task
  server : ServerPhase
  dead : Task → Bool
  wasted : Task → Bool
  late : ℕ → Bool

inductive TimerCall (Task : Type) where
  | timerSet (t : Task) (args : TimerArgs)
  | timerGet (t : Task) (id : ℤ)
  | timerDelete (t : Task) (id : ℤ)
  | taskDeath (t : Task)
  | timerShutdown

inductive TimerEvent (Thread Task : Type) where
  | call (i : Thread) (c : TimerCall Task)
  | client (i : Thread) (memory : Bool) (now : Option TimeValue)
  | server (now : Option TimeValue)

namespace TimerState

variable {Thread Task : Type} [DecidableEq Thread] [DecidableEq Task] (s : TimerState Thread Task)

def init (garbage : ℕ → Timer Task) : TimerState Thread Task :=
  { q := .init garbage
    client := fun _ => .idle (.plain .success)
    server := .top
    dead := fun _ => false
    wasted := fun _ => false
    late := fun _ => false }

def clientAt (i : Thread) (phase : ClientPhase Task) : TimerState Thread Task :=
  { s with client := update s.client i phase }

def serverAt (phase : ServerPhase) : TimerState Thread Task := { s with server := phase }

def withQueue (q : TimerQueue Task) : TimerState Thread Task := { s with q := q }

def begin (i : Thread) : TimerCall Task → Option (TimerState Thread Task)
  | .timerSet t args =>
    match args.fix with
    | none => some (s.clientAt i (.idle (.plain .invalidArgs)))
    | some args =>
      (s.q.find t args.id).map fun (q, found) =>
        (s.withQueue q).clientAt i (.setFound t args found (s.wasted t))
  | .timerGet t id =>
    (s.q.find t id).map fun (q, found) =>
      (s.withQueue q).clientAt i (found.elim (.idle .notFound) .getFound)
  | .timerDelete t id =>
    (s.q.find t id).map fun (q, found) =>
      (s.withQueue q).clientAt i (found.elim (.idle .notFound) .deleteFound)
  | .taskDeath t =>
    if s.dead t then some (s.clientAt i (.idle (.plain .invalidTask)))
    else some { s.clientAt i (.dying t) with dead := update s.dead t true }
  | .timerShutdown =>
    if s.q.up then
      (s.q.sweep fun _ => true).map fun q => (s.withQueue q).clientAt i .goingDown
    else some (s.clientAt i (.idle (.plain .success)))

def goOn (i : Thread) (memory : Bool) (now : Option TimeValue) :
    ClientPhase Task → Option (TimerState Thread Task)
  | .idle _ => none
  | .setFound t args none late =>
    if memory then
      some { (s.withQueue (s.q.malloc t)).clientAt i
          (.setHolds s.q.made { args with id := s.q.newId }) with
        late := update s.late s.q.made late }
    else some (s.clientAt i (.idle (.plain .resourceExhausted)))
  | .setFound _ args (some r) _ =>
    some ((s.withQueue (s.q.dllRemove r)).clientAt i (.setHolds r args))
  | .setHolds r args =>
    let value := { args.value with time := args.value.time.relToAbs now }
    some ((s.withQueue (s.q.write r
      { s.q.timer r with
        value := value, event := args.event, code := args.code, subcode := args.subcode })).clientAt
      i (.setFilled r args.id))
  | .setFilled r id =>
    (s.q.insert r).map fun q => (s.withQueue q).clientAt i (.idle ⟨.success, some id, none⟩)
  | .getFound r =>
    some ((s.withQueue (s.q.access [some r])).clientAt i (.idle (.read (s.q.timer r).value now)))
  | .deleteFound r => some ((s.withQueue (s.q.dllRemove r)).clientAt i (.deleteHolds r))
  | .deleteHolds r =>
    some ((s.withQueue (s.q.release r)).clientAt i (.idle (.read (s.q.timer r).value now)))
  | .dying t =>
    (s.q.sweep fun x => x.task = t).map fun q =>
      { (s.withQueue q).clientAt i (.idle (.plain .success)) with
        wasted := update s.wasted t true }
  | .goingDown =>
    some ((s.withQueue { s.q with up := false }).clientAt i (.idle (.plain .success)))

def serve (now : Option TimeValue) : ServerPhase → Option (TimerState Thread Task)
  | .top =>
    if s.q.up then some (s.serverAt (s.q.first.elim .top .peeked))
    else some (s.serverAt .returned)
  | .peeked r =>
    some ((s.withQueue (s.q.access [some r])).serverAt
      (.waited ((s.q.timer r).value.time.absToRel now)))
  | .waited tv =>
    match s.q.first with
    | none => some (s.serverAt .top)
    | some r =>
      if (now.getD tv).earlier (s.q.timer r).value.time then
        some ((s.withQueue (s.q.access [some r])).serverAt .top)
      else some ((s.withQueue (s.q.dllRemove r)).serverAt (.expired r))
  | .expired r =>
    let x := s.q.timer r
    if x.value.interval.isSet then
      let value := { x.value with time := x.value.interval.relToAbs now }
      some ((s.withQueue (s.q.write r { x with value := value })).serverAt (.requeue r))
    else some ((s.withQueue (s.q.release r)).serverAt .top)
  | .requeue r => (s.q.insert r).map fun q => (s.withQueue q).serverAt .top
  | .returned => none

def next : TimerEvent Thread Task → Option (TimerState Thread Task)
  | .call i c =>
    match s.client i with
    | .idle _ => s.begin i c
    | _ => none
  | .client i memory now => s.goOn i memory now (s.client i)
  | .server now => s.serve now s.server

end TimerState

end MachUS.Tm
