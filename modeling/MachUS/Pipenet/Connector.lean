import MachUS.Foundation.LinkRing
import MachUS.Foundation.Transition

namespace MachUS.Pipenet

open Function

inductive Code where
  | success
  | objectNotStarted
  | objectNotFound
  | objectBusy
  | connectionRefused
  | exceptSoftware
  | invalidBufferSize
  | invalidMode
  | invalidArgs
  | unsupported
  | internalError
  | other (code : ℕ)
  deriving DecidableEq

inductive ConninfoState where
  | initial
  | listening
  | accepting
  | accepted
  | rejected
  deriving DecidableEq

abbrev Bytes := List UInt8

structure Conninfo where
  state : ConninfoState
  activeAddr : Bytes
  options : Bytes
  inUdata : Bytes
  outUdata : Bytes
  outUdatalen : ℕ
  passiveProt : Bytes
  seqno : UInt32
  error : Code

abbrev Node := Option ℕ

structure Ledger where
  entries : ℕ
  removals : ℕ
  outcomes : List Code
  notices : ℕ
  deriving DecidableEq

structure Report where
  node : Node
  code : Code

structure Accept where
  seqno : UInt32
  options : Bytes
  udata : Bytes
  prot : Bytes
  access : ℕ

inductive Call where
  | netConnect (localaddr options udata : Bytes) (outUdatalen access : ℕ)
  | netListen (mode : UInt32) (udatalen : ℕ)
  | netAccept (a : Accept)
  | netReject (seqno : UInt32) (udata : Bytes)
  | netSetConnectQmax (qmax : ℤ)

inductive Section where
  | enqueue (n : Node)
  | await (n : Node) (interrupted : Bool)
  | listen (mode : UInt32) (udatalen : ℕ) (interrupted : Bool)
  | accept (a : Accept)
  | abortWakeup (n : Node) (code : Code)
  | conclude (n : Node)
  | reject (seqno : UInt32) (udata : Bytes)
  | setQmax (qmax : ℤ)
  | trim (gone : List Node)

def Section.resumed (interrupted : Bool) : Section → Section
  | .await n _ => .await n interrupted
  | .listen mode udatalen _ => .listen mode udatalen interrupted
  | s => s

inductive Phase where
  | idle
  | entering (s : Section)
  | inside (s : Section)
  | asleep (s : Section)
  | requesting (n : Node)
  | announcing (n : Node)
  | leaving (n : Node)
  | committed (n : Node) (a : Accept)
  | settingUp (n : Node)
  | credentials (n : Node)
  | creating (n : Node)
  | signalling (n : Node) (code : Code)
  | refusing (n : Node) (gone : List Node)
  | refused (n : Node) (gone : List Node)
  | rousing (n : Node) (gone : List Node)

inductive Answer where
  | nothing
  | code (c : Code)
  | heard (c : Code) (udatalen : ℕ) (request : Option (Bytes × Bytes × Bytes × UInt32))

structure Outside where
  interrupted : Bool
  code : Code

inductive Event (T : Type) where
  | call (t : T) (c : Call)
  | lock (t : T)
  | act (t : T) (o : Outside)
  | wake (t : T) (interrupted : Bool)

structure Connector (T : Type) where
  lock : Option T
  queue : LinkRing Node
  qsize : ℤ
  qmax : ℤ
  seqnoSeed : UInt32
  record : Node → Conninfo
  phase : T → Phase
  answer : T → Answer
  frames : ℕ
  live : Node → Bool
  ledger : Node → Ledger
  reports : List Report
  strays : ℕ
  misreleases : ℕ

def iomWait : UInt32 := 0x1

namespace Connector

variable {T : Type}

def create (qlen : ℤ) (chains : LinkRing Node) (memory : Node → Conninfo) : Connector T where
  lock := none
  queue := chains.init none
  qsize := 0
  qmax := qlen
  seqnoSeed := 1
  record := memory
  phase := fun _ => .idle
  answer := fun _ => .nothing
  frames := 0
  live := fun _ => false
  ledger := fun _ => ⟨0, 0, [], 0⟩
  reports := []
  strays := 0
  misreleases := 0

section Records

variable (x : Connector T)

def first : Node := x.queue.next none

def touch (n : Node) : Connector T :=
  { x with strays := x.strays + if x.live n then 0 else 1 }

def write (n : Node) (f : Conninfo → Conninfo) : Connector T :=
  { x with record := update x.record n (f (x.record n)) }

def book (n : Node) (f : Ledger → Ledger) : Connector T :=
  { x with ledger := update x.ledger n (f (x.ledger n)) }

def enter (n : Node) : Connector T :=
  { x.book n fun k => { k with entries := k.entries + 1 } with
    queue := x.queue.enter none n
    qsize := x.qsize + 1 }

def remove (n : Node) : Connector T :=
  { x.book n fun k => { k with removals := k.removals + 1 } with
    queue := x.queue.remove n
    qsize := x.qsize - 1 }

def settle (n : Node) (code : Code) : Connector T :=
  (x.write n fun i => { i with error := code }).book n
    fun k => { k with outcomes := k.outcomes ++ [code] }

def notify (n : Node) : Connector T := x.book n fun k => { k with notices := k.notices + 1 }

def report (n : Node) (code : Code) : Connector T := { x with reports := ⟨n, code⟩ :: x.reports }

def reportAll (gone : List Node) : Connector T :=
  { x with reports := gone.map (⟨·, .success⟩) ++ x.reports }

end Records

variable [DecidableEq T] (x : Connector T)

def goes (t : T) (p : Phase) : Connector T := { x with phase := update x.phase t p }

def unlock (t : T) : Connector T :=
  { x with lock := none, misreleases := x.misreleases + if x.lock = some t then 0 else 1 }

def returns (t : T) (a : Answer) : Connector T :=
  { x with
    phase := update x.phase t .idle
    answer := update x.answer t a }

def wait (t : T) (s : Section) (o : Outside) : Connector T :=
  if o.interrupted then x.goes t (.inside (s.resumed true))
  else (x.unlock t).goes t (.asleep s)

def netConnect (t : T) (localaddr options udata : Bytes) (outUdatalen access : ℕ) : Connector T :=
  if access = 0 then x.returns t (.code .unsupported)
  else
    { x.goes t (.requesting (some x.frames)) with
      frames := x.frames + 1
      live := update x.live (some x.frames) true
      record := update x.record (some x.frames)
        ⟨.initial, localaddr, options, udata, [], outUdatalen, [], 0, .success⟩ }

def netListen (t : T) (mode : UInt32) (udatalen : ℕ) : Connector T :=
  if mode &&& ~~~iomWait ≠ 0 then x.returns t (.code .invalidMode)
  else x.goes t (.entering (.listen mode udatalen false))

def netAccept (t : T) (a : Accept) : Connector T :=
  if a.access = 0 then x.returns t (.code .unsupported) else x.goes t (.entering (.accept a))

def netReject (t : T) (seqno : UInt32) (udata : Bytes) : Connector T :=
  x.goes t (.entering (.reject seqno udata))

def netSetConnectQmax (t : T) (qmax : ℤ) : Connector T :=
  if x.qmax < 0 then x.returns t (.code .invalidArgs) else x.goes t (.entering (.setQmax qmax))

def start (t : T) : Call → Connector T
  | .netConnect localaddr options udata outUdatalen access =>
    x.netConnect t localaddr options udata outUdatalen access
  | .netListen mode udatalen => x.netListen t mode udatalen
  | .netAccept a => x.netAccept t a
  | .netReject seqno udata => x.netReject t seqno udata
  | .netSetConnectQmax qmax => x.netSetConnectQmax t qmax

def enqueue (t : T) (n : Node) : Connector T :=
  if x.qmax ≤ x.qsize then
    ((x.unlock t).write n fun i => { i with outUdatalen := 0 }).goes t (.leaving n)
  else
    let y := x.write n fun i =>
      { i with state := .listening, seqno := x.seqnoSeed, error := .objectNotStarted }
    ({ y.enter n with seqnoSeed := x.seqnoSeed + 1 }.unlock t).goes t (.announcing n)

def withdraw (t : T) (n : Node) : Connector T :=
  ((((x.remove n).settle n .exceptSoftware).notify n).unlock t).goes t (.leaving n)

def await (t : T) (n : Node) (interrupted : Bool) (o : Outside) : Connector T :=
  if (x.record n).error = .objectNotStarted then
    if interrupted then x.withdraw t n else x.wait t (.await n false) o
  else (x.unlock t).goes t (.leaving n)

def listenFirst (t : T) (udatalen : ℕ) : Connector T :=
  let i := x.record x.first
  let a : Answer :=
    if i.inUdata.length < udatalen then .heard .invalidBufferSize i.inUdata.length none
    else .heard .success i.inUdata.length (some (i.activeAddr, i.options, i.inUdata, i.seqno))
  ((x.touch x.first).unlock t).returns t a

def listen (t : T) (mode : UInt32) (udatalen : ℕ) (interrupted : Bool) (o : Outside) :
    Connector T :=
  if interrupted then (x.unlock t).returns t (.code .exceptSoftware)
  else if x.qsize = 0 then
    if mode &&& iomWait = 0 then (x.unlock t).returns t (.code .objectBusy)
    else x.wait t (.listen mode udatalen false) o
  else x.listenFirst t udatalen

def claim (t : T) (seqno : UInt32) (udata : Bytes) (commit : Connector T → Node → Connector T) :
    Connector T :=
  if x.qsize = 0 then (x.unlock t).returns t (.code .objectNotFound)
  else
    let y := x.touch x.first
    let i := x.record x.first
    if i.seqno ≠ seqno then (y.unlock t).returns t (.code .objectNotFound)
    else if i.outUdatalen < udata.length then (y.unlock t).returns t (.code .invalidBufferSize)
    else commit (y.remove x.first) x.first

def accept (t : T) (a : Accept) : Connector T :=
  x.claim t a.seqno a.udata fun y n => (y.unlock t).goes t (.committed n a)

def reject (t : T) (seqno : UInt32) (udata : Bytes) : Connector T :=
  x.claim t seqno udata fun y n =>
    let z := y.write n fun i =>
      { i with outUdata := udata, outUdatalen := udata.length, state := .rejected }
    ((z.settle n .connectionRefused).unlock t).goes t (.signalling n .success)

def abortWakeup (t : T) (n : Node) (code : Code) : Connector T :=
  let y := (x.touch n).write n fun i => { i with state := .rejected, outUdatalen := 0 }
  ((y.settle n code).unlock t).goes t (.signalling n code)

def conclude (t : T) (n : Node) : Connector T :=
  let y := (x.touch n).write n fun i => { i with state := .accepted }
  ((y.settle n .success).unlock t).goes t (.signalling n .success)

def trim (t : T) (gone : List Node) : Connector T :=
  if x.qmax < x.qsize then
    (((x.touch x.first).remove x.first).unlock t).goes t (.refusing x.first gone)
  else ((x.unlock t).reportAll gone).returns t (.code .success)

def setQmax (t : T) (qmax : ℤ) : Connector T := { x with qmax := qmax }.trim t []

def perform (t : T) (o : Outside) : Section → Connector T
  | .enqueue n => x.enqueue t n
  | .await n interrupted => x.await t n interrupted o
  | .listen mode udatalen interrupted => x.listen t mode udatalen interrupted o
  | .accept a => x.accept t a
  | .abortWakeup n code => x.abortWakeup t n code
  | .conclude n => x.conclude t n
  | .reject seqno udata => x.reject t seqno udata
  | .setQmax qmax => x.setQmax t qmax
  | .trim gone => x.trim t gone

def request (t : T) (n : Node) (code : Code) : Connector T :=
  x.goes t (if code = .success then .entering (.enqueue n) else .leaving n)

def fillIn (t : T) (n : Node) (a : Accept) : Connector T :=
  let y := (x.touch n).write n fun i =>
    { i with
      options := a.options
      outUdata := a.udata
      outUdatalen := a.udata.length
      passiveProt := a.prot
      state := .accepting }
  y.goes t (.settingUp n)

def setUp (t : T) (n : Node) (code : Code) : Connector T :=
  (x.touch n).goes t
    (if code = .success then .credentials n else .entering (.abortWakeup n code))

def getCredentials (t : T) (n : Node) (code : Code) : Connector T :=
  if code = .success then x.goes t (.creating n)
  else ((x.unlock t).report n .internalError).returns t (.code .internalError)

def createAgent (t : T) (n : Node) (code : Code) : Connector T :=
  (x.touch n).goes t
    (.entering (if code = .success then .conclude n else .abortWakeup n code))

def signal (t : T) (n : Node) (code : Code) : Connector T :=
  (((x.touch n).notify n).report n code).returns t (.code code)

def refuse (t : T) (n : Node) (gone : List Node) : Connector T :=
  let y := (x.touch n).write n fun i => { i with outUdatalen := 0 }
  (y.settle n .connectionRefused).goes t (.refused n gone)

def markRefused (t : T) (n : Node) (gone : List Node) : Connector T :=
  ((x.touch n).write n fun i => { i with state := .rejected }).goes t (.rousing n gone)

def rouse (t : T) (n : Node) (gone : List Node) : Connector T :=
  ((x.touch n).notify n).goes t (.entering (.trim (n :: gone)))

def leave (t : T) (n : Node) : Connector T :=
  { x.goes t .idle with live := update x.live n false }

def act (t : T) (o : Outside) : Phase → Option (Connector T)
  | .inside s => some (x.perform t o s)
  | .requesting n => some (x.request t n o.code)
  | .announcing n => some (x.goes t (.entering (.await n false)))
  | .leaving n => some (x.leave t n)
  | .committed n a => some (x.fillIn t n a)
  | .settingUp n => some (x.setUp t n o.code)
  | .credentials n => some (x.getCredentials t n o.code)
  | .creating n => some (x.createAgent t n o.code)
  | .signalling n code => some (x.signal t n code)
  | .refusing n gone => some (x.refuse t n gone)
  | .refused n gone => some (x.markRefused t n gone)
  | .rousing n gone => some (x.rouse t n gone)
  | .idle | .entering _ | .asleep _ => none

def next : Event T → Option (Connector T)
  | .call t c =>
    match x.phase t with
    | .idle => some (x.start t c)
    | _ => none
  | .lock t =>
    match x.phase t, x.lock with
    | .entering s, none => some { x.goes t (.inside s) with lock := some t }
    | _, _ => none
  | .act t o => x.act t o (x.phase t)
  | .wake t interrupted =>
    match x.phase t with
    | .asleep s => some (x.goes t (.entering (s.resumed interrupted)))
    | _ => none

end Connector

end MachUS.Pipenet

namespace MachUS.Pipenet

inductive Stage where
  | outside
  | waiting
  | taken
  | answered (code : Code)
  | settled (code : Code)

inductive Standing where
  | outside
  | waits
  | leaves

inductive Progress where
  | works
  | tells (code : Code)

namespace Stage

def ledger : Stage → Ledger
  | .outside => ⟨0, 0, [], 0⟩
  | .waiting => ⟨1, 0, [], 0⟩
  | .taken => ⟨1, 1, [], 0⟩
  | .answered code => ⟨1, 1, [code], 0⟩
  | .settled code => ⟨1, 1, [code], 1⟩

def Open : Stage → Prop
  | .outside | .settled _ => False
  | .waiting | .taken | .answered _ => True

def Pending : Stage → Prop
  | .waiting | .taken => True
  | .outside | .answered _ | .settled _ => False

def Held : Stage → Prop
  | .taken | .answered _ => True
  | .outside | .waiting | .settled _ => False

inductive Advance : Stage → Stage → Prop where
  | take : Advance .waiting .taken
  | withdraw (code : Code) : Advance .waiting (.settled code)
  | answer (code : Code) : Advance .taken (.answered code)
  | refuse (code : Code) : Advance .waiting (.answered code)
  | settle (code : Code) : Advance (.answered code) (.settled code)

end Stage

def Standing.Allows : Standing → Stage → Prop
  | .outside, s => s = .outside
  | .waits, s => s ≠ .outside
  | .leaves, s => ¬s.Pending

def Progress.Allows : Progress → Stage → Prop
  | .works, s => s = .taken
  | .tells code, s => ∃ c, s = .answered c ∧ (c = .success → code = .success)

namespace Section

def owned : Section → Option (Node × Standing)
  | .enqueue n => some (n, .outside)
  | .await n _ => some (n, .waits)
  | _ => none

def task : Section → Option (Node × Progress)
  | .abortWakeup n _ | .conclude n => some (n, .works)
  | _ => none

def gone : Section → List Node
  | .trim gone => gone
  | _ => []

def Shrinks : Section → Prop
  | .trim _ => True
  | _ => False

end Section

namespace Phase

def owned : Phase → Option (Node × Standing)
  | .entering s | .inside s | .asleep s => s.owned
  | .requesting n => some (n, .outside)
  | .announcing n => some (n, .waits)
  | .leaving n => some (n, .leaves)
  | _ => none

def task : Phase → Option (Node × Progress)
  | .entering s | .inside s | .asleep s => s.task
  | .committed n _ | .settingUp n | .credentials n | .creating n | .refusing n _ => some (n, .works)
  | .signalling n code => some (n, .tells code)
  | .refused n _ | .rousing n _ => some (n, .tells .success)
  | _ => none

def gone : Phase → List Node
  | .entering s | .inside s | .asleep s => s.gone
  | .refusing _ gone | .refused _ gone | .rousing _ gone => gone
  | _ => []

def Shrinks : Phase → Prop
  | .entering s | .inside s | .asleep s => s.Shrinks
  | .refusing _ _ | .refused _ _ | .rousing _ _ => True
  | _ => False

def Resizes (p : Phase) (q : ℤ) : Prop :=
  p = .entering (.setQmax q) ∨ p = .inside (.setQmax q) ∨ p = .asleep (.setQmax q)

def Fresh (frames : ℕ) : Node → Prop
  | none => True
  | some k => frames ≤ k

structure Fits (p : Phase) (stage : Node → Stage) : Prop where
  owned : ∀ n s, p.owned = some (n, s) → s.Allows (stage n)
  task : ∀ n g, p.task = some (n, g) → g.Allows (stage n)
  gone : ∀ n ∈ p.gone, ∃ c, stage n = .settled c

end Phase

namespace Connector

variable {T : Type}

structure Books (x : Connector T) (stage : Node → Stage) (l : List Node) : Prop where
  ledger : ∀ n, x.ledger n = (stage n).ledger
  live : ∀ n, (stage n).Open → x.live n = true
  error : ∀ n, (stage n).Pending → (x.record n).error = .objectNotStarted
  queue : x.queue.Holds none l
  qsize : x.qsize = l.length
  waiting : ∀ n, n ∈ l ↔ stage n = .waiting

structure Roles (x : Connector T) (stage : Node → Stage) : Prop where
  fits : ∀ t, (x.phase t).Fits stage
  owner : ∀ t u n s s', (x.phase t).owned = some (n, s) → (x.phase u).owned = some (n, s') → t = u
  worker : ∀ t u n g g', (x.phase t).task = some (n, g) → (x.phase u).task = some (n, g') → t = u
  worked : ∀ n, (stage n).Held → ∃ t g, (x.phase t).task = some (n, g)
  present : ∀ t n s, (x.phase t).owned = some (n, s) → x.live n = true
  fresh : ∀ n, Phase.Fresh x.frames n →
    stage n = .outside ∧ ∀ t s, (x.phase t).owned ≠ some (n, s)

structure Limits (x : Connector T) : Prop where
  asked : ∀ t q, (x.phase t).Resizes q → 0 ≤ q ∧ 0 ≤ x.qmax
  shrinking : ∀ t, (x.phase t).Shrinks → 0 ≤ x.qmax
  bound : x.qmax < 0 ∨ x.qsize ≤ x.qmax ∨ ∃ t, (x.phase t).Shrinks

structure Clean (x : Connector T) (stage : Node → Stage) : Prop where
  lock : ∀ t s, x.phase t = .inside s → x.lock = some t
  reports : ∀ r ∈ x.reports, ∃ c, stage r.node = .settled c ∧ (c = .success → r.code = .success)
  strays : x.strays = 0
  misreleases : x.misreleases = 0

structure Kept (x : Connector T) (stage : Node → Stage) (l : List Node) : Prop where
  books : x.Books stage l
  roles : x.Roles stage
  limits : x.Limits
  clean : x.Clean stage

def Inv (x : Connector T) : Prop := ∃ stage l, x.Kept stage l

-- An interrupt that ends the wait finds the request still queued; get_cred_obj works; a
-- connector whose qmax is not negative is given none; no owner goes before it is signalled.
def Orderly (x : Connector T) : Event T → Prop
  | .call _ (.netSetConnectQmax qmax) => 0 ≤ x.qmax → 0 ≤ qmax
  | .call _ _ => True
  | .act t o =>
    match x.phase t with
    | .inside (.await n true) =>
      (x.record n).error = .objectNotStarted → (x.ledger n).removals = 0
    | .credentials _ => o.code = .success
    | .leaving n => (x.ledger n).outcomes ≠ [] → (x.ledger n).notices ≠ 0
    | _ => True
  | .lock _ => True
  | .wake _ _ => True

structure Sound (x : Connector T) : Prop where
  queue : ∃ l, x.queue.Holds none l ∧ x.qsize = l.length ∧
    ∀ n, n ∈ l ↔ (x.ledger n).entries = 1 ∧ (x.ledger n).removals = 0
  live : ∀ n, (x.ledger n).entries = 1 → (x.ledger n).notices = 0 → x.live n = true
  bound : (∀ t, ¬(x.phase t).Shrinks) → 0 ≤ x.qmax → x.qsize ≤ x.qmax
  once : ∀ n, (x.ledger n).entries ≤ 1 ∧ (x.ledger n).removals ≤ (x.ledger n).entries ∧
    (x.ledger n).outcomes.length ≤ (x.ledger n).removals ∧
    (x.live n = false → (x.ledger n).removals = (x.ledger n).entries)
  answered : ∀ n, (x.ledger n).removals = 1 → (∃ t g, (x.phase t).task = some (n, g)) ∨
    ∃ c, (x.ledger n).outcomes = [c] ∧ (x.ledger n).notices = 1
  reports : ∀ r ∈ x.reports, ∃ c, (x.ledger r.node).removals = 1 ∧
    (x.ledger r.node).outcomes = [c] ∧ (x.ledger r.node).notices = 1 ∧
    (c = .success → r.code = .success)
  strays : x.strays = 0
  misreleases : x.misreleases = 0

end Connector

end MachUS.Pipenet
