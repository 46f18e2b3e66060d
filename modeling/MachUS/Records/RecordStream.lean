import MachUS.Io.ByteStream

namespace MachUS.Records

open Function

open Io (Addr Dlong iomProbe iomTruncate iomWait iosEnabled iosWaitAllowed)
open Io.Stream (invalidMode invalidStrategy minimum)

structure RecinfoOps (ι : Type) where
  initDefault : ι
  copy : ι → ι → ι
  size : ι → ℕ

structure Content (ι : Type) where
  blocks : List (List UInt8)
  infosize : ℕ
  recinfo : ι
  deriving DecidableEq

structure Record (ι : Type) extends Content ι where
  next : Option Addr

inductive Fault where
  | nullPointer
  | freedRecord
  | noBlock
  | endlessLoop
  deriving DecidableEq

inductive Code where
  | success
  | invalidMode
  | rejected
  | objectBusy
  | exceptSoftware
  | internalError
  | notEnoughData
  | invalidBufferSize
  | resourceExhausted
  | invalidStrategy
  deriving DecidableEq

variable {ι : Type}

abbrev Heap (ι : Type) := Addr → Option (Record ι)

def load (heap : Heap ι) : Option Addr → Except Fault (Addr × Record ι)
  | none => .error .nullPointer
  | some a =>
    match heap a with
    | none => .error .freedRecord
    | some r => .ok (a, r)

def setNext (heap : Heap ι) (rec nxtrec : Option Addr) : Except Fault (Heap ι) := do
  let (a, r) ← load heap rec
  pure (update heap a (some { r with next := nxtrec }))

-- The loops of io_getrec_seq and io_putrec_seq: prvrec and nxtrec after count passes,
-- or none where nxtrec is NULL before that.
def walk (heap : Heap ι) :
    ℕ → Option Addr → Option Addr → Except Fault (Option (Option Addr × Option Addr))
  | 0, prvrec, nxtrec => pure (some (prvrec, nxtrec))
  | _ + 1, _, none => pure none
  | n + 1, _, some a => do
    let (_, r) ← load heap (some a)
    walk heap n (some a) r.next

structure RecordStream (ι : Type) where
  qused : ℕ
  qmax : ℕ
  firstRecnum : Dlong
  nextRecnum : Dlong
  firstRecord : Option Addr
  lastRecord : Option Addr
  readStrategy : UInt32
  writeStrategy : UInt32
  infosize : ℕ
  heap : Heap ι

structure Return (ι : Type) where
  code : Code
  count : ℕ := 0
  recnum : Option Dlong := none
  record : Option Addr := none
  len : ℕ := 0
  buf : List UInt8 := []
  info : Option ι := none

inductive Progress (ι : Type) where
  | waits
  | returns (ret : Return ι) (s : RecordStream ι)

namespace Content

variable (c : Content ι)

def cursize : ℕ := c.blocks.foldl (fun size blk => Word.add size blk.length) 0

def copyBlocks : List (List UInt8) → ℕ → List UInt8 → Bool × ℕ × List UInt8
  | [], resid, buf => (true, resid, buf)
  | blk :: blocks, resid, buf =>
    if resid < blk.length then (false, resid, buf)
    else copyBlocks blocks (resid - blk.length) (buf ++ blk)

def iorecRead (mode : UInt32) (len : ℕ) : Code × ℕ × List UInt8 :=
  if mode &&& iomProbe ≠ 0 then (.success, c.cursize, [])
  else
    match copyBlocks c.blocks len [] with
    | (false, _, buf) => (.invalidBufferSize, c.cursize, buf)
    | (true, resid, buf) => (.success, len - resid, buf)

end Content

namespace RecordStream

def create (qsize : UInt32) (readstrat writestrat : UInt32) (infosize : ℕ) (heap : Heap ι) :
    RecordStream ι where
  qused := 0
  qmax := qsize.toNat
  firstRecnum := .zero
  nextRecnum := .zero
  firstRecord := none
  lastRecord := none
  readStrategy := readstrat
  writeStrategy := writestrat
  infosize := infosize
  heap := heap

variable (s : RecordStream ι)

def getReady (mode : UInt32) (count : ℕ) (stray : Option Addr) : Except Fault (Progress ι) :=
  let count := min count s.qused
  let recnum := s.firstRecnum
  if mode &&& iomProbe ≠ 0 then
    pure (.returns { code := .success, count := count, recnum := recnum } s)
  else do
    match ← walk s.heap count stray s.firstRecord with
    | none => pure (.returns { code := .internalError, count := count, recnum := recnum } s)
    | some (prvrec, nxtrec) =>
      let newrec := s.firstRecord
      let heap ← setNext s.heap prvrec none
      let qused := Word.sub s.qused count
      pure (.returns { code := .success, count := count, recnum := recnum, record := newrec }
        { s with
          heap := heap
          firstRecord := nxtrec
          qused := qused
          lastRecord := if qused = 0 then none else s.lastRecord
          firstRecnum := s.firstRecnum.addLong count })

def getWait (mode : UInt32) (count : ℕ) (stray : Option Addr) : Except Fault (Progress ι) :=
  if s.qused < minimum mode count then
    if s.readStrategy &&& iosWaitAllowed = 0 then
      pure (.returns { code := .rejected, count := count } s)
    else if mode &&& iomWait ≠ 0 then pure .waits
    else pure (.returns { code := .objectBusy, count := count } s)
  else s.getReady mode count stray

def ioGetrecSeq (mode : UInt32) (count : ℕ) (stray : Option Addr) : Except Fault (Progress ι) :=
  if invalidMode mode then pure (.returns { code := .invalidMode, count := count } s)
  else if s.readStrategy &&& iosEnabled = 0 then
    pure (.returns { code := .rejected, count := count } s)
  else s.getWait mode count stray

def getWoken (mode : UInt32) (count : ℕ) (stray : Option Addr) (interrupted : Bool) :
    Except Fault (Progress ι) :=
  if interrupted then pure (.returns { code := .exceptSoftware, count := count } s)
  else if s.readStrategy &&& iosEnabled = 0 then
    pure (.returns { code := .rejected, count := count } s)
  else s.getWait mode count stray

def enqueue (rec : Option Addr) (recnum : Dlong) : Except Fault (RecordStream ι) :=
  if 0 < s.qused then do
    let heap ← setNext s.heap s.lastRecord rec
    pure { s with heap := heap }
  else pure { s with firstRecord := rec, firstRecnum := recnum }

def putReady (mode : UInt32) (rec : Option Addr) (count : ℕ) (stray : Option Addr) :
    Except Fault (Progress ι) :=
  let count := min count (Word.sub s.qmax s.qused)
  let recnum := s.nextRecnum
  if mode &&& iomProbe ≠ 0 then
    pure (.returns { code := .success, count := count, recnum := recnum, record := rec } s)
  else do
    match ← walk s.heap count stray rec with
    | none =>
      pure (.returns { code := .notEnoughData, count := count, recnum := recnum, record := rec } s)
    | some (prvrec, nxtrec) =>
      let s ← s.enqueue rec recnum
      let heap ← setNext s.heap prvrec none
      pure (.returns { code := .success, count := count, recnum := recnum, record := nxtrec }
        { s with
          heap := heap
          lastRecord := prvrec
          qused := Word.add s.qused count
          nextRecnum := s.nextRecnum.addLong count })

def putWait (mode : UInt32) (rec : Option Addr) (count : ℕ) (stray : Option Addr) :
    Except Fault (Progress ι) :=
  if Word.sub s.qmax s.qused < minimum mode count then
    if s.writeStrategy &&& iosWaitAllowed = 0 then
      pure (.returns { code := .rejected, count := count, record := rec } s)
    else if mode &&& iomWait ≠ 0 then pure .waits
    else pure (.returns { code := .objectBusy, count := count, record := rec } s)
  else s.putReady mode rec count stray

def ioPutrecSeq (mode : UInt32) (rec : Option Addr) (count : ℕ) (stray : Option Addr) :
    Except Fault (Progress ι) :=
  if invalidMode mode then pure (.returns { code := .invalidMode, count := count, record := rec } s)
  else if s.writeStrategy &&& iosEnabled = 0 then
    pure (.returns { code := .rejected, count := count, record := rec } s)
  else s.putWait mode rec count stray

def putWoken (mode : UInt32) (rec : Option Addr) (count : ℕ) (stray : Option Addr)
    (interrupted : Bool) : Except Fault (Progress ι) :=
  if interrupted then
    pure (.returns { code := .exceptSoftware, count := count, record := rec } s)
  else if s.writeStrategy &&& iosEnabled = 0 then
    pure (.returns { code := .rejected, count := count, record := rec } s)
  else s.putWait mode rec count stray

def free (a : Addr) : RecordStream ι := { s with heap := update s.heap a none }

variable (ops : RecinfoOps ι)

def readReady (mode : UInt32) (len : ℕ) (recinfo : Option ι) : Except Fault (Progress ι) := do
  let recnum := s.firstRecnum
  let (a, r) ← load s.heap s.firstRecord
  let (code, len, buf) := r.iorecRead mode len
  if code ≠ .success then
    pure (.returns { code := code, recnum := recnum, len := len, buf := buf, info := recinfo } s)
  else if mode &&& iomProbe ≠ 0 then
    pure (.returns { code := .success, recnum := recnum, len := len, info := recinfo } s)
  else
    let qused := Word.sub s.qused 1
    let s := { s with
      firstRecord := r.next
      qused := qused
      lastRecord := if qused = 0 then none else s.lastRecord }
    let s := s.free a
    pure (.returns
      { code := .success
        recnum := recnum
        len := len
        buf := buf
        info := recinfo.map (ops.copy r.recinfo) }
      { s with firstRecnum := s.firstRecnum.addLong 1 })

def readWait (mode : UInt32) (len : ℕ) (recinfo : Option ι) : Except Fault (Progress ι) :=
  if s.qused < 1 then
    if s.readStrategy &&& iosWaitAllowed = 0 then
      pure (.returns { code := .rejected, len := len, info := recinfo } s)
    else if mode &&& iomWait ≠ 0 then pure .waits
    else pure (.returns { code := .objectBusy, len := len, info := recinfo } s)
  else s.readReady ops mode len recinfo

def invalidMode1 (mode : UInt32) : Prop := mode &&& ~~~(iomWait ||| iomProbe) ≠ 0

instance (mode : UInt32) : Decidable (invalidMode1 mode) := inferInstanceAs (Decidable (_ ≠ _))

def ioRead1recSeqWithInfo (mode : UInt32) (len : ℕ) (recinfo : Option ι) :
    Except Fault (Progress ι) :=
  if invalidMode1 mode then
    pure (.returns { code := .invalidMode, len := len, info := recinfo } s)
  else if s.readStrategy &&& iosEnabled = 0 then
    pure (.returns { code := .rejected, len := len, info := recinfo } s)
  else s.readWait ops mode len recinfo

def readWoken (mode : UInt32) (len : ℕ) (recinfo : Option ι) (interrupted : Bool) :
    Except Fault (Progress ι) :=
  if interrupted then
    pure (.returns { code := .exceptSoftware, len := len, info := recinfo } s)
  else if s.readStrategy &&& iosEnabled = 0 then
    pure (.returns { code := .rejected, len := len, info := recinfo } s)
  else s.readWait ops mode len recinfo

def ioAllocRecord (a : Addr) (blksize : ℕ) : RecordStream ι :=
  { s with
    heap := update s.heap a (some
      { blocks := if 0 < blksize then [[]] else []
        infosize := s.infosize
        recinfo := ops.initDefault
        next := none }) }

inductive Write1 (ι : Type) where
  | returns (code : Code) (s : RecordStream ι)
  | putrec (rec : Option Addr) (s : RecordStream ι)

def fillRecord (a : Addr) (buf : List UInt8) (recinfo : Option ι) : Except Fault (Write1 ι) := do
  let (_, r) ← load s.heap (some a)
  let r := { r with recinfo := recinfo.elim r.recinfo fun info => ops.copy info r.recinfo }
  match r.blocks with
  | [] => .error .noBlock
  | blk :: blocks =>
    let r := { r with blocks := (blk ++ buf) :: blocks }
    pure (.putrec (some a) { s with heap := update s.heap a (some r) })

def ioWrite1recSeqWithInfo (mode : UInt32) (buf : List UInt8) (recinfo : Option ι)
    (malloc : Option Addr) : Except Fault (Write1 ι) :=
  if invalidMode1 mode then pure (.returns .invalidMode s)
  else if mode &&& iomProbe = 0 then
    match malloc with
    | none => pure (.returns .resourceExhausted s)
    | some a =>
      let s := s.ioAllocRecord ops a buf.length
      if ∃ info ∈ recinfo, s.infosize < ops.size info then
        pure (.returns .internalError (s.free a))
      else s.fillRecord ops a buf recinfo
  else pure (.putrec none s)

def ioSetReadStrategy (strategy : UInt32) : Code × RecordStream ι :=
  if invalidStrategy strategy then (.invalidStrategy, s)
  else (.success, { s with readStrategy := strategy })

def ioSetWriteStrategy (strategy : UInt32) : Code × RecordStream ι :=
  if invalidStrategy strategy then (.invalidStrategy, s)
  else (.success, { s with writeStrategy := strategy })

def freeLoop : ℕ → Heap ι → Option Addr → Except Fault (Heap ι)
  | _, heap, none => pure heap
  | 0, _, some _ => .error .endlessLoop
  | n + 1, heap, some a => do
    let (_, r) ← load heap (some a)
    freeLoop n (update heap a none) r.next

def ioFlushStream : Except Fault (Code × RecordStream ι) := do
  let heap ← freeLoop s.qused s.heap s.firstRecord
  pure (.success,
    { s with
      heap := heap
      qused := 0
      firstRecord := none
      lastRecord := none
      firstRecnum := s.nextRecnum })

end RecordStream

end MachUS.Records

namespace MachUS.Records

open Io (Addr iomProbe iosEnabled)
open Io.Stream (invalidMode minimum)

variable {ι : Type} (ops : RecinfoOps ι)

abbrev Thread := ℕ

inductive Call (ι : Type) where
  | getrec (mode : UInt32) (count : ℕ)
  | putrec (mode : UInt32) (rec : Option Addr) (count : ℕ)
  | read1rec (mode : UInt32) (len : ℕ) (recinfo : Option ι)
  | write1rec (mode : UInt32) (buf : List UInt8) (recinfo : Option ι)

inductive Pending (ι : Type) where
  | get (mode : UInt32) (count : ℕ)
  | put (mode : UInt32) (rec : Option Addr) (count : ℕ) (internal : Bool)
  | read (mode : UInt32) (len : ℕ) (recinfo : Option ι)

inductive Start (ι : Type) where
  | returns (code : Code) (s : RecordStream ι)
  | proceeds (p : Pending ι) (s : RecordStream ι)

def Call.proceed (mode : UInt32) (r : Except Fault (RecordStream.Write1 ι)) :
    Except Fault (Start ι) := do
  match ← r with
  | .returns code s => pure (.returns code s)
  | .putrec rec s => pure (.proceeds (.put mode rec 1 true) s)

def Call.start (s : RecordStream ι) (malloc : Option Addr) : Call ι → Except Fault (Start ι)
  | getrec mode count => pure (.proceeds (.get mode count) s)
  | putrec mode rec count => pure (.proceeds (.put mode rec count false) s)
  | read1rec mode len recinfo => pure (.proceeds (.read mode len recinfo) s)
  | write1rec mode buf recinfo =>
    proceed mode (s.ioWrite1recSeqWithInfo ops mode buf recinfo malloc)

namespace Pending

def finish : Pending ι → Progress ι → Progress ι
  | put mode _ _ true, .returns ret s =>
    if ret.code ≠ .success ∧ mode &&& iomProbe = 0 then .returns ret (ret.record.elim s s.free)
    else .returns ret s
  | _, progress => progress

def enter (s : RecordStream ι) (stray : Option Addr) (p : Pending ι) :
    Except Fault (Progress ι) := do
  let progress ← match p with
    | get mode count => s.ioGetrecSeq mode count stray
    | put mode rec count _ => s.ioPutrecSeq mode rec count stray
    | read mode len recinfo => s.ioRead1recSeqWithInfo ops mode len recinfo
  pure (p.finish progress)

def resume (s : RecordStream ι) (stray : Option Addr) (interrupted : Bool) (p : Pending ι) :
    Except Fault (Progress ι) := do
  let progress ← match p with
    | get mode count => s.getWoken mode count stray interrupted
    | put mode rec count _ => s.putWoken mode rec count stray interrupted
    | read mode len recinfo => s.readWoken ops mode len recinfo interrupted
  pure (p.finish progress)

def mode : Pending ι → UInt32
  | get mode _ => mode
  | put mode _ _ _ => mode
  | read mode _ _ => mode

def MovesNothing (s : RecordStream ι) : Pending ι → Prop
  | get mode count => count = 0 ∧ mode &&& iomProbe = 0 ∧ s.readStrategy &&& iosEnabled ≠ 0 ∧
      minimum mode count ≤ s.qused
  | put mode _ count _ => count = 0 ∧ mode &&& iomProbe = 0 ∧
      s.writeStrategy &&& iosEnabled ≠ 0 ∧ minimum mode count ≤ s.qmax - s.qused
  | read _ _ _ => False

end Pending

inductive Delivery (ι : Type) where
  | record (a : Addr) (c : Content ι)
  | bytes (buf : List UInt8) (given got : Option ι)
  | flushed

def Delivers : Delivery ι → Addr × Content ι → Prop
  | .record a c, w => w = (a, c)
  | .bytes buf given got, w =>
    buf = w.2.blocks.flatten ∧ got = given.map (ops.copy w.2.recinfo)
  | .flushed, _ => True

def gather (heap : Heap ι) : ℕ → Option Addr → List (Addr × Content ι)
  | n + 1, some a =>
    match heap a with
    | some r => (a, r.toContent) :: gather heap n r.next
    | none => []
  | _, _ => []

structure System (ι : Type) where
  stream : RecordStream ι
  waiting : Thread → Option (Pending ι)
  owner : Addr → Option Thread
  written : List (Addr × Content ι)
  delivered : List (Delivery ι)
  trap : Option Fault

inductive Event (ι : Type) where
  | call (t : Thread) (c : Call ι) (malloc stray : Option Addr)
  | wake (t : Thread) (interrupted : Bool) (stray : Option Addr)
  | flush
  | setReadStrategy (strategy : UInt32)
  | setWriteStrategy (strategy : UInt32)
  | work (t : Thread) (a : Addr) (r : Option (Record ι))
  | give (t u : Thread) (a : Addr)

namespace System

def boot (qsize readstrat writestrat : UInt32) (infosize : ℕ) : System ι where
  stream := RecordStream.create qsize readstrat writestrat infosize fun _ => none
  waiting := fun _ => none
  owner := fun _ => none
  written := []
  delivered := []
  trap := none

variable (x : System ι)

def assign (l : List Addr) (o : Option Thread) : System ι :=
  { x with owner := fun a => if a ∈ l then o else x.owner a }

def account (t : Thread) (before : Heap ι) (ret : Return ι) : Pending ι → System ι
  | .get mode _ =>
    if ret.code = .success ∧ mode &&& iomProbe = 0 then
      let l := gather x.stream.heap ret.count ret.record
      { x.assign (l.map Prod.fst) (some t) with
        delivered := x.delivered ++ l.map fun w => .record w.1 w.2 }
    else x
  | .put mode rec _ internal =>
    if ret.code = .success ∧ mode &&& iomProbe = 0 then
      let l := gather before ret.count rec
      { x.assign (l.map Prod.fst) none with written := x.written ++ l }
    else if internal then x.assign rec.toList none
    else x
  | .read mode _ recinfo =>
    if ret.code = .success ∧ mode &&& iomProbe = 0 then
      { x with delivered := x.delivered ++ [.bytes ret.buf recinfo ret.info] }
    else x

def settle (t : Thread) (p : Pending ι) : Except Fault (Progress ι) → System ι
  | .error fault => { x with trap := some fault }
  | .ok .waits => { x with waiting := Function.update x.waiting t (some p) }
  | .ok (.returns ret s) =>
    { x with stream := s, waiting := Function.update x.waiting t none }.account t x.stream.heap ret
      p

def owned (t : Thread) : Pending ι → System ι
  | .put _ rec _ true => x.assign rec.toList (some t)
  | _ => x

def begin (t : Thread) (stray : Option Addr) : Except Fault (Start ι) → System ι
  | .error fault => { x with trap := some fault }
  | .ok (.returns _ s) => { x with stream := s }
  | .ok (.proceeds p s) =>
    ({ x with stream := s }.owned t p).settle t p (p.enter ops s stray)

def move : Event ι → Option (System ι)
  | .call t c malloc stray =>
    match x.waiting t with
    | none => some (x.begin ops t stray (c.start ops x.stream malloc))
    | some _ => none
  | .wake t interrupted stray =>
    match x.waiting t with
    | none => none
    | some p => some (x.settle t p (p.resume ops x.stream stray interrupted))
  | .flush =>
    match x.stream.ioFlushStream with
    | .ok (_, s) =>
      some { x with
        stream := s
        delivered := x.delivered ++ List.replicate x.stream.qused .flushed }
    | .error fault => some { x with trap := some fault }
  | .setReadStrategy strategy =>
    some { x with stream := (x.stream.ioSetReadStrategy strategy).2 }
  | .setWriteStrategy strategy =>
    some { x with stream := (x.stream.ioSetWriteStrategy strategy).2 }
  | .work t a r =>
    if x.waiting t = none ∧ (x.owner a = some t ∨ x.stream.heap a = none) then
      some { x.assign [a] (r.map fun _ => t) with
        stream := { x.stream with heap := Function.update x.stream.heap a r } }
    else none
  | .give t u a =>
    if x.waiting t = none ∧ x.owner a = some t then some (x.assign [a] (some u)) else none

def next (e : Event ι) : Option (System ι) := if x.trap = none then x.move ops e else none

def Listed (t : Thread) (rec : Option Addr) : Prop :=
  ∃ l, Chain.Along Record.next x.stream.heap rec l none ∧
    ∀ a ∈ Chain.keys l, x.owner a = some t

def Grants : Event ι → Prop
  | .call t c malloc _ => (∀ a ∈ malloc, x.stream.heap a = none) ∧
      ∀ mode rec count, c = .putrec mode rec count → mode &&& iomProbe = 0 → x.Listed t rec
  | _ => True

def Counted : Event ι → Prop
  | .call _ (.getrec mode count) _ _ =>
    ¬invalidMode mode → ¬(Pending.get mode count).MovesNothing x.stream
  | .call _ (.putrec mode rec count) _ _ =>
    ¬invalidMode mode → ¬(Pending.put mode rec count false).MovesNothing x.stream
  | .wake t interrupted _ => interrupted = false → ∀ p ∈ x.waiting t, ¬p.MovesNothing x.stream
  | _ => True

end System

end MachUS.Records
