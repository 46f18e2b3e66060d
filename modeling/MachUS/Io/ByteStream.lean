import MachUS.Foundation.Chain
import MachUS.Foundation.MemoryReads
import MachUS.Foundation.Program
import MachUS.Foundation.Word

namespace MachUS.Io

open Word

structure Dlong where
  d0 : UInt16
  d1 : UInt16
  d2 : UInt16
  d3 : UInt16
  deriving DecidableEq

namespace Dlong

def zero : Dlong := ⟨0, 0, 0, 0⟩

def value (x : Dlong) : ℕ :=
  ((x.d0.toNat * 2 ^ 16 + x.d1.toNat) * 2 ^ 16 + x.d2.toNat) * 2 ^ 16 + x.d3.toNat

-- ADD_LONG_TO_DLONG with an unsigned addend, for which the test (x) >= 0 always holds.
def addLong (r : Dlong) (x : ℕ) : Dlong :=
  let ac3 := r.d3.toNat + x % 2 ^ 16
  let ac2 := r.d2.toNat + x / 2 ^ 16 % 2 ^ 16 + ac3 / 2 ^ 16
  let r := { r with d3 := UInt16.ofNat ac3, d2 := UInt16.ofNat ac2 }
  if ac2 / 2 ^ 16 ≠ 0 then
    let ac1 := r.d1.toNat + 1
    let r := { r with d1 := UInt16.ofNat ac1 }
    if ac1 / 2 ^ 16 ≠ 0 then { r with d0 := r.d0 + 1 } else r
  else r

theorem value_lt (x : Dlong) : x.value < 2 ^ 64 := by
  have h0 := x.d0.toNat_lt
  have h1 := x.d1.toNat_lt
  have h2 := x.d2.toNat_lt
  have h3 := x.d3.toNat_lt
  rw [value]
  omega

theorem addLong_zero (x : Dlong) : x.addLong 0 = x := by
  obtain ⟨x0, x1, x2, x3⟩ := x
  have h2 : x2.toNat / 2 ^ 16 = 0 := Nat.div_eq_of_lt x2.toNat_lt
  have h3 : x3.toNat / 2 ^ 16 = 0 := Nat.div_eq_of_lt x3.toNat_lt
  simp only [addLong, Nat.zero_mod, Nat.zero_div, Nat.add_zero, h3, h2, UInt16.ofNat_toNat]
  rfl

theorem value_addLong (r : Dlong) {x : ℕ} (hx : x < 2 ^ 32) :
    (r.addLong x).value = (r.value + x) % 2 ^ 64 := by
  have h0 := r.d0.toNat_lt
  have h1 := r.d1.toNat_lt
  have h2 := r.d2.toNat_lt
  have h3 := r.d3.toNat_lt
  simp only [addLong]
  split_ifs with hc hc' <;>
  · simp only [value, UInt16.toNat_ofNat', UInt16.toNat_add, UInt16.toNat_one]
    omega

end Dlong

open Memory

abbrev Addr := ℕ

structure Block where
  next : Option Addr
  minOffset : ℕ
  maxOffset : ℕ
  startOffset : ℕ
  endOffset : ℕ
  data : Mem

namespace Block

variable (b : Block)

def cursize : ℕ := sub b.endOffset b.startOffset

def maxsize : ℕ := sub b.maxOffset b.minOffset

def freesize : ℕ := sub b.maxOffset b.endOffset

def Empty : Prop := b.startOffset = b.endOffset

instance : Decidable b.Empty := inferInstanceAs (Decidable (_ = _))

def clear : Block := { b with startOffset := b.minOffset, endOffset := b.minOffset }

def read (n : ℕ) : List UInt8 := bytes b.data b.startOffset n

def advance (n : ℕ) : Block := { b with startOffset := add b.startOffset n }

def append (buf : List UInt8) : Block :=
  { b with
    data := store b.data b.endOffset buf
    endOffset := add b.endOffset buf.length }

end Block

inductive Fault where
  | nullPointer
  | freedBlock
  | divideByZero
  | endlessLoop
  deriving DecidableEq

inductive Alarm where
  | deqStartblk
  | enqWriteblk
  | enqReadblk
  | allocBlock
  | ranOutOfBlocks
  | getRanOutOfBlocks
  deriving DecidableEq

inductive Code where
  | success
  | invalidMode
  | rejected
  | invalidSize
  | objectBusy
  | exceptSoftware
  | internalError
  | invalidStrategy
  | notEnoughData
  | resourceExhausted
  deriving DecidableEq

abbrev Heap := Addr → Option Block

def load (heap : Heap) : Option Addr → Except Fault (Addr × Block)
  | none => .error .nullPointer
  | some a =>
    match heap a with
    | none => .error .freedBlock
    | some b => .ok (a, b)

def put (heap : Heap) (a : Addr) (b : Block) : Heap := Function.update heap a (some b)

def free (heap : Heap) (a : Addr) : Heap := Function.update heap a none

def iomProbe : UInt32 := 0x1

def iomTruncate : UInt32 := 0x2

def iomWait : UInt32 := 0x4

def iosEnabled : UInt32 := 0x1

def iosWaitAllowed : UInt32 := 0x2

def maximumXfer : ℕ := 32768

def headerSize : ℕ := 28

structure Stream where
  qused : ℕ
  qmax : ℕ
  qfree : ℕ
  qHwm : ℕ
  readOffset : Dlong
  writeOffset : Dlong
  readblk : Option Addr
  writeblk : Option Addr
  blksize : ℕ
  readStrategy : UInt32
  writeStrategy : UInt32
  heap : Heap
  alarms : List Alarm

abbrev Malloc := ℕ → Option (Addr × Mem)

namespace Stream

def create (qsize : ℕ) (readstrat writestrat : UInt32) : Stream where
  qused := 0
  qmax := qsize
  qfree := 0
  qHwm := 2 * qsize
  readOffset := .zero
  writeOffset := .zero
  readblk := none
  writeblk := none
  blksize := qsize
  readStrategy := readstrat
  writeStrategy := writestrat
  heap := fun _ => none
  alarms := []

def usInternalError (s : Stream) (a : Alarm) : Stream := { s with alarms := s.alarms ++ [a] }

def deqRblks (s : Stream) (startblk endblk : Addr) (len : ℕ) : Except Fault Stream := do
  let s := if some startblk ≠ s.readblk then s.usInternalError .deqStartblk else s
  let (_, e) ← load s.heap (some endblk)
  let s := if some endblk = s.writeblk then
      { s with writeblk := e.next, qfree := sub s.qfree e.freesize }
    else s
  pure { s with
    readblk := e.next
    heap := put s.heap endblk { e with next := none }
    qused := sub s.qused len }

def enqWblks (s : Stream) (startblk endblk : Addr) (len : ℕ) : Except Fault Stream := do
  let (_, e) ← load s.heap (some endblk)
  match s.writeblk with
  | none =>
    let s := if s.readblk ≠ none then s.usInternalError .enqWriteblk else s
    pure { s with
      writeblk := some startblk
      heap := put s.heap endblk { e with next := none }
      readblk := some startblk
      qfree := add s.qfree len }
  | some w =>
    let (_, wb) ← load s.heap (some w)
    let heap := put s.heap endblk { e with next := wb.next }
    let (_, wb) ← load heap (some w)
    pure { s with
      heap := put heap w { wb with next := some startblk }
      qfree := add s.qfree len }

def newBlock (blksize : ℕ) (data : Mem) : Block :=
  Block.clear
    { next := none
      minOffset := headerSize
      maxOffset := add headerSize blksize
      startOffset := headerSize
      endOffset := headerSize
      data := data }

def allocBlocks (malloc : Malloc) : ℕ → ℕ → Stream → Except Fault (Code × Stream)
  | _, 0, s => pure (.success, s)
  | i, n + 1, s =>
    match malloc i with
    | none => pure (.internalError, s.usInternalError .allocBlock)
    | some (a, data) => do
      let s := { s with heap := put s.heap a (newBlock s.blksize data) }
      let s ← s.enqWblks a a s.blksize
      allocBlocks malloc (i + 1) n s

def getMoreBlocksInternal (s : Stream) (malloc : Malloc) (size : ℕ) :
    Except Fault (Code × Stream) :=
  if s.blksize = 0 then .error .divideByZero
  else
    let numblks := signed (sub (add size s.blksize) 1 / s.blksize)
    allocBlocks malloc 0 numblks.toNat s

def copyLoop : ℕ → Heap → Option Addr → List UInt8 → Except Fault (Heap × Option Addr)
  | _, heap, curblk, [] => pure (heap, curblk)
  | 0, _, _, _ :: _ => .error .endlessLoop
  | n + 1, heap, curblk, buf => do
    let (a, b) ← load heap curblk
    if b.freesize = 0 then copyLoop n heap b.next buf
    else
      let xfer := min buf.length b.freesize
      copyLoop n (put heap a (b.append (buf.take xfer))) curblk (buf.drop xfer)

def copyToBlks (s : Stream) (buf : List UInt8) : Except Fault Stream := do
  let (heap, curblk) ← copyLoop (2 * buf.length) s.heap s.writeblk buf
  pure { s with
    heap := heap
    writeblk := curblk
    qfree := sub s.qfree buf.length
    qused := add s.qused buf.length }

def recycle (s : Stream) (curblk : Addr) (b : Block) : Except Fault Stream :=
  if s.qHwm < add s.qfree b.freesize ∨ b.maxsize < s.blksize then
    pure { s with heap := free s.heap curblk }
  else s.enqWblks curblk curblk b.freesize

def readLoop : ℕ → Stream → ℕ → List UInt8 → Except Fault (Code × Stream × List UInt8)
  | _, s, 0, buf => pure (.success, s, buf)
  | 0, _, _ + 1, _ => .error .endlessLoop
  | n + 1, s, resid, buf =>
    match s.readblk with
    | none => pure (.internalError, s.usInternalError .ranOutOfBlocks, buf)
    | some curblk => do
      let (_, b) ← load s.heap (some curblk)
      let xfer := min resid b.cursize
      let buf := buf ++ b.read xfer
      let b := b.advance xfer
      let s := { s with heap := put s.heap curblk b }
      if b.Empty then
        let s ← s.deqRblks curblk curblk xfer
        let (_, b) ← load s.heap (some curblk)
        let s := { s with heap := put s.heap curblk b.clear }
        let s ← s.recycle curblk b.clear
        readLoop n s (resid - xfer) buf
      else readLoop n { s with qused := sub s.qused xfer } (resid - xfer) buf

def freeLoop : ℕ → Heap → Option Addr → Except Fault Heap
  | _, heap, none => pure heap
  | 0, _, some _ => .error .endlessLoop
  | n + 1, heap, some a => do
    let (_, b) ← load heap (some a)
    freeLoop n (free heap a) b.next

end Stream

structure Return where
  code : Code
  num : ℕ
  offset : Option Dlong
  buf : List UInt8
  deriving DecidableEq

inductive Progress where
  | waits
  | returns (ret : Return) (s : Stream)

namespace Stream

variable (s : Stream)

def refuses (code : Code) (num : ℕ) : Progress := .returns ⟨code, num, none, []⟩ s

def invalidMode (mode : UInt32) : Prop := mode &&& ~~~(iomWait ||| iomProbe ||| iomTruncate) ≠ 0

instance (mode : UInt32) : Decidable (invalidMode mode) := inferInstanceAs (Decidable (_ ≠ _))

def minimum (mode : UInt32) (num : ℕ) : ℕ := if mode &&& iomTruncate ≠ 0 then 1 else num

def readReady (mode : UInt32) (num : ℕ) : Except Fault Progress :=
  let num := min num s.qused
  if mode &&& iomProbe ≠ 0 then
    pure (.returns ⟨.success, num, some s.readOffset, []⟩ s)
  else do
    let offset := s.readOffset
    let (code, s, buf) ← readLoop (2 ^ 32) s num []
    if code = .success then
      pure (.returns ⟨.success, num, some offset, buf⟩
        { s with readOffset := s.readOffset.addLong num })
    else pure (.returns ⟨code, num, some offset, buf⟩ s)

def readWait (mode : UInt32) (num : ℕ) : Except Fault Progress :=
  if s.qused < minimum mode num then
    if s.readStrategy &&& iosWaitAllowed = 0 then pure (s.refuses .rejected num)
    else if mode &&& iomWait ≠ 0 then pure .waits
    else pure (s.refuses .objectBusy num)
  else s.readReady mode num

def ioReadSeq (mode : UInt32) (num : ℕ) : Except Fault Progress :=
  if invalidMode mode then pure (s.refuses .invalidMode num)
  else if s.readStrategy &&& iosEnabled = 0 then pure (s.refuses .rejected num)
  else if maximumXfer < num then pure (s.refuses .invalidSize num)
  else s.readWait mode num

def readWoken (mode : UInt32) (num : ℕ) (interrupted : Bool) : Except Fault Progress :=
  if interrupted then pure (s.refuses .exceptSoftware num)
  else if s.readStrategy &&& iosEnabled = 0 then pure (s.refuses .rejected num)
  else s.readWait mode num

def writeBlocks (malloc : Malloc) (num : ℕ) : Except Fault (Code × Stream) :=
  if 0 < signed (sub num s.qfree) then
    s.getMoreBlocksInternal malloc (sub num s.qfree)
  else pure (.success, s)

def writeReady (malloc : Malloc) (mode : UInt32) (buf : List UInt8) : Except Fault Progress :=
  let num := min buf.length (sub s.qmax s.qused)
  let offset := s.writeOffset
  if mode &&& iomProbe ≠ 0 then pure (.returns ⟨.success, num, some offset, []⟩ s)
  else do
    let (code, s) ← s.writeBlocks malloc num
    if code = .success then
      let s ← s.copyToBlks (buf.take num)
      pure (.returns ⟨.success, num, some offset, []⟩
        { s with writeOffset := s.writeOffset.addLong num })
    else pure (.returns ⟨code, 0, some offset, []⟩ s)

def writeWait (malloc : Malloc) (mode : UInt32) (buf : List UInt8) : Except Fault Progress :=
  if sub s.qmax s.qused < minimum mode buf.length then
    if s.writeStrategy &&& iosWaitAllowed = 0 then pure (s.refuses .rejected buf.length)
    else if mode &&& iomWait ≠ 0 then pure .waits
    else pure (s.refuses .objectBusy buf.length)
  else s.writeReady malloc mode buf

def ioWriteSeq (malloc : Malloc) (mode : UInt32) (buf : List UInt8) : Except Fault Progress :=
  if invalidMode mode then pure (s.refuses .invalidMode buf.length)
  else if s.writeStrategy &&& iosEnabled = 0 then pure (s.refuses .rejected buf.length)
  else if maximumXfer < buf.length then pure (s.refuses .invalidSize buf.length)
  else s.writeWait malloc mode buf

def writeWoken (malloc : Malloc) (mode : UInt32) (buf : List UInt8) (interrupted : Bool) :
    Except Fault Progress :=
  if interrupted then pure (s.refuses .exceptSoftware buf.length)
  else if s.writeStrategy &&& iosEnabled = 0 then pure (s.refuses .rejected buf.length)
  else s.writeWait malloc mode buf

def invalidStrategy (strategy : UInt32) : Prop :=
  strategy &&& ~~~(iosEnabled ||| iosWaitAllowed) ≠ 0

instance (strategy : UInt32) : Decidable (invalidStrategy strategy) :=
  inferInstanceAs (Decidable (_ ≠ _))

def ioSetReadStrategy (strategy : UInt32) : Code × Stream :=
  if invalidStrategy strategy then (.invalidStrategy, s)
  else (.success, { s with readStrategy := strategy })

def ioSetWriteStrategy (strategy : UInt32) : Code × Stream :=
  if invalidStrategy strategy then (.invalidStrategy, s)
  else (.success, { s with writeStrategy := strategy })

def ioFlushStream : Except Fault (Code × Stream) := do
  let heap ← freeLoop (s.qused + s.qfree) s.heap s.readblk
  pure (.success,
    { s with
      heap := heap
      qused := 0
      qfree := 0
      readblk := none
      writeblk := none
      readOffset := s.writeOffset })

end Stream

end MachUS.Io
