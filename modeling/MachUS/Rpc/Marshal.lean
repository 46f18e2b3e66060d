import MachUS.Foundation.MemoryReads
import MachUS.Rpc.MethodInfo

namespace MachUS.Rpc

open Text Memory

inductive MsgDirection where
  | request
  | reply
  deriving DecidableEq

inductive Ret where
  | success
  | noSuchOperation
  | badMessage
  deriving DecidableEq, Repr

abbrev ClassDesc := ℕ

abbrev Remote := ℕ

structure Method where
  methodName : Bytes
  argType : ArgType
  deriving DecidableEq

structure Tables where
  lookupName : Bytes → Option Method
  lookupMsgid : ℤ → Option Method
  lookupClass : Bytes → Option ClassDesc
  lookupExternalPort : ℤ → Option Remote
  castdown : Remote → ClassDesc → ℤ
  virtualConstructor : ClassDesc → ℤ → ClassDesc → ℤ
  converterToRemote : ClassDesc → ℤ → Remote
  getTransferPort : Remote → ℤ × ℤ
  remoteClassName : Remote → Bytes

def orReturn {α β : Type} (x : Outcome (Except Ret α)) (f : α → Outcome (Except Ret β)) :
    Outcome (Except Ret β) := do
  match ← x with
  | .error ret => .ok (.error ret)
  | .ok a => f a

def signed (w : ℤ) : ℤ := wrap w

def asSize (z : ℤ) : ℕ := (z % 2 ^ 32).toNat

def headerSize : ℤ := 24

def replyHeaderSize : ℤ := 32

structure Space where
  readable : List Region
  writable : List Region
  patchable : List Region

namespace Space

def readWord (sp : Space) (m : Mem) (a : ℤ) : Outcome ℤ :=
  if Covered sp.readable a 4 then .ok (word m a) else .error .outOfBounds

def readString (sp : Space) (m : Mem) (a : ℤ) : Outcome Bytes :=
  match sp.readable.find? fun r => r.start ≤ a && a < r.start + r.length with
  | none => .error .outOfBounds
  | some r =>
    let bs := bytes m a (r.start + r.length - a).toNat
    if 0 ∈ bs then .ok (bs.takeWhile (· ≠ 0)) else .error .outOfBounds

def writeWord (sp : Space) (m : Mem) (a w : ℤ) : Outcome Mem :=
  if Covered sp.writable a 4 then .ok (storeWord m a w) else .error .outOfBounds

def patchWord (sp : Space) (m : Mem) (a w : ℤ) : Outcome Mem :=
  if Covered sp.patchable a 4 then .ok (storeWord m a w) else .error .outOfBounds

def bcopy (sp : Space) (m : Mem) (src dst length : ℤ) : Outcome Mem :=
  if Covered sp.readable src (asSize length) ∧ Covered sp.writable dst (asSize length) then
    .ok (store m dst (bytes m src (asSize length)))
  else .error .outOfBounds

def chase (sp : Space) (m : Mem) : ℕ → ℤ → Outcome ℤ
  | 0, a => .ok a
  | n + 1, a => do
    let p ← sp.readWord m a
    sp.chase m n p

end Space

def ArgInfo.present (x : ArgInfo) : MsgDirection → Bool
  | .request => x.input
  | .reply => x.output

structure Iteration where
  arg : ArgInfo
  next : ArgInfo
  deriving DecidableEq

namespace Iteration

variable (it : Iteration) (dir : MsgDirection)

def takesNext : Bool := it.arg.isVariable && (it.arg.present dir || !it.next.present dir)

def width : ℤ := it.arg.argSize + if it.takesNext dir then 4 else 0

end Iteration

def iterationsOf (dir : MsgDirection) (after : ArgInfo) : List ArgInfo → List Iteration
  | [] => []
  | [x] => [⟨x, after⟩]
  | x :: y :: rest =>
    ⟨x, y⟩ :: if Iteration.takesNext ⟨x, y⟩ dir then iterationsOf dir after rest
      else iterationsOf dir after (y :: rest)

def ArgType.iterations (t : ArgType) (dir : MsgDirection) : List Iteration :=
  iterationsOf dir t.after t.args

structure Descriptor where
  name : ℤ
  size : ℤ
  number : ℤ
  isInline : Bool
  longform : Bool
  deriving DecidableEq

namespace Descriptor

def length (d : Descriptor) : ℤ := if d.longform then 12 else 4

def mismatches (d : Descriptor) (x : ArgInfo) : Bool :=
  (x.name != d.name && !(portAny x.name && portAny d.name)) || x.size != d.size

end Descriptor

structure Cursor where
  mem : Mem
  dst : ℤ
  args : ℤ
  dataOut : ℤ

def number12 (w : ℤ) : ℤ := w / 2 ^ 16 % 2 ^ 12

def isLong (w : ℤ) : Bool := w / 2 ^ 29 % 2 = 1

def isInline (w : ℤ) : Bool := w / 2 ^ 28 % 2 = 1

def descriptorAt (m : Mem) (dst : ℤ) : Descriptor :=
  let w := word m dst
  if isLong w then
    let kind := word m (dst + 4)
    ⟨kind % 2 ^ 16, kind / 2 ^ 16 % 2 ^ 16, signed (word m (dst + 8)), isInline w, true⟩
  else ⟨w % 2 ^ 8, w / 2 ^ 8 % 2 ^ 8, number12 w, isInline w, false⟩

def readDescriptor (sp : Space) (m : Mem) (dst : ℤ) : Outcome Descriptor := do
  let w ← sp.readWord m dst
  if isLong w then do
    let _ ← sp.readWord m (dst + 8)
    let _ ← sp.readWord m (dst + 4)
    .ok (descriptorAt m dst)
  else .ok (descriptorAt m dst)

def countCells (sp : Space) (m : Mem) : ℕ → ℤ → Outcome (Mem × ℤ)
  | 0, numPtr => .ok (m, numPtr)
  | n + 1, numPtr => do
    let m ← sp.writeWord m (numPtr + 4) numPtr
    countCells sp m n (numPtr + 4)

def setCount (sp : Space) (dir : MsgDirection) (it : Iteration) (msgNum : ℤ) (c : Cursor) :
    Outcome Cursor :=
  if it.arg.isVariable = false then .ok c
  else if it.arg.unitNumber = 0 then
    match dir with
    | .request => .error .divideByZero
    | .reply => do
      let _ ← sp.chase c.mem it.next.indirectCnt (c.args + 4)
      .error .divideByZero
  else
    let count := msgNum.tdiv it.arg.unitNumber
    match dir with
    | .request => do
      let m ← sp.writeWord c.mem c.dataOut count
      let (m, numPtr) ← countCells sp m it.next.indirectCnt c.dataOut
      let m ← sp.writeWord m (c.args + 4) (word m numPtr)
      .ok { c with mem := m, dataOut := numPtr }
    | .reply => do
      let numPtr ← sp.chase c.mem it.next.indirectCnt (c.args + 4)
      let m ← sp.writeWord c.mem numPtr count
      .ok { c with mem := m }

def translateRefs (t : Tables) (sp : Space) (cls : ClassDesc) (className : ℤ) :
    ℕ → ℤ → Mem → Outcome (Except Ret Mem)
  | 0, _, m => .ok (.ok m)
  | n + 1, dptr, m => do
    let p ← sp.readWord m dptr
    if p = 0 then translateRefs t sp cls className n (dptr + 4) m
    else
      match t.lookupExternalPort p with
      | some robj => do
        let m ← sp.patchWord m dptr (t.castdown robj cls)
        translateRefs t sp cls className n (dptr + 4) m
      | none => do
        let name ← sp.readString m className
        match t.lookupClass name with
        | none => .ok (.error .noSuchOperation)
        | some c => do
          let m ← sp.patchWord m dptr (t.virtualConstructor c p cls)
          translateRefs t sp cls className n (dptr + 4) m

structure Translated where
  mem : Mem
  newDst : ℤ

def translate (t : Tables) (sp : Space) (x : ArgInfo) (msgNum dptr next : ℤ) (m : Mem) :
    Outcome (Except Ret Translated) :=
  if x.object = false then .ok (.ok ⟨m, next⟩)
  else
    match x.className with
    | none => .error .nullPointer
    | some className =>
      match t.lookupClass className with
      | none => .ok (.error .noSuchOperation)
      | some cls => do
        let first ← sp.readWord m dptr
        if first ≠ 0 then do
          let w ← sp.readWord m next
          orReturn (translateRefs t sp cls (next + 4) msgNum.toNat dptr m) fun m =>
            .ok (.ok ⟨m, next + 4 + roundupLong (number12 w)⟩)
        else
          orReturn (translateRefs t sp cls 0 msgNum.toNat dptr m) fun m => .ok (.ok ⟨m, next⟩)

def place (sp : Space) (dir : MsgDirection) (x : ArgInfo) (dptr dataSize : ℤ) (c : Cursor) :
    Outcome Cursor :=
  match x.indirectCnt with
  | 0 => do
    let m ← sp.bcopy c.mem dptr c.args dataSize
    .ok { c with mem := m }
  | 1 =>
    match dir with
    | .request =>
      if x.output then do
        let m ← sp.writeWord c.mem c.args c.dataOut
        let m ← sp.bcopy m dptr c.dataOut dataSize
        .ok { c with mem := m, dataOut := c.dataOut + x.outSize }
      else do
        let m ← sp.writeWord c.mem c.args dptr
        .ok { c with mem := m }
    | .reply => do
      let buffer ← sp.readWord c.mem c.args
      let m ← sp.bcopy c.mem dptr buffer dataSize
      .ok { c with mem := m }
  | 2 =>
    match dir with
    | .request => do
      let m ← sp.writeWord c.mem c.args c.dataOut
      let m ← sp.writeWord m c.dataOut dptr
      .ok { c with mem := m, dataOut := c.dataOut + x.outSize }
    | .reply => do
      let cell ← sp.readWord c.mem c.args
      let m ← sp.writeWord c.mem cell dptr
      .ok { c with mem := m }
  | _ => .ok c

def skipArg (sp : Space) (dir : MsgDirection) (it : Iteration) (c : Cursor) : Outcome Cursor :=
  match dir with
  | .reply => .ok { c with args := c.args + it.width dir }
  | .request =>
    if it.arg.output then do
      let m ← sp.writeWord c.mem c.args c.dataOut
      let c := { c with mem := m, dataOut := c.dataOut + it.arg.outSize }
      if it.takesNext dir then do
        let m ← sp.writeWord c.mem (c.args + it.arg.argSize) c.dataOut
        .ok { c with mem := m, args := c.args + it.width dir, dataOut := c.dataOut + 4 }
      else .ok { c with args := c.args + it.width dir }
    else .ok { c with args := c.args + it.width dir }

def locate (sp : Space) (d : Descriptor) (m : Mem) (data : ℤ) : Outcome ℤ :=
  if d.isInline then .ok data else sp.readWord m data

def unpackArg (t : Tables) (sp : Space) (dir : MsgDirection) (it : Iteration) (c : Cursor) :
    Outcome (Except Ret Cursor) := do
  let d ← readDescriptor sp c.mem c.dst
  if d.mismatches it.arg then .ok (.error .badMessage)
  else do
    let data := c.dst + d.length
    let dataSize := byteSize d.number d.size
    let dptr ← locate sp d c.mem data
    let next := data + if d.isInline then dataSize else 4
    let c ← setCount sp dir it d.number c
    orReturn (translate t sp it.arg d.number dptr next c.mem) fun tr => do
      let c ← place sp dir it.arg dptr dataSize { c with mem := tr.mem }
      .ok (.ok { c with dst := tr.newDst, args := c.args + it.width dir })

def unpackArgs (t : Tables) (sp : Space) (dir : MsgDirection) :
    List Iteration → Cursor → Outcome (Except Ret Cursor)
  | [], c => .ok (.ok c)
  | it :: its, c =>
    if it.arg.present dir then orReturn (unpackArg t sp dir it c) (unpackArgs t sp dir its)
    else do
      let c ← skipArg sp dir it c
      unpackArgs t sp dir its c

def foundMethod (mid : Option Method) (dst : ℤ) : Outcome (Except Ret (Method × ℤ)) :=
  match mid with
  | none => .ok (.error .noSuchOperation)
  | some mid => .ok (.ok (mid, dst))

def findMethod (t : Tables) (sp : Space) (m : Mem) (msg : ℤ) :
    Outcome (Except Ret (Method × ℤ)) := do
  let id ← sp.readWord m (msg + 20)
  if signed id = -1 then do
    let w ← sp.readWord m (msg + headerSize)
    let name ← sp.readString m (msg + headerSize + 4)
    foundMethod (t.lookupName name) (msg + headerSize + 4 + number12 w)
  else foundMethod (t.lookupMsgid (signed id)) (msg + headerSize)

def argListSize : ℕ := 64

def dataBufMax : ℕ := 40 * 1024

def clip (r : Region) (start : ℤ) (length : ℤ) : Region :=
  ⟨max start r.start, (min (start + length) (r.start + r.length) - max start r.start).toNat⟩

namespace Iteration

def reserves (it : Iteration) : ℤ :=
  if it.arg.input then
    (if it.arg.isVariable then 4 * it.next.indirectCnt else 0) +
      if it.arg.indirectCnt = 2 ∨ (it.arg.indirectCnt = 1 ∧ it.arg.output) then it.arg.outSize else 0
  else if it.arg.output then it.arg.outSize + if it.takesNext .request then 4 else 0
  else 0

def slots (it : Iteration) (arglist : Region) (args : ℤ) : List Region :=
  [clip arglist args it.arg.argSize, clip arglist (args + it.arg.argSize) (it.width .request - it.arg.argSize)]

def dataAreas (it : Iteration) (data : Region) (dataOut : ℤ) : List Region :=
  if it.arg.input && it.arg.isVariable then
    [clip data dataOut (4 * (it.next.indirectCnt + 1)),
      clip data (dataOut + 4 * it.next.indirectCnt) it.arg.outSize]
  else [clip data dataOut it.arg.outSize]

end Iteration

def areasOf (arglist data : Region) : List Iteration → ℤ → ℤ → List Region
  | [], _, _ => []
  | it :: its, args, dataOut =>
    it.slots arglist args ++ it.dataAreas data dataOut ++
      areasOf arglist data its (args + it.width .request) (dataOut + it.reserves)

structure Incoming where
  message : Region
  outOfLine : List Region
  args : ℤ
  dataOut : ℤ
  patchable : List Region

namespace Incoming

def header (q : Incoming) : Space := ⟨q.message :: q.outOfLine, [], []⟩

def areas (q : Incoming) (t : ArgType) : List Region :=
  areasOf ⟨q.args, argListSize⟩ ⟨q.dataOut, dataBufMax⟩ (t.iterations .request) q.args q.dataOut

def space (q : Incoming) (t : ArgType) : Space :=
  ⟨q.message :: q.outOfLine, q.areas t, q.patchable⟩

end Incoming

def unpackRequest (t : Tables) (q : Incoming) (m : Mem) : Outcome (Except Ret (Method × Cursor)) :=
  orReturn (findMethod t q.header m q.message.start) fun (mid, dst) =>
    orReturn (unpackArgs t (q.space mid.argType) .request (mid.argType.iterations .request)
      ⟨m, dst, q.args, q.dataOut⟩) fun c => .ok (.ok (mid, c))

end MachUS.Rpc
