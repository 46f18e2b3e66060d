import MachUS.Io.ByteStream

namespace MachUS

open Word UInt16

namespace Io.Dlong

def ofUInt (x : ℕ) : Dlong := ⟨0, 0, ofNat (x / 2 ^ 16), ofNat x⟩

def toUInt (x : Dlong) : ℕ := x.d2.toNat * 2 ^ 16 + x.d3.toNat

-- One digit of DLONG_SUB, in an accumulator of 32 bits.
def subDigit (x y : UInt16) (borrow : Bool) : ℕ :=
  sub (sub x.toNat y.toNat) (if borrow then 1 else 0)

def borrows (ac : ℕ) : Bool := ac / 2 ^ 16 ≠ 0

def sub (x y : Dlong) : Dlong :=
  let ac3 := subDigit x.d3 y.d3 false
  let ac2 := subDigit x.d2 y.d2 (borrows ac3)
  let ac1 := subDigit x.d1 y.d1 (borrows ac2)
  let ac0 := subDigit x.d0 y.d0 (borrows ac1)
  ⟨ofNat ac0, ofNat ac1, ofNat ac2, ofNat ac3⟩

def negative (x : Dlong) : Bool := 2 ^ 15 ≤ x.d0.toNat

def cmpDigits : List (UInt16 × UInt16) → ℤ
  | [] => 0
  | (a, b) :: ds => if a ≠ b then if b.toNat < a.toNat then 1 else -1 else cmpDigits ds

def cmp (x y : Dlong) : ℤ :=
  if x.negative ≠ y.negative then if x.negative then -1 else 1
  else cmpDigits [(x.d0, y.d0), (x.d1, y.d1), (x.d2, y.d2), (x.d3, y.d3)]

end Io.Dlong

namespace Mapped

open Memory
open Io (Dlong)

structure PageSize where
  bits : ℕ
  small : bits ≤ 31

namespace PageSize

variable (p : PageSize)

def size : ℕ := 2 ^ p.bits

def trunc (x : ℕ) : ℕ := x - x % p.size

def round (x : ℕ) : ℕ := p.trunc (add x (p.size - 1))

end PageSize

def defaultWinSize : ℕ := 4096 * 64

structure IoMode where
  probe : Bool
  truncate : Bool
  deriving DecidableEq

structure Rights where
  read : Bool
  write : Bool
  getattr : Bool

inductive IoError where
  | invalidAccess
  | invalidOffset
  | invalidSize
  | objectBusy
  | kernel (code : ℕ)
  deriving DecidableEq

structure Window where
  addr : ℕ
  size : ℕ
  start : ℕ
  deriving DecidableEq

def Window.Holds (w : Window) (a n : ℕ) : Prop := w.addr ≤ a ∧ a + n ≤ w.addr + w.size

instance (w : Window) (a n : ℕ) : Decidable (w.Holds a n) := inferInstanceAs (Decidable (_ ∧ _))

structure Space where
  object : Mem
  live : List Window
  mapped : List Window
  unmapped : List Window
  faulted : Bool

namespace Space

variable (x : Space)

def Free (a n : ℕ) : Prop :=
  a + n < 2 ^ 32 ∧ ∀ w ∈ x.live, a + n ≤ w.addr ∨ w.addr + w.size ≤ a

instance (a n : ℕ) : Decidable (x.Free a n) := inferInstanceAs (Decidable (_ ∧ _))

def map (w : Window) : Space := { x with live := w :: x.live, mapped := w :: x.mapped }

def deallocate (a n : ℕ) : Space :=
  match x.live.find? fun w => w.addr = a ∧ w.size = n with
  | none => { x with faulted := true }
  | some w => { x with live := x.live.erase w, unmapped := w :: x.unmapped }

def fetch (a n : ℕ) : Space × List UInt8 :=
  match x.live.find? fun w => w.Holds a n with
  | none => ({ x with faulted := true }, [])
  | some w => (x, bytes x.object (w.start + (a - w.addr) : ℕ) n)

def store (a : ℕ) (data : List UInt8) : Space :=
  match x.live.find? fun w => w.Holds a data.length with
  | none => { x with faulted := true }
  | some w => { x with object := Memory.store x.object (w.start + (a - w.addr) : ℕ) data }

end Space

inductive Request where
  | read (mode : IoMode) (start : Dlong) (num : ℕ)
  | write (mode : IoMode) (start : Dlong) (data : List UInt8)
  | append (mode : IoMode) (data : List UInt8)
  | setSize (size : Dlong)
  | getSize
  | unmapWindow
  | clean

inductive Reply where
  | failed (e : IoError)
  | moved (num : ℕ) (data : List UInt8)
  | size (s : ℕ)
  | done
  | cleaned (dirty : Bool) (size : ℕ)
  deriving DecidableEq

structure Event where
  request : Request
  answer : Except ℕ ℕ

structure MfMem where
  access : Rights
  objSize : Dlong
  winvalid : Bool
  winaddr : ℕ
  winsize : ℕ
  winstart : Dlong
  cleaning : Bool
  modified : Bool
  dirty : Bool
  space : Space

namespace MfMem

def startMgr (size : Dlong) (object : Mem) : MfMem where
  access := ⟨true, true, true⟩
  objSize := size
  winvalid := false
  winaddr := 0
  winsize := 0
  winstart := .zero
  cleaning := false
  modified := false
  dirty := false
  space := ⟨object, [], [], [], false⟩

variable (p : PageSize) (x : MfMem)

def withinWindow (winstart : Dlong) (wsize rstart rsize : ℕ) : Bool :=
  winstart.toUInt ≤ rstart && add rstart rsize ≤ add winstart.toUInt wsize

def winSize (s n : ℕ) : ℕ :=
  max (sub (p.round (add s n)) (p.trunc s)) defaultWinSize

def stale (s n : ℕ) : Option (ℕ × ℕ) :=
  if x.winvalid && !withinWindow x.winstart x.winsize s n then some (x.winaddr, x.winsize) else none

def close (old : Option (ℕ × ℕ)) : MfMem :=
  match old with
  | none => x
  | some (a, n) => { x with space := x.space.deallocate a n }

def install (s n a : ℕ) : MfMem :=
  { x with
    winvalid := true
    winaddr := a
    winsize := winSize p s n
    winstart := .ofUInt (p.trunc s)
    space := x.space.map ⟨a, winSize p s n, p.trunc s⟩ }

def withWindow (s n : ℕ) (answer : Except ℕ ℕ) (copy : MfMem → ℕ → MfMem × Reply) :
    Option (MfMem × Reply) :=
  let old := x.stale s n
  if x.winvalid && old.isNone then
    some (copy x (add x.winaddr (sub s x.winstart.toUInt)))
  else
    match answer with
    | .error k => some ({ x with winvalid := false }.close old, .failed (.kernel k))
    | .ok a =>
      if x.space.Free a (winSize p s n) then
        let done := copy (x.install p s n a) (add a (sub s (p.trunc s)))
        some (done.1.close old, done.2)
      else none

def fetch (n : ℕ) (x : MfMem) (a : ℕ) : MfMem × Reply :=
  ({ x with space := (x.space.fetch a n).1 }, .moved n (x.space.fetch a n).2)

def ioRead (mode : IoMode) (start : Dlong) (num : ℕ) (answer : Except ℕ ℕ) :
    Option (MfMem × Reply) :=
  let endSize := start.addLong num
  let n := if 0 < endSize.cmp x.objSize then (x.objSize.sub start).toUInt else num
  if x.access.read = false then some (x, .failed .invalidAccess)
  else if 0 ≤ start.cmp x.objSize then some (x, .failed .invalidOffset)
  else if 0 < endSize.cmp x.objSize ∧ mode.truncate = false then some (x, .failed .invalidSize)
  else if mode.probe then some (x, .moved n [])
  else x.withWindow p start.toUInt n answer (fetch n)

def store (data : List UInt8) (size : Dlong) (x : MfMem) (a : ℕ) : MfMem × Reply :=
  ({ x with space := x.space.store a data, modified := true, dirty := true, objSize := size },
    .moved data.length [])

def ioStore (mode : IoMode) (s : ℕ) (data : List UInt8) (size : Dlong) (answer : Except ℕ ℕ) :
    Option (MfMem × Reply) :=
  if x.access.write = false then some (x, .failed .invalidAccess)
  else if mode.probe then some (x, .moved data.length [])
  else x.withWindow p s data.length answer (store data size)

def ioWrite (mode : IoMode) (start : Dlong) (data : List UInt8) (answer : Except ℕ ℕ) :
    Option (MfMem × Reply) :=
  let endSize := start.addLong data.length
  x.ioStore p mode start.toUInt data (if 0 < endSize.cmp x.objSize then endSize else x.objSize)
    answer

def ioAppend (mode : IoMode) (data : List UInt8) (answer : Except ℕ ℕ) : Option (MfMem × Reply) :=
  x.ioStore p mode x.objSize.toUInt data (x.objSize.addLong data.length) answer

def ioSetSize (size : Dlong) : MfMem × Reply :=
  if x.access.write = false then (x, .failed .invalidAccess)
  else ({ x with objSize := size, modified := true, dirty := true }, .done)

def ioGetSize : MfMem × Reply :=
  if x.access.read = false ∧ x.access.getattr = false then (x, .failed .invalidAccess)
  else (x, .size x.objSize.value)

def ioUnmapWindow : MfMem :=
  if x.winvalid then
    { x with winvalid := false, winaddr := 0, space := x.space.deallocate x.winaddr x.winsize }
  else x

def ioClean : MfMem × Reply :=
  if x.cleaning then (x, .failed .objectBusy)
  else ({ x with cleaning := false, dirty := false }, .cleaned x.dirty x.objSize.value)

def serve (e : Event) : Option (MfMem × Reply) :=
  match e.request with
  | .read mode start num => x.ioRead p mode start num e.answer
  | .write mode start data => x.ioWrite p mode start data e.answer
  | .append mode data => x.ioAppend p mode data e.answer
  | .setSize size => some (x.ioSetSize size)
  | .getSize => some x.ioGetSize
  | .unmapWindow => some (x.ioUnmapWindow, .done)
  | .clean => some x.ioClean

def run : MfMem → List Event → Option (MfMem × List Reply)
  | x, [] => some (x, [])
  | x, e :: es =>
    (x.serve p e).bind fun y => (run y.1 es).map fun z => (z.1, y.2 :: z.2)

end MfMem

end Mapped

end MachUS
