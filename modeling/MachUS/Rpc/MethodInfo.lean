import MachUS.Foundation.Program
import MachUS.Foundation.Text

namespace MachUS.Rpc

open Text

inductive Trap where
  | outOfBounds
  | nullPointer
  | divideByZero
  | endlessLoop
  | argOverrun
  | classOverrun
  deriving DecidableEq, Repr

abbrev Outcome := Except Trap

def wrap (z : ℤ) : ℤ := z.bmod (2 ^ 32)

def roundupLong (v : ℤ) : ℤ := wrap (v + 3) - wrap (v + 3) % 4

def byteSize (number size : ℤ) : ℤ := roundupLong (wrap (wrap (number * size) + 7) / 8)

def maxArgs : ℕ := 16

def classStrSize : ℕ := 128

def typeUnstructured : ℤ := 0

def typeInteger16 : ℤ := 1

def typeInteger32 : ℤ := 2

def typeChar : ℤ := 8

def typeByte : ℤ := 9

def typeReal : ℤ := 10

def typeString : ℤ := 12

def typeMoveReceive : ℤ := 16

def typeMoveSend : ℤ := 17

def typeMoveSendOnce : ℤ := 18

def typeCopySend : ℤ := 19

def typeMakeSend : ℤ := 20

def typeMakeSendOnce : ℤ := 21

def portAny (x : ℤ) : Bool := typeMoveReceive ≤ x && x ≤ typeMakeSendOnce

structure ArgInfo where
  className : Option Bytes
  name : ℤ
  size : ℤ
  number : ℤ
  unitNumber : ℤ
  indirectCnt : ℕ
  input : Bool
  output : Bool
  isVariable : Bool
  dealloc : Bool
  copy : Bool
  object : Bool
  argSize : ℤ
  outSize : ℤ
  elements : ℤ
  deriving DecidableEq

structure ArgType where
  msgid : ℤ
  sizeArgs : ℤ
  rpc : Bool
  interruptible : Bool
  timeout : ℤ
  inSimple : Bool
  outSimple : Bool
  args : List ArgInfo
  after : ArgInfo
  deriving DecidableEq

namespace ArgInfo

def zero : ArgInfo :=
  ⟨none, 0, 0, 0, 0, 0, false, false, false, false, false, false, 0, 0, 0⟩

def fresh : ArgInfo :=
  { zero with name := typeInteger32, size := 32, number := 1, unitNumber := 1, elements := 1 }

def sized (x : ArgInfo) : ArgInfo :=
  match x.indirectCnt with
  | 0 => { x with argSize := byteSize x.number x.size, outSize := 0 }
  | 1 => { x with argSize := 4, outSize := byteSize x.number x.size }
  | 2 => { x with argSize := 4, outSize := 4 }
  | _ => x

end ArgInfo

structure Parsing where
  type : ArgType
  cur : ArgInfo
  isSimple : Bool
  hasNumber : Bool

namespace Parsing

def start : Parsing where
  type := ⟨-1, 0, false, false, 0, true, true, [], ArgInfo.zero⟩
  cur := ArgInfo.fresh
  isSimple := true
  hasNumber := false

def withCur (p : Parsing) (x : ArgInfo) : Parsing := { p with cur := x }

def close (p : Parsing) : ArgType :=
  { p.type with
    inSimple := p.type.inSimple && (p.isSimple || !p.cur.input)
    outSimple := p.type.outSimple && (p.isSimple || !p.cur.output)
    sizeArgs := wrap (p.type.sizeArgs + p.cur.sized.argSize)
    args := p.type.args ++ [p.cur.sized] }

end Parsing

def isStop (c : UInt8) : Bool := [37, 44, 91, 59, 32, 58, 60, 42, 40].contains c

def parseRest (s : Bytes) : Bytes := s.dropWhile fun c => !isStop c

def skipSpaces (s : Bytes) : Bytes := s.dropWhile (· == 32)

def parseNumber : ℤ → Bytes → ℤ × Bytes
  | result, [] => (result, [])
  | result, c :: s =>
    if isDigit c then parseNumber (wrap (result * 10 + (c.toNat - 48))) s else (result, c :: s)

def endsClass (c : UInt8) : Bool := [37, 59, 44, 62].contains c

def parseClass : Bytes → Bytes → Outcome (Option Bytes × Bytes)
  | str, s =>
    match s with
    | [] => .ok (if str = [] then none else some str, [])
    | c :: s =>
      if endsClass c then .ok (if str = [] then none else some str, c :: s)
      else if c = 42 then parseClass str s
      else if str.length + 1 < classStrSize then parseClass (str ++ [c]) s
      else .error .classOverrun

-- The texts "(MAKE_SEND)", "(MAKE_SEND_ONCE)", "(MOVE_SEND)", "(MOVE_SEND_ONCE)", "(COPY_SEND)"
-- and "(MOVE_RECEIVE)" in the order they are tried.
def portRights : List (Bytes × ℤ) :=
  [([40, 77, 65, 75, 69, 95, 83, 69, 78, 68, 41], typeMakeSend),
    ([40, 77, 65, 75, 69, 95, 83, 69, 78, 68, 95, 79, 78, 67, 69, 41], typeMakeSendOnce),
    ([40, 77, 79, 86, 69, 95, 83, 69, 78, 68, 41], typeMoveSend),
    ([40, 77, 79, 86, 69, 95, 83, 69, 78, 68, 95, 79, 78, 67, 69, 41], typeMoveSendOnce),
    ([40, 67, 79, 80, 89, 95, 83, 69, 78, 68, 41], typeCopySend),
    ([40, 77, 79, 86, 69, 95, 82, 69, 67, 69, 73, 86, 69, 41], typeMoveReceive)]

def parsePortRight (s : Bytes) : ℤ × Bytes :=
  match portRights.find? fun e => e.1.isPrefixOf s with
  | some e => (e.2, s.drop e.1.length)
  | none => (typeMakeSend, s)

inductive Letter where
  | star
  | input
  | copy
  | output
  | dealloc
  | msgid
  | rpc
  | element (name size : ℤ)
  | object
  | bracket
  | string
  | port
  | right
  | blank
  | separator
  | other

def letters : List (UInt8 × Letter) :=
  [(42, .star), (73, .input), (67, .copy), (79, .output), (68, .dealloc), (100, .dealloc),
    (75, .msgid), (107, .msgid), (82, .rpc), (114, .rpc), (99, .element typeChar 8),
    (102, .element typeReal 32), (105, .element typeInteger32 32), (111, .object),
    (119, .element typeInteger16 16), (117, .element typeUnstructured 32),
    (98, .element typeByte 8), (91, .bracket), (115, .string), (112, .port), (40, .right),
    (32, .blank), (58, .blank), (37, .separator), (59, .separator), (44, .separator)]

def letterOf (c : UInt8) : Letter := (letters.lookup c).getD .other

inductive Parsed where
  | done (result : Option ArgType)
  | more (rest : Bytes) (p : Parsing)

namespace Parsing

def indirect (p : Parsing) (s : Bytes) : Parsed :=
  if 2 ≤ p.cur.indirectCnt then .done none
  else .more (parseRest s) (p.withCur { p.cur with indirectCnt := p.cur.indirectCnt + 1 })

def number (p : Parsing) (s : Bytes) : Parsed :=
  if p.hasNumber then
    let (n, s) := parseNumber 0 s
    .more (parseRest s) (p.withCur { p.cur with
      unitNumber := n
      number := wrap (p.cur.number * n)
      elements := p.cur.elements * n })
  else
    match s with
    | 42 :: 58 :: s =>
      let (n, s) := parseNumber 0 s
      .more (parseRest s)
        { p with hasNumber := true, cur := { p.cur with isVariable := true, number := n } }
    | 42 :: s =>
      .more (parseRest s) { p with hasNumber := true, cur := { p.cur with isVariable := true } }
    | s =>
      let (n, s) := parseNumber 0 s
      .more (parseRest s)
        { p with hasNumber := true, cur := { p.cur with number := n, elements := n } }

def messageId (p : Parsing) (s : Bytes) : Parsed :=
  match skipSpaces (parseRest s) with
  | 60 :: s =>
    let (n, s) := parseNumber 0 s
    .more (parseRest s) { p with type := { p.type with msgid := n } }
  | _ => .done none

def skipIntr (s : Bytes) : Bool × Bytes :=
  match s with
  | c :: t => if c = 105 ∨ c = 73 then (true, skipSpaces (parseRest (c :: t))) else (false, c :: t)
  | [] => (false, [])

def remoteCall (p : Parsing) (s : Bytes) : Parsed :=
  let (intr, s) := skipIntr (skipSpaces (parseRest s))
  let (timeout, s) :=
    match s with
    | 60 :: s =>
      let (n, s) := parseNumber 0 s
      (n, parseRest s)
    | s => (p.type.timeout, s)
  let (intr', s) := skipIntr s
  .more s { p with type := { p.type with
    rpc := true
    interruptible := p.type.interruptible || intr || intr'
    timeout := timeout } }

def object (p : Parsing) (s : Bytes) : Outcome Parsed :=
  match skipSpaces (parseRest s) with
  | 60 :: s => do
    let (name, s) ← parseClass [] s
    .ok (.more (parseRest s) { p with
      isSimple := false
      cur := { p.cur with object := true, name := typeMakeSend, size := 32, className := name } })
  | _ => .ok (.done none)

def separator (p : Parsing) (s : Bytes) : Outcome Parsed :=
  if p.close.args.length < maxArgs then .ok (.more s ⟨p.close, ArgInfo.fresh, true, false⟩)
  else .error .argOverrun

def finish (p : Parsing) : ArgType :=
  if p.cur.input || p.cur.output then { p.close with after := ArgInfo.zero }
  else { p.type with after := p.cur }

def element (p : Parsing) (name size : ℤ) : Parsing :=
  p.withCur { p.cur with name := name, size := size }

def step (p : Parsing) : Bytes → Outcome Parsed
  | [] => .ok (.done (some p.finish))
  | c :: s =>
    match letterOf c with
    | .star => .ok (p.indirect s)
    | .input => .ok (.more (parseRest s) (p.withCur { p.cur with input := true }))
    | .copy => .ok (.more (parseRest s) (p.withCur { p.cur with copy := true }))
    | .output => .ok (.more (parseRest s) (p.withCur { p.cur with output := true }))
    | .dealloc => .ok (.more (parseRest s) (p.withCur { p.cur with dealloc := true }))
    | .msgid => .ok (p.messageId s)
    | .rpc => .ok (p.remoteCall s)
    | .element name size => .ok (.more (parseRest s) (p.element name size))
    | .object => p.object s
    | .bracket => .ok (p.number s)
    | .string => .ok (.more (parseRest s) (p.withCur
        { p.cur with indirectCnt := p.cur.indirectCnt + 1, name := typeString, size := 8 }))
    | .port => .ok (.more (parseRest s) { p.element typeMakeSend 32 with isSimple := false })
    | .right =>
      let (right, s) := parsePortRight (c :: s)
      .ok (.more (parseRest s) (p.withCur { p.cur with name := right }))
    | .blank => .ok (.more s p)
    | .separator => p.separator s
    | .other => .ok (.more (parseRest (c :: s)) p)

def loop : ℕ → Parsing → Bytes → Outcome (Option ArgType)
  | 0, _, _ => .error .endlessLoop
  | fuel + 1, p, s => do
    match ← p.step s with
    | .done result => .ok result
    | .more s p => loop fuel p s

end Parsing

def parseArgInfo (typeInfo : Bytes) : Outcome (Option ArgType) :=
  if typeInfo = [] then .ok none else Parsing.start.loop (typeInfo.length + 1) typeInfo

end MachUS.Rpc

