import MachUS.Rpc.Containment

namespace MachUS.Rpc

open Text Memory

inductive Body where
  | data (bs : List UInt8)
  | text (name : Bytes) (length : ℤ)
  | pointer (src : ℤ)

def Body.length : Body → ℤ
  | .data bs => bs.length
  | .text _ length => length
  | .pointer _ => 4

structure Element where
  descriptor : Descriptor
  dealloc : Bool
  body : Body

def Element.length (e : Element) : ℤ := e.descriptor.length + e.body.length

def messageLength (es : List Element) : ℤ := (es.map Element.length).sum

structure Locals where
  obj : ℤ
  robj : Remote
  objPortName : ℤ

structure Packing where
  mem : Mem
  args : ℤ
  locals : Locals
  isSimple : Bool
  elements : List Element

def packRefs (t : Tables) (cls : ClassDesc) : ℕ → ℤ → Mem → Locals → Mem × Locals
  | 0, _, m, l => (m, l)
  | n + 1, src, m, l =>
    let obj := word m src
    if obj = 0 then packRefs t cls n (src + 4) m { l with obj := 0, objPortName := typeCopySend }
    else
      let robj := t.converterToRemote cls obj
      let port := t.getTransferPort robj
      packRefs t cls n (src + 4) (storeWord m src port.1) ⟨obj, robj, port.2⟩

def packObjects (t : Tables) (x : ArgInfo) (number src : ℤ) (m : Mem) (l : Locals) :
    Outcome (Except Ret (Mem × Locals)) :=
  if x.object = false then .ok (.ok (m, l))
  else
    match x.className with
    | none => .error .nullPointer
    | some className =>
      match t.lookupClass className with
      | none => .ok (.error .noSuchOperation)
      | some cls => .ok (.ok (packRefs t cls number.toNat src m l))

namespace Iteration

variable (it : Iteration)

def source (m : Mem) (args : ℤ) : ℤ := follow m it.arg.indirectCnt args

def count (m : Mem) (args : ℤ) : ℤ := signed (word m (follow m it.next.indirectCnt (args + 4)))

def numberToSend (m : Mem) (args : ℤ) : ℤ :=
  if it.arg.isVariable then wrap (it.count m args * it.arg.unitNumber)
  else if it.arg.name = typeString then wrap (strlen m (it.source m args) + 1)
  else it.arg.number

def outOfLine (dir : MsgDirection) (number : ℤ) : Bool :=
  4095 < byteSize number it.arg.size || 4095 < number || it.arg.dealloc ||
    (dir = .request && it.arg.copy) || (dir = .reply && 1 < it.arg.indirectCnt)

def element (outOfLine : Bool) (m : Mem) (name number src : ℤ) : Element :=
  if outOfLine then
    ⟨⟨name, it.arg.size, number, false, true⟩, it.arg.dealloc, .pointer src⟩
  else
    ⟨⟨name, it.arg.size, number, true, false⟩, it.arg.dealloc,
      .data (bytes m src (asSize (byteSize number it.arg.size)))⟩

end Iteration

def textElement (type : ℤ) (name : Bytes) : Element :=
  let number := roundupLong (name.length + 1)
  ⟨⟨type, 8, number, true, false⟩, false, .text name number⟩

def classElements (t : Tables) (x : ArgInfo) (l : Locals) : List Element :=
  if x.object && l.obj ≠ 0 then [textElement typeChar (t.remoteClassName l.robj)] else []

def packArg (t : Tables) (dir : MsgDirection) (it : Iteration) (p : Packing) :
    Outcome (Except Ret Packing) :=
  let src := it.source p.mem p.args
  let number := it.numberToSend p.mem p.args
  orReturn (packObjects t it.arg number src p.mem p.locals) fun (m, l) =>
    let outOfLine := it.outOfLine dir number
    let name := if it.arg.object then l.objPortName else it.arg.name
    .ok (.ok
      { mem := m
        args := p.args + it.width dir
        locals := l
        isSimple := p.isSimple && !outOfLine
        elements := p.elements ++ it.element outOfLine m name number src ::
          classElements t it.arg l })

def packArgs (t : Tables) (dir : MsgDirection) :
    List Iteration → Packing → Outcome (Except Ret Packing)
  | [], p => .ok (.ok p)
  | it :: its, p =>
    if it.arg.present dir then orReturn (packArg t dir it p) (packArgs t dir its)
    else packArgs t dir its { p with args := p.args + it.width dir }

structure Packed where
  id : ℤ
  retval : ℤ
  isSimple : Bool
  elements : List Element
  mem : Mem

def methodElements (mid : Method) : List Element :=
  if mid.argType.msgid = -1 then [textElement typeString mid.methodName] else []

def packRequest (t : Tables) (mid : Method) (l : Locals) (m : Mem) (args : ℤ) :
    Outcome (Except Ret Packed) :=
  orReturn (packArgs t .request (mid.argType.iterations .request)
    ⟨m, args, l, mid.argType.inSimple, methodElements mid⟩) fun p =>
      .ok (.ok ⟨mid.argType.msgid, 0, p.isSimple, p.elements, p.mem⟩)

def packReply (t : Tables) (mid : Method) (l : Locals) (m : Mem) (args retval : ℤ) :
    Outcome (Except Ret Packed) :=
  if retval ≠ 0 then .ok (.ok ⟨-1, retval, true, [], m⟩)
  else
    orReturn (packArgs t .reply (mid.argType.iterations .reply)
      ⟨m, args, l, mid.argType.outSimple, []⟩) fun p =>
        .ok (.ok ⟨-1, retval, p.isSimple, p.elements, p.mem⟩)

def unpackReply (t : Tables) (mid : Method) (sp : Space) (m : Mem) (msg args : ℤ) :
    Outcome (Except Ret (ℤ × Mem)) := do
  let w ← sp.readWord m (msg + 28)
  if signed w ≠ 0 then .ok (.ok (signed w, m))
  else
    orReturn (unpackArgs t sp .reply (mid.argType.iterations .reply)
      ⟨m, msg + replyHeaderSize, args, 0⟩) fun c => .ok (.ok (0, c.mem))

end MachUS.Rpc

namespace MachUS.Rpc

open Text Memory Except

def msgSizeMax : ℤ := 8192

variable (t : Tables) (dir : MsgDirection) (mid : Method) (l : Locals) (m : Mem) (args retval : ℤ)

def writtenArgs : List Iteration → Packing → ℤ
  | [], p => messageLength p.elements
  | it :: its, p =>
    if it.arg.present dir then
      match packArg t dir it p with
      | .ok (.ok p') => writtenArgs its p'
      | _ => messageLength p.elements
    else writtenArgs its { p with args := p.args + it.width dir }

def msgPack : Outcome (Except Ret Packed) :=
  match dir with
  | .request => packRequest t mid l m args
  | .reply => packReply t mid l m args retval

def MsgDirection.headerSize : MsgDirection → ℤ
  | .request => Rpc.headerSize
  | .reply => replyHeaderSize

def msgWritten : ℤ :=
  match dir with
  | .request => writtenArgs t .request (mid.argType.iterations .request)
      ⟨m, args, l, mid.argType.inSimple, methodElements mid⟩
  | .reply => if retval ≠ 0 then 0 else
      writtenArgs t .reply (mid.argType.iterations .reply) ⟨m, args, l, mid.argType.outSimple, []⟩

/-- A message that _msg_pack makes is no longer than the buffer, and nothing is written behind it. -/
structure Bounded : Prop where
  message : ∀ p, msgPack t dir mid l m args retval = .ok (.ok p) →
    dir.headerSize + messageLength p.elements ≤ msgSizeMax
  written : dir.headerSize + msgWritten t dir mid l m args retval ≤ msgSizeMax

def textNeed (name : Bytes) : ℤ := 4 + roundupLong (name.length + 1)

def Iteration.need (it : Iteration) : ℤ :=
  let number := it.numberToSend m args
  if it.outOfLine dir number then 16 else 4 + asSize (byteSize number it.arg.size)

def classNeed (x : ArgInfo) : ℤ :=
  if x.object && l.obj ≠ 0 then textNeed (t.remoteClassName l.robj) else 0

def argNeeds : List Iteration → Mem → ℤ → Locals → ℤ
  | [], _, _, _ => 0
  | it :: its, m, args, l =>
    if it.arg.present dir then
      match packObjects t it.arg (it.numberToSend m args) (it.source m args) m l with
      | .ok (.ok (m', l')) =>
        it.need dir m args + classNeed t l' it.arg + argNeeds its m' (args + it.width dir) l'
      | _ => 0
    else argNeeds its m (args + it.width dir) l

def need : ℤ :=
  match dir with
  | .request => (if mid.argType.msgid = -1 then textNeed mid.methodName else 0) +
      argNeeds t .request (mid.argType.iterations .request) m args l
  | .reply => if retval ≠ 0 then 0 else
      argNeeds t .reply (mid.argType.iterations .reply) m args l

theorem orReturn_eq_ok {α β : Type} {x : Outcome (Except Ret α)} {f : α → Outcome (Except Ret β)}
    {b : β} : orReturn x f = .ok (.ok b) ↔ ∃ a, x = .ok (.ok a) ∧ f a = .ok (.ok b) := by
  rcases x with fault | (ret | a) <;> simp [orReturn]

theorem messageLength_append (es fs : List Element) :
    messageLength (es ++ fs) = messageLength es + messageLength fs := by
  rw [messageLength, List.map_append, List.sum_append]
  rfl

theorem element_length (it : Iteration) (outOfLine : Bool) (name number src : ℤ) :
    (it.element outOfLine m name number src).length =
      if outOfLine then 16 else (4 + asSize (byteSize number it.arg.size) : ℤ) := by
  cases outOfLine with
  | true => rfl
  | false =>
    change (4 : ℤ) + ((bytes m src _).length : ℤ) = _
    rw [bytes, List.length_map, List.length_range]
    rfl

theorem messageLength_singleton (e : Element) : messageLength [e] = e.length := List.sum_singleton

theorem text_length (d : Descriptor) (dealloc : Bool) (name : Bytes) (length : ℤ) :
    Element.length ⟨d, dealloc, .text name length⟩ = d.length + length := rfl

theorem messageLength_text (type : ℤ) (name : Bytes) :
    messageLength [textElement type name] = textNeed name := by
  rw [messageLength_singleton, textElement, text_length]
  rfl

theorem classElements_length (x : ArgInfo) : messageLength (classElements t x l) = classNeed t l x := by
  rw [classElements, classNeed]
  split_ifs
  · exact messageLength_text _ _
  · rfl

variable {t dir} in
theorem writtenArgs_eq (its : List Iteration) (p : Packing) : writtenArgs t dir its p =
    messageLength p.elements + argNeeds t dir its p.mem p.args p.locals := by
  induction its generalizing p with
  | nil => exact (Int.add_zero _).symm
  | cons it its ih =>
    rw [writtenArgs, argNeeds]
    split_ifs with hpresent
    · rw [packArg, orReturn]
      cases hobjects : packObjects t it.arg (it.numberToSend p.mem p.args)
          (it.source p.mem p.args) p.mem p.locals with
      | error fault => exact (Int.add_zero _).symm
      | ok r =>
        cases r with
        | error ret => exact (Int.add_zero _).symm
        | ok q =>
          refine (ih _).trans ?_
          rw [messageLength_append, ← List.singleton_append, messageLength_append,
            messageLength_singleton, classElements_length, element_length, Iteration.need, Int.add_assoc]
    · exact ih _

theorem packArgs_written {its : List Iteration} {p q : Packing}
    (h : packArgs t dir its p = .ok (.ok q)) :
    writtenArgs t dir its p = messageLength q.elements := by
  induction its generalizing p with
  | nil =>
    cases ok.inj h
    rfl
  | cons it its ih =>
    rw [packArgs] at h
    rw [writtenArgs]
    split_ifs at h ⊢
    · obtain ⟨r, hr, h⟩ := orReturn_eq_ok.mp h
      rw [hr]
      exact ih h
    · exact ih h

theorem message_eq {p : Packed} (h : msgPack t dir mid l m args retval = .ok (.ok p)) :
    messageLength p.elements = msgWritten t dir mid l m args retval := by
  cases dir with
  | request =>
    obtain ⟨q, hq, h⟩ := orReturn_eq_ok.mp h
    cases ok.inj h
    exact (packArgs_written _ _ hq).symm
  | reply =>
    simp only [msgPack, packReply] at h
    rw [msgWritten]
    split_ifs at h ⊢
    · cases ok.inj h
      rfl
    · obtain ⟨q, hq, h⟩ := orReturn_eq_ok.mp h
      cases ok.inj h
      exact (packArgs_written _ _ hq).symm

theorem methodElements_length : messageLength (methodElements mid) =
    if mid.argType.msgid = -1 then textNeed mid.methodName else 0 := by
  rw [methodElements]
  split_ifs
  · exact messageLength_text _ _
  · rfl

theorem msgWritten_eq : msgWritten t dir mid l m args retval = need t dir mid l m args retval := by
  cases dir with
  | request => rw [msgWritten, need, writtenArgs_eq, methodElements_length]
  | reply =>
    rw [msgWritten, need, writtenArgs_eq]
    split_ifs
    · rfl
    · exact Int.zero_add _

theorem message_bounded_iff : Bounded t dir mid l m args retval ↔
    dir.headerSize + need t dir mid l m args retval ≤ msgSizeMax := by
  rw [← msgWritten_eq]
  refine ⟨Bounded.written, fun h => ⟨fun p hp => ?_, h⟩⟩
  rw [message_eq _ _ _ _ _ _ _ hp]
  exact h

namespace Sample

def arrays : Method where
  methodName := []
  argType :=
    { msgid := 5, sizeArgs := 12, rpc := false, interruptible := false, timeout := 0
      inSimple := true, outSimple := true, after := ArgInfo.zero
      args := List.replicate 3 { ArgInfo.fresh with
        name := typeChar, size := 8, number := 4000, indirectCnt := 1, input := true, argSize := 4 } }

end Sample

theorem three_arrays_overrun :
    ¬Bounded Sample.tables .request Sample.arrays ⟨0, 0, 0⟩ (fun _ => 0) 100 0 := by
  rw [message_bounded_iff]
  decide +kernel

end MachUS.Rpc
