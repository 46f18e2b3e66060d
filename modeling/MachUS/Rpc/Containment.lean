import MachUS.Rpc.Marshal

namespace MachUS.Rpc

open Text Memory Outcome Space

def Terminated (sp : Space) (m : Mem) (a : ℤ) : Prop :=
  ∃ r, sp.readable.find? (fun r => r.start ≤ a && a < r.start + r.length) = some r ∧
    0 ∈ bytes m a (r.start + r.length - a).toNat

def stringAt (sp : Space) (m : Mem) (a : ℤ) : Bytes := ((sp.readString m a).toOption).getD []

def DescriptorFits (sp : Space) (m : Mem) (dst : ℤ) : Prop :=
  Covered sp.readable dst 4 ∧
    (isLong (word m dst) = true →
      Covered sp.readable (dst + 4) 4 ∧ Covered sp.readable (dst + 8) 4)

def CellsFit (sp : Space) : ℕ → ℤ → Prop
  | 0, _ => True
  | n + 1, numPtr => Covered sp.writable (numPtr + 4) 4 ∧ CellsFit sp n (numPtr + 4)

def CountFits (sp : Space) (it : Iteration) (c : Cursor) : Prop :=
  it.arg.isVariable = true → it.arg.unitNumber ≠ 0 →
    Covered sp.writable c.dataOut 4 ∧ CellsFit sp it.next.indirectCnt c.dataOut ∧
      Covered sp.writable (c.args + 4) 4

def RefsFit (t : Tables) (sp : Space) (cls : ClassDesc) (className : ℤ) : ℕ → ℤ → Mem → Prop
  | 0, _, _ => True
  | n + 1, dptr, m =>
    Covered sp.readable dptr 4 ∧
      if word m dptr = 0 then RefsFit t sp cls className n (dptr + 4) m
      else
        match t.lookupExternalPort (word m dptr) with
        | some robj =>
          Covered sp.patchable dptr 4 ∧
            RefsFit t sp cls className n (dptr + 4) (storeWord m dptr (t.castdown robj cls))
        | none =>
          Terminated sp m className ∧
            ∀ c ∈ t.lookupClass (stringAt sp m className),
              Covered sp.patchable dptr 4 ∧
                RefsFit t sp cls className n (dptr + 4)
                  (storeWord m dptr (t.virtualConstructor c (word m dptr) cls))

def ObjectsFit (t : Tables) (sp : Space) (x : ArgInfo) (msgNum dptr next : ℤ) (m : Mem) : Prop :=
  x.object = true → ∀ className ∈ x.className, ∀ cls ∈ t.lookupClass className,
    Covered sp.readable dptr 4 ∧
      if word m dptr ≠ 0 then
        Covered sp.readable next 4 ∧ RefsFit t sp cls (next + 4) msgNum.toNat dptr m
      else RefsFit t sp cls 0 msgNum.toNat dptr m

def PlaceFits (sp : Space) (x : ArgInfo) (dptr dataSize : ℤ) (c : Cursor) : Prop :=
  match x.indirectCnt with
  | 0 => Covered sp.readable dptr (asSize dataSize) ∧ Covered sp.writable c.args (asSize dataSize)
  | 1 =>
    Covered sp.writable c.args 4 ∧ (x.output = true →
      Covered sp.readable dptr (asSize dataSize) ∧
        Covered sp.writable c.dataOut (asSize dataSize))
  | 2 => Covered sp.writable c.args 4 ∧ Covered sp.writable c.dataOut 4
  | _ => True

def SkipFits (sp : Space) (it : Iteration) (c : Cursor) : Prop :=
  it.arg.output = true → Covered sp.writable c.args 4 ∧
    (it.takesNext .request = true → Covered sp.writable (c.args + it.arg.argSize) 4)

def dataPtr (d : Descriptor) (m : Mem) (data : ℤ) : ℤ :=
  if d.isInline then data else word m data

structure ArgFits (t : Tables) (sp : Space) (it : Iteration) (d : Descriptor) (dptr next : ℤ)
    (c : Cursor) : Prop where
  located : d.isInline = false → Covered sp.readable (c.dst + d.length) 4
  count : CountFits sp it c
  objects : ∀ c₁, setCount sp .request it d.number c = .ok c₁ →
    ObjectsFit t sp it.arg d.number dptr next c₁.mem
  placed : ∀ c₁ tr, setCount sp .request it d.number c = .ok c₁ →
    translate t sp it.arg d.number dptr next c₁.mem = .ok (.ok tr) →
    PlaceFits sp it.arg dptr (byteSize d.number d.size) c₁

def elementEnd (d : Descriptor) (data : ℤ) : ℤ :=
  data + if d.isInline then byteSize d.number d.size else 4

def ArgsFit (t : Tables) (sp : Space) : List Iteration → Cursor → Prop
  | [], _ => True
  | it :: its, c =>
    let d := descriptorAt c.mem c.dst
    if it.arg.input then
      (DescriptorFits sp c.mem c.dst ∧ (d.mismatches it.arg = false → ArgFits t sp it d
        (dataPtr d c.mem (c.dst + d.length)) (elementEnd d (c.dst + d.length)) c)) ∧
        ∀ c', unpackArg t sp .request it c = .ok (.ok c') → ArgsFit t sp its c'
    else SkipFits sp it c ∧ ∀ c', skipArg sp .request it c = .ok c' → ArgsFit t sp its c'

namespace Space

variable {sp : Space} {m : Mem} {a b w n : ℤ} {α : Type}

@[simp] theorem avoids_readWord {f : ℤ → Outcome α} :
    Avoids .outOfBounds (sp.readWord m a >>= f) ↔
      Covered sp.readable a 4 ∧ Avoids .outOfBounds (f (word m a)) := by
  rw [readWord]
  split_ifs with h <;> simp [h]

variable {f : Mem → Outcome α}

@[simp] theorem avoids_writeWord :
    Avoids .outOfBounds (sp.writeWord m a w >>= f) ↔
      Covered sp.writable a 4 ∧ Avoids .outOfBounds (f (storeWord m a w)) := by
  rw [writeWord]
  split_ifs with h <;> simp [h]

@[simp] theorem avoids_patchWord :
    Avoids .outOfBounds (sp.patchWord m a w >>= f) ↔
      Covered sp.patchable a 4 ∧ Avoids .outOfBounds (f (storeWord m a w)) := by
  rw [patchWord]
  split_ifs with h <;> simp [h]

@[simp] theorem avoids_bcopy :
    Avoids .outOfBounds (sp.bcopy m a b n >>= f) ↔
      (Covered sp.readable a (asSize n) ∧ Covered sp.writable b (asSize n)) ∧
        Avoids .outOfBounds (f (store m b (bytes m a (asSize n)))) := by
  rw [bcopy]
  split_ifs with h <;> simp [h]

theorem readString_cases (sp : Space) (m : Mem) (a : ℤ) :
    (sp.readString m a = .ok (stringAt sp m a) ∧ Terminated sp m a) ∨
      (sp.readString m a = .error .outOfBounds ∧ ¬Terminated sp m a) := by
  rw [stringAt, readString, Terminated]
  split
  · rename_i h
    exact Or.inr ⟨rfl, by simp [h]⟩
  · rename_i r h
    simp only [h, Option.some.injEq, exists_eq_left']
    split_ifs with h0
    · exact Or.inl ⟨rfl, h0⟩
    · exact Or.inr ⟨rfl, h0⟩

@[simp] theorem avoids_readString {f : Bytes → Outcome α} :
    Avoids .outOfBounds (sp.readString m a >>= f) ↔
      Terminated sp m a ∧ Avoids .outOfBounds (f (stringAt sp m a)) := by
  rcases readString_cases sp m a with ⟨hs, h⟩ | ⟨hs, h⟩ <;> simp [hs, h]

end Space

variable {t : Tables} {sp : Space} {m : Mem} {α : Type}

theorem avoids_readDescriptor {dst : ℤ} {f : Descriptor → Outcome α} :
    Avoids .outOfBounds (readDescriptor sp m dst >>= f) ↔
      DescriptorFits sp m dst ∧ Avoids .outOfBounds (f (descriptorAt m dst)) := by
  rw [readDescriptor, DescriptorFits]
  by_cases h : isLong (word m dst) = true
  · simp [h, bind_assoc]
    tauto
  · simp [h, bind_assoc]

def withCells (m : Mem) : ℕ → ℤ → Mem
  | 0, _ => m
  | n + 1, numPtr => withCells (storeWord m (numPtr + 4) numPtr) n (numPtr + 4)

theorem avoids_countCells {n : ℕ} {numPtr : ℤ} {f : Mem × ℤ → Outcome α} :
    Avoids .outOfBounds (countCells sp m n numPtr >>= f) ↔
      CellsFit sp n numPtr ∧ Avoids .outOfBounds (f (withCells m n numPtr, numPtr + 4 * n)) := by
  induction n generalizing m numPtr with
  | zero => simp [countCells, CellsFit, withCells]
  | succ n ih =>
    have hend : numPtr + 4 + 4 * (n : ℤ) = numPtr + 4 * ((n + 1 : ℕ) : ℤ) := by
      push_cast
      ring
    rw [countCells, bind_assoc, avoids_writeWord, CellsFit, withCells, ih, hend, and_assoc]

variable {c : Cursor} {it : Iteration}

theorem avoids_setCount {n : ℤ} :
    Avoids .outOfBounds (setCount sp .request it n c) ↔ CountFits sp it c := by
  rw [setCount, CountFits]
  cases hv : it.arg.isVariable with
  | false => simp
  | true =>
    by_cases hu : it.arg.unitNumber = 0
    · simp [hu]
    · simp [hu, avoids_countCells]

theorem avoids_translateRefs {cls : ClassDesc} {className : ℤ} {n : ℕ} {dptr : ℤ} :
    Avoids .outOfBounds (translateRefs t sp cls className n dptr m) ↔
      RefsFit t sp cls className n dptr m := by
  induction n generalizing dptr m with
  | zero => simp [translateRefs, RefsFit]
  | succ n ih =>
    rw [translateRefs, avoids_readWord, RefsFit]
    refine and_congr_right fun _ => ?_
    by_cases h0 : word m dptr = 0
    · simp [h0, ih]
    · simp only [h0, if_false]
      cases hport : t.lookupExternalPort (word m dptr) with
      | some robj => simp [ih]
      | none =>
        simp only [avoids_readString]
        refine and_congr_right fun _ => ?_
        cases hclass : t.lookupClass (stringAt sp m className) with
        | none => simp
        | some c => simp [ih]

theorem avoids_orReturn {β : Type} {x : Outcome (Except Ret α)}
    {f : α → Outcome (Except Ret β)} :
    Avoids .outOfBounds (orReturn x f) ↔
      Avoids .outOfBounds x ∧ ∀ a, x = .ok (.ok a) → Avoids .outOfBounds (f a) := by
  rw [orReturn, Avoids.bind_iff]
  refine and_congr_right fun _ => ⟨fun h a ha => h _ ha, fun h r hr => ?_⟩
  cases r with
  | error ret => simp
  | ok a => exact h a hr

theorem avoids_translate {x : ArgInfo} {msgNum dptr next : ℤ} :
    Avoids .outOfBounds (translate t sp x msgNum dptr next m) ↔
      ObjectsFit t sp x msgNum dptr next m := by
  rw [translate, ObjectsFit]
  cases ho : x.object with
  | false => simp
  | true =>
    cases hn : x.className with
    | none => simp
    | some className =>
      cases hc : t.lookupClass className with
      | none => simp [hc]
      | some cls =>
        simp only [Bool.true_eq_false, if_false, avoids_readWord, true_imp_iff,
          Option.mem_def, Option.some.injEq, forall_eq', hc]
        refine and_congr_right fun _ => ?_
        split_ifs
        · simp [avoids_orReturn, avoids_translateRefs]
        · simp [avoids_orReturn, avoids_translateRefs]

theorem avoids_place {x : ArgInfo} {dptr dataSize : ℤ} :
    Avoids .outOfBounds (place sp .request x dptr dataSize c) ↔ PlaceFits sp x dptr dataSize c := by
  rw [place, PlaceFits]
  match x.indirectCnt with
  | 0 => simp
  | 1 => cases x.output <;> simp
  | 2 => simp
  | n + 3 => simp

theorem avoids_skipArg : Avoids .outOfBounds (skipArg sp .request it c) ↔ SkipFits sp it c := by
  rw [skipArg, SkipFits]
  cases ho : it.arg.output with
  | false => simp
  | true => cases hn : it.takesNext .request <;> simp

theorem avoids_locate {d : Descriptor} {data : ℤ} {f : ℤ → Outcome α} :
    Avoids .outOfBounds (locate sp d m data >>= f) ↔
      (d.isInline = false → Covered sp.readable data 4) ∧
        Avoids .outOfBounds (f (dataPtr d m data)) := by
  rw [locate, dataPtr]
  cases d.isInline <;> simp

theorem avoids_unpackArg :
    Avoids .outOfBounds (unpackArg t sp .request it c) ↔
      DescriptorFits sp c.mem c.dst ∧ ((descriptorAt c.mem c.dst).mismatches it.arg = false →
          ArgFits t sp it (descriptorAt c.mem c.dst)
            (dataPtr (descriptorAt c.mem c.dst) c.mem (c.dst + (descriptorAt c.mem c.dst).length))
            (elementEnd (descriptorAt c.mem c.dst)
              (c.dst + (descriptorAt c.mem c.dst).length)) c) := by
  rw [unpackArg, avoids_readDescriptor]
  refine and_congr_right fun _ => ?_
  generalize descriptorAt c.mem c.dst = d
  cases d.mismatches it.arg with
  | true => simp
  | false =>
    simp only [Bool.false_eq_true, if_false, true_imp_iff]
    rw [avoids_locate, Avoids.bind_iff]
    simp only [Avoids.bind_iff, avoids_setCount, avoids_orReturn, avoids_translate, avoids_place,
      Avoids.ok, implies_true, and_true]
    constructor
    · rintro ⟨h₁, h₂, h₃⟩
      exact ⟨h₁, h₂, fun c₁ hc => (h₃ c₁ hc).1, fun c₁ tr hc htr => (h₃ c₁ hc).2 tr htr⟩
    · rintro ⟨h₁, h₂, h₃, h₄⟩
      exact ⟨h₁, h₂, fun c₁ hc => ⟨h₃ c₁ hc, fun tr htr => h₄ c₁ tr hc htr⟩⟩

theorem avoids_unpackArgs {its : List Iteration} :
    Avoids .outOfBounds (unpackArgs t sp .request its c) ↔ ArgsFit t sp its c := by
  induction its generalizing c with
  | nil => simp [unpackArgs, ArgsFit]
  | cons it its ih =>
    rw [unpackArgs, ArgsFit]
    cases hp : it.arg.input with
    | true =>
      simp only [ArgInfo.present, hp, if_true, avoids_orReturn, avoids_unpackArg, ih]
    | false => simp [ArgInfo.present, hp, Avoids.bind_iff, avoids_skipArg, ih]

structure HeaderFits (sp : Space) (m : Mem) (msg : ℤ) : Prop where
  id : Covered sp.readable (msg + 20) 4
  name : signed (word m (msg + 20)) = -1 →
    Covered sp.readable (msg + headerSize) 4 ∧ Terminated sp m (msg + headerSize + 4)

@[simp] theorem avoids_foundMethod (mid : Option Method) (dst : ℤ) :
    Avoids .outOfBounds (foundMethod mid dst) := by
  cases mid <;> simp [foundMethod]

theorem avoids_findMethod {msg : ℤ} :
    Avoids .outOfBounds (findMethod t sp m msg) ↔ HeaderFits sp m msg := by
  rw [findMethod, avoids_readWord]
  by_cases hid : signed (word m (msg + 20)) = -1
  · simp only [hid, if_true, avoids_readWord, avoids_readString, avoids_foundMethod, and_true]
    exact ⟨fun h => ⟨h.1, fun _ => h.2⟩, fun h => ⟨h.id, h.name hid⟩⟩
  · simp only [hid, if_false, avoids_foundMethod, and_true]
    exact ⟨fun h => ⟨h, fun h' => absurd h' hid⟩, fun h => h.id⟩

structure RequestFits (t : Tables) (q : Incoming) (m : Mem) : Prop where
  header : HeaderFits q.header m q.message.start
  args : ∀ mid dst, findMethod t q.header m q.message.start = .ok (.ok (mid, dst)) →
    ArgsFit t (q.space mid.argType) (mid.argType.iterations .request) ⟨m, dst, q.args, q.dataOut⟩

namespace Sample

def inInt : Bytes := [75, 60, 55, 62, 58, 32, 73, 78, 32, 105, 110, 116]

def inIntType : ArgType :=
  ⟨7, 4, false, false, 0, true, true,
    [{ ArgInfo.fresh with input := true, argSize := 4 }], ArgInfo.zero⟩

def tables : Tables where
  lookupName := fun _ => none
  lookupMsgid := fun id => if id = 7 then some ⟨[109], inIntType⟩ else none
  lookupClass := fun _ => none
  lookupExternalPort := fun _ => none
  castdown := fun _ _ => 0
  virtualConstructor := fun _ _ _ => 0
  converterToRemote := fun _ _ => 0
  getTransferPort := fun _ => (0, 0)
  remoteClassName := fun _ => []

def incoming (size : ℕ) : Incoming := ⟨⟨1000, size⟩, [], 20000, 30000, [⟨1000, size⟩]⟩

def integers (number : ℤ) : Mem :=
  storeWord (storeWord (fun _ => 0) 1020 7) 1024 (2 + 2 ^ 8 * 32 + 2 ^ 16 * number + 2 ^ 28)

theorem parse_inInt : parseArgInfo inInt = .ok (some inIntType) := by decide +kernel

end Sample

end MachUS.Rpc
