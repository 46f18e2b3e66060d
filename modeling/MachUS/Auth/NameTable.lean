import MachUS.Foundation.Program
import MachUS.Foundation.ProbeMap
import MachUS.Foundation.Text

namespace MachUS.Auth

open Text

abbrev Port := UInt32

abbrev GroupId := UInt32

abbrev GroupType := Int32

abbrev Addr := ℕ

abbrev GroupName := CString 64

abbrev FullName := CString 256

def groupIdMax : ℕ := 4096

def membersMax : ℕ := 16

def portMapMax : ℕ := 512

def passWordSize : ℕ := 16

def machPortNull : Port := 0

def nullId : GroupId := 0xFFFFFFFF

def sysAdmId : GroupId := 1

def asPrimary : GroupType := 0

def asSecondary : GroupType := 1

instance : NeZero portMapMax := ⟨by decide⟩

inductive Ret where
  | success
  | failure
  | notAllowed
  | badPrivatePort
  | badName
  | notPrimary
  | badPassWord
  | badGroup
  | duplicateId
  | duplicateName
  | notSecondary
  deriving DecidableEq, Repr

inductive Trap where
  | endlessProbe
  | endlessRecursion
  | groupIdRange
  | idListRange
  | memberOverrun
  | stringOverrun
  | nameIndex
  | nullPointer
  | freedPointer
  | strayRead
  | addressInUse
  deriving DecidableEq, Repr

structure PassWord where
  bytes : Bytes
  size : bytes.length = passWordSize
  deriving DecidableEq

def PassWord.zero : PassWord := ⟨List.replicate passWordSize 0, by simp⟩

structure GroupRecord where
  groupName : GroupName
  groupId : GroupId
  groupType : GroupType
  fullName : FullName
  ownerId : GroupId
  passWord : PassWord
  trMemberships : List GroupId
  members : List GroupId
  memberships : List GroupId
  deriving DecidableEq

structure NameTable where
  slots : List (Option Addr)
  limit : ℕ
  numEntries : ℕ
  deriving DecidableEq

structure Groups where
  heap : Addr → Option GroupRecord
  groupIdMap : GroupId → Option Addr
  names : NameTable

structure PrivSlot where
  mappedPort : Port
  record : Option Addr
  deriving DecidableEq

structure RegSlot where
  mappedPort : Port
  privatePort : Port
  groupIds : List GroupId
  userId : GroupId
  deriving DecidableEq

structure Server where
  groups : Groups
  privPortMap : Fin portMapMax → PrivSlot
  regPortMap : Fin portMapMax → RegSlot

-- Answers of vm_allocate, vm_deallocate and of stray memory during one call.
structure Kernel where
  record : ℕ → Option Addr
  list : Bool
  table : Bool
  vmDeallocate : Ret
  strayKr : Ret
  stray : GroupId → Option Bool

abbrev Outcome := Except Trap

namespace Groups

def deref (g : Groups) (a : Addr) : Outcome GroupRecord :=
  match g.heap a with
  | some r => .ok r
  | none => .error .freedPointer

def setRecord (g : Groups) (a : Addr) (r : GroupRecord) : Groups :=
  { g with heap := Function.update g.heap a (some r) }

def idSlot (g : Groups) (id : GroupId) : Outcome (Option Addr) :=
  if id.toNat < groupIdMax then .ok (g.groupIdMap id) else .error .groupIdRange

def lookupId (g : Groups) (id : GroupId) : Option Addr :=
  if id.toNat < groupIdMax then g.groupIdMap id else none

theorem deref_eq_ok {g : Groups} {a : Addr} {r : GroupRecord} :
    g.deref a = .ok r ↔ g.heap a = some r := by
  rw [deref]
  cases g.heap a <;> simp

@[simp] theorem setRecord_heap_self (g : Groups) (a : Addr) (r : GroupRecord) :
    (g.setRecord a r).heap a = some r := by simp [setRecord]

theorem setRecord_heap_of_ne (g : Groups) {a b : Addr} (r : GroupRecord) (h : b ≠ a) :
    (g.setRecord a r).heap b = g.heap b := by simp [setRecord, h]

@[simp] theorem setRecord_groupIdMap (g : Groups) (a : Addr) (r : GroupRecord) :
    (g.setRecord a r).groupIdMap = g.groupIdMap := rfl

@[simp] theorem setRecord_names (g : Groups) (a : Addr) (r : GroupRecord) :
    (g.setRecord a r).names = g.names := rfl

theorem idSlot_eq_ok {g : Groups} {id : GroupId} {o : Option Addr} :
    g.idSlot id = .ok o ↔ id.toNat < groupIdMax ∧ g.groupIdMap id = o := by
  rw [idSlot]
  split_ifs with h <;> simp [h]

end Groups

def farray : List UInt8 :=
  [32, 137, 239, 188, 102, 125, 221, 72, 212, 68, 81, 37, 86, 237, 147, 149,
   70, 229, 17, 124, 115, 207, 33, 20, 122, 143, 25, 215, 51, 183, 138, 142,
   146, 211, 110, 173, 1, 228, 189, 14, 103, 78, 162, 36, 253, 167, 116, 255,
   158, 45, 185, 50, 98, 168, 250, 235, 54, 141, 195, 247, 240, 63, 148, 2,
   224, 169, 214, 180, 62, 22, 117, 108, 19, 172, 161, 159, 160, 47, 43, 171,
   194, 175, 178, 56, 196, 112, 23, 220, 89, 21, 164, 130, 157, 8, 85, 251,
   216, 44, 94, 179, 226, 38, 90, 119, 40, 202, 34, 206, 35, 69, 231, 246,
   29, 109, 74, 71, 176, 6, 60, 145, 65, 13, 77, 151, 12, 127, 95, 199,
   57, 101, 5, 232, 150, 210, 129, 24, 181, 10, 121, 187, 48, 193, 139, 252,
   219, 64, 88, 233, 96, 128, 80, 53, 191, 144, 218, 11, 106, 132, 155, 104,
   91, 136, 31, 42, 243, 66, 126, 135, 30, 26, 87, 186, 182, 154, 242, 123,
   82, 166, 208, 39, 152, 190, 113, 205, 114, 105, 225, 84, 73, 163, 99, 111,
   204, 61, 200, 217, 170, 15, 198, 28, 192, 254, 134, 234, 222, 7, 236, 248,
   201, 41, 177, 156, 92, 131, 67, 249, 245, 184, 203, 9, 241, 0, 27, 46,
   133, 174, 75, 18, 93, 209, 100, 120, 76, 213, 16, 83, 4, 107, 140, 52,
   58, 55, 3, 244, 97, 197, 238, 227, 118, 49, 79, 230, 223, 165, 153, 59]

def fbox (i : UInt8) : UInt8 := farray.getD i.toNat 0

structure Block where
  b0 : UInt8
  b1 : UInt8
  b2 : UInt8
  b3 : UInt8
  b4 : UInt8
  b5 : UInt8
  b6 : UInt8
  b7 : UInt8
  deriving DecidableEq

def keyByte (key : Bytes) (j : ℕ) : UInt8 := key.getD (j % 15) 0

def newdesHalf (key : Bytes) (j : ℕ) (b : Block) : Block :=
  { b with
    b4 := b.b4 ^^^ fbox (b.b0 ^^^ keyByte key j)
    b5 := b.b5 ^^^ fbox (b.b1 ^^^ keyByte key (j + 1))
    b6 := b.b6 ^^^ fbox (b.b2 ^^^ keyByte key (j + 2))
    b7 := b.b7 ^^^ fbox (b.b3 ^^^ keyByte key (j + 3)) }

def newdesMix (key : Bytes) (j : ℕ) (b : Block) : Block :=
  { b with
    b1 := b.b1 ^^^ fbox (b.b4 ^^^ keyByte key (j + 4))
    b2 := b.b2 ^^^ fbox (b.b4 ^^^ b.b5)
    b3 := b.b3 ^^^ fbox (b.b6 ^^^ keyByte key (j + 5))
    b0 := b.b0 ^^^ fbox (b.b7 ^^^ keyByte key (j + 6)) }

def newdesencrypt (key : Bytes) (text : Block) : Block :=
  newdesHalf key 11
    ([0, 7, 14, 6, 13, 5, 12, 4].foldl (fun b j => newdesMix key j (newdesHalf key j b)) text)

def Block.ofBytes (b : Bytes) : Block :=
  ⟨b.getD 0 0, b.getD 1 0, b.getD 2 0, b.getD 3 0, b.getD 4 0, b.getD 5 0, b.getD 6 0, b.getD 7 0⟩

def Block.bytes (b : Block) : Bytes := [b.b0, b.b1, b.b2, b.b3, b.b4, b.b5, b.b6, b.b7]

def isPrint (c : UInt8) : Bool := 32 ≤ c && c ≤ 126

def printable (c : UInt8) : UInt8 :=
  let ascii := c &&& 0x7f
  let kept := if ascii = 0x7f then 0x7e else ascii
  if isPrint kept then kept else kept + 32

def repeatPassword (length : ℕ) (p : Bytes) : Bytes :=
  (List.range' length (passWordSize - length)).foldl
    (fun q i => q.set i (q.getD (i - length) 0)) p

def encryptBytes (p : Bytes) : Bytes :=
  let key := p.reverse
  ((newdesencrypt key (Block.ofBytes p)).bytes ++
    (newdesencrypt key (Block.ofBytes (p.drop 8))).bytes).map printable

theorem encryptBytes_length (p : Bytes) : (encryptBytes p).length = passWordSize := rfl

def encryptPassword (p : PassWord) : Outcome PassWord :=
  match p.bytes.findIdx? (· == 0) with
  | none => .error .stringOverrun
  | some length => .ok ⟨encryptBytes (repeatPassword length p.bytes), encryptBytes_length _⟩

theorem isPrint_printable (c : UInt8) : isPrint (printable c) = true := by
  have h : ∀ n : Fin 256, isPrint (printable (UInt8.ofFin n)) = true := by decide +kernel
  simpa using h c.toFin

theorem encryptPassword_isPrint {p q : PassWord} (h : encryptPassword p = .ok q) :
    ∀ c ∈ q.bytes, isPrint c = true := by
  rw [encryptPassword] at h
  split at h
  · cases h
  · cases h
    intro c hc
    obtain ⟨d, -, rfl⟩ := List.mem_map.mp hc
    exact isPrint_printable d

end MachUS.Auth

namespace MachUS.Auth

open Text Outcome Except

def hashName (size : ℕ) (name : Bytes) : ℤ :=
  (name.foldl (fun index c => index + (UInt8.toInt8 c).toInt) 0).tmod size

def hashIndex (size : ℕ) (name : Bytes) : Outcome ℕ :=
  if hashName size name < 0 then .error .nameIndex else .ok (hashName size name).toNat

def NameTable.init : NameTable := ⟨List.replicate 32 none, 25, 0⟩

def NameTable.entry (t : NameTable) (index : ℕ) : Option Addr := t.slots.getD index none

namespace Groups

def setEntry (g : Groups) (index : ℕ) (e : Option Addr) : Groups :=
  { g with names := { g.names with slots := g.names.slots.set index e } }

def findName (g : Groups) (name : Bytes) (original : ℕ) : ℕ → ℕ → Outcome (Option ℕ)
  | 0, _ => .ok none
  | fuel + 1, index =>
    match g.names.entry index with
    | none => .ok (some index)
    | some a => do
      let r ← g.deref a
      if r.groupName.bytes = name then .ok (some index)
      else
        let next := (index + 1) % g.names.slots.length
        if next = original then .ok none else findName g name original fuel next

def findSlot (g : Groups) (name : Bytes) : Outcome (Option ℕ) := do
  let index ← hashIndex g.names.slots.length name
  g.findName name index g.names.slots.length index

def lookupName (g : Groups) (name : GroupName) : Outcome (Option Addr) := do
  match ← g.findSlot name.bytes with
  | none => .ok none
  | some index => .ok (g.names.entry index)

def emptyFrom (slots : List (Option Addr)) (original : ℕ) : ℕ → ℕ → Option ℕ
  | 0, _ => none
  | fuel + 1, index =>
    match slots.getD index none with
    | none => some index
    | some _ =>
      let next := (index + 1) % slots.length
      if next = original then none else emptyFrom slots original fuel next

def emptySlot (slots : List (Option Addr)) (index : ℕ) : Option ℕ :=
  emptyFrom slots index slots.length index

def rehash (g : Groups) : List (Option Addr) → List (Option Addr) → Outcome (List (Option Addr))
  | [], slots => .ok slots
  | none :: _, _ => .error .nullPointer
  | some a :: old, slots => do
    let r ← g.deref a
    let index ← hashIndex slots.length r.groupName.bytes
    match emptySlot slots index with
    | none => .error .endlessProbe
    | some i => rehash g old (slots.set i (some a))

def growNameHashTable (k : Kernel) (g : Groups) : Outcome Groups :=
  if k.table then do
    let slots ← g.rehash g.names.slots (List.replicate (2 * g.names.slots.length) none)
    .ok { g with names := { g.names with slots := slots, limit := g.names.limit * 2 } }
  else .ok g

def growIfOver (k : Kernel) (g : Groups) : Outcome Groups :=
  if g.names.limit < g.names.numEntries then g.growNameHashTable k else .ok g

def countEntry (g : Groups) : Groups :=
  { g with names := { g.names with numEntries := g.names.numEntries + 1 } }

def enterNameFrom (k : Kernel) : ℕ → Groups → Addr → Outcome Groups
  | 0, _, _ => .error .endlessRecursion
  | fuel + 1, g, a => do
    let g ← g.countEntry.growIfOver k
    let r ← g.deref a
    let index ← hashIndex g.names.slots.length r.groupName.bytes
    match emptySlot g.names.slots index with
    | some i => .ok (g.setEntry i (some a))
    | none => do
      let g ← g.growNameHashTable k
      enterNameFrom k fuel g a

def enterName (k : Kernel) (g : Groups) (a : Addr) : Outcome Groups := enterNameFrom k 2 g a

def rehashAfter (k : Kernel) : ℕ → Groups → ℕ → Outcome Groups
  | 0, _, _ => .error .endlessProbe
  | fuel + 1, g, index =>
    match g.names.entry index with
    | none => .ok g
    | some a => do
      let g ← (g.setEntry index none).enterName k a
      rehashAfter k fuel g (index + 1)

def deleteName (k : Kernel) (g : Groups) (name : Bytes) : Outcome Groups := do
  match ← g.findSlot name with
  | none => .ok g
  | some index =>
    match g.names.entry index with
    | none => .ok g
    | some _ =>
      (g.setEntry index none).rehashAfter k (2 * g.names.slots.length + 1) (index + 1)

structure SameRecords (g g' : Groups) : Prop where
  heap : g'.heap = g.heap
  groupIdMap : g'.groupIdMap = g.groupIdMap

namespace SameRecords

theorem refl (g : Groups) : g.SameRecords g := ⟨rfl, rfl⟩

theorem trans {g₁ g₂ g₃ : Groups} (h : g₁.SameRecords g₂) (h' : g₂.SameRecords g₃) :
    g₁.SameRecords g₃ := ⟨h'.heap.trans h.heap, h'.groupIdMap.trans h.groupIdMap⟩

theorem setEntry (g : Groups) (index : ℕ) (e : Option Addr) :
    g.SameRecords (g.setEntry index e) := ⟨rfl, rfl⟩

theorem countEntry (g : Groups) : g.SameRecords g.countEntry := ⟨rfl, rfl⟩

variable {k : Kernel} {g g' : Groups}

theorem grow (h : g.growNameHashTable k = .ok g') : g.SameRecords g' := by
  rw [growNameHashTable] at h
  split_ifs at h
  · obtain ⟨slots, -, h⟩ := bind_eq_ok.mp h
    cases h
    exact ⟨rfl, rfl⟩
  · cases h
    exact refl g

theorem growIfOver (h : g.growIfOver k = .ok g') : g.SameRecords g' := by
  rw [Groups.growIfOver] at h
  split_ifs at h
  · exact grow h
  · cases h
    exact refl g

theorem enterNameFrom {fuel : ℕ} {a : Addr}
    (h : Groups.enterNameFrom k fuel g a = .ok g') : g.SameRecords g' := by
  induction fuel generalizing g with
  | zero => cases h
  | succ fuel ih =>
    obtain ⟨g₁, h₁, h⟩ := bind_eq_ok.mp h
    have hg₁ : g.SameRecords g₁ := (countEntry g).trans (growIfOver h₁)
    obtain ⟨r, -, h⟩ := bind_eq_ok.mp h
    obtain ⟨index, -, h⟩ := bind_eq_ok.mp h
    split at h
    · cases h
      exact hg₁.trans (setEntry g₁ _ _)
    · obtain ⟨g₂, h₂, h⟩ := bind_eq_ok.mp h
      exact (hg₁.trans (grow h₂)).trans (ih h)

theorem enterName {a : Addr} (h : g.enterName k a = .ok g') : g.SameRecords g' := enterNameFrom h

theorem rehashAfter {fuel : ℕ} {index : ℕ}
    (h : Groups.rehashAfter k fuel g index = .ok g') : g.SameRecords g' := by
  induction fuel generalizing g index with
  | zero => cases h
  | succ fuel ih =>
    rw [Groups.rehashAfter] at h
    split at h
    · obtain rfl := ok.inj h
      exact refl g
    · obtain ⟨g₁, h₁, h⟩ := bind_eq_ok.mp h
      exact ((setEntry g index none).trans (enterName h₁)).trans (ih h)

theorem deleteName {name : Bytes} (h : g.deleteName k name = .ok g') : g.SameRecords g' := by
  obtain ⟨o, -, h⟩ := bind_eq_ok.mp h
  cases o with
  | none =>
    cases h
    exact refl g
  | some index =>
    simp only at h
    split at h
    · cases h
      exact refl g
    · exact (setEntry g index none).trans (rehashAfter h)

end SameRecords

end Groups

end MachUS.Auth
