import MachUS.Ufs.DirZones
import Mathlib.Algebra.Order.Ring.Int

namespace MachUS.Ufs

def bigNameLen : ℤ := 256

def direntBlock : ℤ := 512

def nDaddr : ℤ := 12

inductive ByteOrder where
  | little
  | big

def ByteOrder.short : ByteOrder → UInt8 → UInt8 → ℕ
  | .little, a, b => a.toNat + 256 * b.toNat
  | .big, a, b => 256 * a.toNat + b.toNat

def ByteOrder.long : ByteOrder → ℕ → ℕ → ℕ
  | .little, a, b => a + 65536 * b
  | .big, a, b => 65536 * a + b

-- off_t has 32 bits.
def offT (x : ℤ) : ℤ := x.bmod (2 ^ 32)

def roundup (x y : ℤ) : ℤ := (offT (x + (y - 1))).tdiv y * y

structure ScanBuffer where
  order : ByteOrder
  memory : ℤ → UInt8
  count : ℤ

namespace ScanBuffer

variable (b : ScanBuffer) (o : ℤ)

def null (order : ByteOrder) : ScanBuffer := ⟨order, fun _ => 0, 0⟩

def ino : ℕ :=
  b.order.long (b.order.short (b.memory o) (b.memory (o + 1)))
    (b.order.short (b.memory (o + 2)) (b.memory (o + 3)))

def reclen : ℤ := b.order.short (b.memory (o + 4)) (b.memory (o + 5))

def namlen : ℕ := b.order.short (b.memory (o + 6)) (b.memory (o + 7))

def dname : ℤ := o + 8

def dirsiz : ℤ := 8 + (b.namlen o + 1 + 3) / 4 * 4

def dirSize : ℤ := if b.ino o = 0 then 0 else b.dirsiz o

def Enters (spaceNeeded : ℤ) : Prop := b.ino o ≠ 0 ∧ b.dirsiz o ≤ b.reclen o ∧ spaceNeeded = 0

def Room (spaceNeeded : ℤ) : Prop := 0 < spaceNeeded ∧ spaceNeeded ≤ b.reclen o - b.dirSize o

instance (spaceNeeded : ℤ) : Decidable (b.Enters o spaceNeeded) :=
  inferInstanceAs (Decidable (_ ∧ _ ∧ _))

instance (spaceNeeded : ℤ) : Decidable (b.Room o spaceNeeded) := inferInstanceAs (Decidable (_ ∧ _))

def copystr (fro : ℤ) : ℕ → List UInt8
  | 0 => []
  | maxlength + 1 =>
    if b.memory fro = 0 then [b.memory fro] else b.memory fro :: copystr (fro + 1) maxlength

def Hashed (name j : ℤ) : Prop := name ≤ j ∧ ∀ i, name ≤ i → i < j → b.memory i ≠ 0

end ScanBuffer

structure ScanEntry where
  ino : ℕ
  dirOffset : ℤ
  prevSize : ℤ
  nameLength : ℕ
  reclen : ℤ
  name : List UInt8

def nameElement (length : ℤ) : ℤ :=
  match nameZone length with
  | .smallName => smallNameLen
  | .mediumName => mediumNameLen
  | _ => bigNameLen

structure ScanFs where
  bshift : ℕ
  fshift : ℕ
  sectors : 9 ≤ fshift
  fragments : fshift ≤ bshift
  maxbsize : bshift ≤ 16

namespace ScanFs

variable (fs : ScanFs)

def bsize : ℤ := 2 ^ fs.bshift

def fsize : ℤ := 2 ^ fs.fshift

def blkoff (loc : ℤ) : ℤ := loc % fs.bsize

def lblkno (loc : ℤ) : ℤ := loc / fs.bsize

def fragroundup (size : ℤ) : ℤ := (size + fs.fsize - 1) / fs.fsize * fs.fsize

end ScanFs

structure ScanInode where
  fs : ScanFs
  order : ByteOrder
  size : ℤ
  block : ℕ → Option (ℤ → UInt8)
  sized : -2 ^ 31 ≤ size ∧ size < 2 ^ 31

structure ScanWorld where
  tableAllocates : Bool
  allocates : ℤ → Bool
  listed : ℤ → Bool

structure ScanState where
  curOffset : ℤ
  prevSize : ℤ
  offsetInBlock : ℤ
  buffer : ScanBuffer

inductive ScanProgress where
  | scanning (s : ScanState)
  | returned (offset : ℤ)
  | waiting

namespace ScanState

variable (s : ScanState)

def lookPrev : ℤ := if s.curOffset % direntBlock = 0 then 0 else s.prevSize

def skip : ScanState :=
  { s with
    prevSize := s.lookPrev
    curOffset := offT (s.curOffset + (direntBlock - s.curOffset % direntBlock))
    offsetInBlock := offT (s.offsetInBlock + (direntBlock - s.offsetInBlock % direntBlock)) }

def advance : ScanState :=
  { s with
    prevSize := s.buffer.reclen s.offsetInBlock
    curOffset := offT (s.curOffset + s.buffer.reclen s.offsetInBlock)
    offsetInBlock := offT (s.offsetInBlock + s.buffer.reclen s.offsetInBlock) }

def directoryFileEnter : ScanEntry :=
  { ino := s.buffer.ino s.offsetInBlock
    dirOffset := s.curOffset
    prevSize := s.lookPrev
    nameLength := s.buffer.namlen s.offsetInBlock
    reclen := s.buffer.reclen s.offsetInBlock
    name := s.buffer.copystr (ScanBuffer.dname s.offsetInBlock) (s.buffer.namlen s.offsetInBlock) }

variable (w : ScanWorld) (spaceNeeded : ℤ)

def look : ScanProgress :=
  if s.buffer.reclen s.offsetInBlock = 0 then .scanning s.skip
  else if s.buffer.Enters s.offsetInBlock spaceNeeded then
    if w.allocates s.curOffset then .scanning s.advance else .waiting
  else if s.buffer.Room s.offsetInBlock spaceNeeded then .returned s.curOffset
  else .scanning s.advance

def Entered (e : ScanEntry) : Prop :=
  s.buffer.reclen s.offsetInBlock ≠ 0 ∧ s.buffer.Enters s.offsetInBlock spaceNeeded ∧
    e = s.directoryFileEnter

def Touched (j : ℤ) : Prop :=
  s.offsetInBlock + 4 ≤ j ∧ j < s.offsetInBlock + 6 ∨
    s.buffer.reclen s.offsetInBlock ≠ 0 ∧
      (s.offsetInBlock ≤ j ∧ j < s.offsetInBlock + 8 ∨
        s.buffer.Enters s.offsetInBlock spaceNeeded ∧ w.allocates s.curOffset = true ∧
          (ScanBuffer.dname s.offsetInBlock ≤ j ∧
              j < ScanBuffer.dname s.offsetInBlock + s.directoryFileEnter.name.length ∨
            w.listed s.curOffset = true ∧ s.buffer.Hashed (ScanBuffer.dname s.offsetInBlock) j))

end ScanState

namespace ScanInode

variable (d : ScanInode) (w : ScanWorld) (spaceNeeded : ℤ)

def blksize (lbn : ℤ) : ℤ :=
  if nDaddr ≤ lbn ∨ (lbn + 1) * d.fs.bsize ≤ d.size then d.fs.bsize
  else d.fs.fragroundup (d.fs.blkoff d.size)

def blkatoff (offset : ℤ) : Option ScanBuffer :=
  if d.fs.lblkno offset < 0 then none
  else (d.block (d.fs.lblkno offset).toNat).map fun m => ⟨d.order, m, d.blksize (d.fs.lblkno offset)⟩

def lastOffset : ℤ := roundup d.size direntBlock

def fetch (s : ScanState) : Option ScanState :=
  if d.fs.blkoff s.curOffset = 0 then
    (d.blkatoff s.curOffset).map fun b => { s with buffer := b, offsetInBlock := 0 }
  else some s

def turn (s : ScanState) : ScanProgress :=
  if s.curOffset < d.lastOffset then
    match d.fetch s with
    | none => .returned s.curOffset
    | some s => s.look w spaceNeeded
  else .returned d.lastOffset

def directoryScan : ℕ → ScanProgress
  | 0 => if w.tableAllocates then .scanning ⟨0, 0, 0, .null d.order⟩ else .waiting
  | k + 1 =>
    match directoryScan k with
    | .scanning s => d.turn w spaceNeeded s
    | p => p

def Keeps (old new : ℤ) : Prop :=
  d.fs.lblkno new = d.fs.lblkno old ∨ new = offT ((d.fs.lblkno old + 1) * d.fs.bsize)

structure SafeTurn (s : ScanState) : Prop where
  inside : ∀ j, s.Touched w spaceNeeded j → 0 ≤ j ∧ j < s.buffer.count
  fits : ∀ e, s.Entered spaceNeeded e →
    e.nameLength ≤ nameElement e.nameLength ∧ e.name.length ≤ nameElement e.nameLength
  keeps : ∀ t, s.look w spaceNeeded = .scanning t → d.Keeps s.curOffset t.curOffset

structure Robust : Prop where
  terminates : ∃ k offset, d.directoryScan w spaceNeeded k = .returned offset
  safe : ∀ k s t, d.directoryScan w spaceNeeded k = .scanning s → s.curOffset < d.lastOffset →
    d.fetch s = some t → d.SafeTurn w spaceNeeded t

inductive Reached : ℤ → Prop
  | start : Reached 0
  | blank {offset : ℤ} {b : ScanBuffer} (h : Reached offset) (hlast : offset < d.lastOffset)
      (hb : d.blkatoff offset = some b) (hzero : b.reclen (d.fs.blkoff offset) = 0) :
      Reached (offT (offset + (direntBlock - offset % direntBlock)))
  | record {offset : ℤ} {b : ScanBuffer} (h : Reached offset) (hlast : offset < d.lastOffset)
      (hb : d.blkatoff offset = some b) (hlen : b.reclen (d.fs.blkoff offset) ≠ 0)
      (hroom : ¬ b.Room (d.fs.blkoff offset) spaceNeeded) :
      Reached (offT (offset + b.reclen (d.fs.blkoff offset)))

structure RecordOk (offset o : ℤ) (b : ScanBuffer) : Prop where
  header : o + 6 ≤ b.count
  body : b.reclen o ≠ 0 → o + 8 ≤ b.count
  length : b.reclen o ≠ 0 → ¬ b.Room o spaceNeeded → o + b.reclen o ≤ d.fs.bsize
  allocates : b.reclen o ≠ 0 → b.Enters o spaceNeeded → w.allocates offset = true
  namlen : b.reclen o ≠ 0 → b.Enters o spaceNeeded → b.namlen o ≤ bigNameLen
  name : b.reclen o ≠ 0 → b.Enters o spaceNeeded →
    (∃ j, ScanBuffer.dname o ≤ j ∧ j < b.count ∧ b.memory j = 0) ∨
      w.listed offset = false ∧ ScanBuffer.dname o + b.namlen o ≤ b.count

structure Chained : Prop where
  table : w.tableAllocates = true
  records : ∀ offset b, d.Reached spaceNeeded offset → offset < d.lastOffset →
    d.blkatoff offset = some b → d.RecordOk w spaceNeeded offset (d.fs.blkoff offset) b

end ScanInode

theorem offT_of_lt {x : ℤ} (hneg : -2 ^ 31 ≤ x) (hlt : x < 2 ^ 31) : offT x = x := by
  unfold offT Int.bmod
  simp only
  split_ifs <;> omega

theorem offT_wraps {x : ℤ} (hle : 2 ^ 31 ≤ x) (hlt : x < 2 ^ 32) : offT x = x - 2 ^ 32 := by
  unfold offT Int.bmod
  simp only
  split_ifs <;> omega

theorem ByteOrder.short_lt (order : ByteOrder) (a b : UInt8) : order.short a b < 2 ^ 16 := by
  have ha := a.toNat_lt
  have hb := b.toNat_lt
  cases order <;> simp only [ByteOrder.short] <;> omega

theorem nameElement_iff {n : ℕ} : (n : ℤ) ≤ nameElement n ↔ (n : ℤ) ≤ bigNameLen := by
  unfold nameElement nameZone
  split_ifs <;> simp only [smallNameLen, mediumNameLen, bigNameLen] at * <;> omega

namespace ScanBuffer

variable {b : ScanBuffer} {o l : ℤ}

theorem reclen_range : 0 ≤ b.reclen o ∧ b.reclen o < 2 ^ 16 := by
  have h := b.order.short_lt (b.memory (o + 4)) (b.memory (o + 5))
  unfold reclen
  omega

theorem copystr_le (fro : ℤ) (n : ℕ) : (b.copystr fro n).length ≤ n := by
  induction n generalizing fro with
  | zero => exact Nat.le_refl 0
  | succ n ih =>
    rw [copystr]
    split_ifs
    · exact Nat.succ_le_succ (Nat.zero_le n)
    · exact Nat.succ_le_succ (ih (fro + 1))

theorem copystr_within {fro : ℤ} {n : ℕ} (h : fro ≤ l) : fro + (b.copystr fro n).length ≤ l ↔
    fro + n ≤ l ∨ ∃ j, fro ≤ j ∧ j < l ∧ b.memory j = 0 := by
  induction n generalizing fro with
  | zero => exact iff_of_true (by simpa [copystr] using h) (.inl (by simpa using h))
  | succ n ih =>
    rw [copystr]
    by_cases hzero : b.memory fro = 0
    · rw [if_pos hzero]
      constructor
      · intro hlen
        exact .inr ⟨fro, le_refl fro, by simp at hlen; omega, hzero⟩
      · rintro (hlen | ⟨j, hj, hjl, -⟩)
        · simp
          omega
        · simp
          omega
    · rw [if_neg hzero]
      rcases h.lt_or_eq with hlt | rfl
      · have hstep : (∃ j, fro ≤ j ∧ j < l ∧ b.memory j = 0) ↔
            ∃ j, fro + 1 ≤ j ∧ j < l ∧ b.memory j = 0 := by
          constructor
          · rintro ⟨j, hj, hjl, hz⟩
            rcases hj.lt_or_eq with hj | rfl
            · exact ⟨j, hj, hjl, hz⟩
            · exact absurd hz hzero
          · rintro ⟨j, hj, hjl, hz⟩
            exact ⟨j, by omega, hjl, hz⟩
        have hih := @ih (fro + 1) hlt
        rw [hstep, List.length_cons]
        push_cast
        rw [show fro + ((b.copystr (fro + 1) n).length + 1 : ℤ) =
          fro + 1 + (b.copystr (fro + 1) n).length by omega, hih]
        rw [show fro + (n + 1 : ℤ) = fro + 1 + n by omega]
      · refine iff_of_false ?_ ?_
        · simp
        · rintro (hlen | ⟨j, hj, hjl, -⟩) <;> omega

theorem hashed_within {name : ℤ} (h : name ≤ l) : (∀ j, b.Hashed name j → j < l) ↔
    ∃ j, name ≤ j ∧ j < l ∧ b.memory j = 0 := by
  constructor
  · intro hall
    by_contra hnone
    refine lt_irrefl l (hall l ⟨h, fun i hi hil hz => hnone ⟨i, hi, hil, hz⟩⟩)
  · rintro ⟨i, hi, hil, hz⟩ j ⟨hj, hnz⟩
    by_contra hle
    exact hnz i hi (by omega) hz

end ScanBuffer

end MachUS.Ufs
