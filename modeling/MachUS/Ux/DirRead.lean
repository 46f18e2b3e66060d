import MachUS.Ufs.DirScan
import MachUS.Ux.Vectored

namespace MachUS.Ux.DirRead

open List Nat
open Io (Dlong)
open Memory
open Ufs (ByteOrder ScanBuffer)

def nsNamelen : ℕ := 256

def maxnamlen : ℕ := 255

def nsAttrSize : BitVec 32 := 0x80

structure NsName where
  cells : List UInt8
  length_cells : cells.length = nsNamelen
  terminated : 0 ∈ cells

def NsName.strlen (n : NsName) : ℕ := n.cells.idxOf 0

structure NsEntry where
  name : NsName
  objId : UInt32

structure Listing where
  entries : List NsEntry
  fits : entries.length * (nsNamelen + 8) < 2 ^ 32

def uShort (n : ℕ) : ℕ := n % 2 ^ 16

def dirsiz (namlen : ℕ) : ℕ := 8 + (uShort namlen + 1 + 3) / 4 * 4

def putShort : ByteOrder → ℕ → List UInt8
  | .little, n => [UInt8.ofNat n, UInt8.ofNat (n / 256)]
  | .big, n => [UInt8.ofNat (n / 256), UInt8.ofNat n]

def putLong : ByteOrder → ℕ → List UInt8
  | .little, n => putShort .little n ++ putShort .little (n / 65536)
  | .big, n => putShort .big (n / 65536) ++ putShort .big n

def NsEntry.put (e : NsEntry) (order : ByteOrder) (len : ℕ) (m : Mem) (dp : ℤ) : Mem :=
  let m := store m dp (putLong order e.objId.toNat)
  let m := store m (dp + 6) (putShort order (uShort len))
  let m := store m (dp + 4) (putShort order (uShort (dirsiz len)))
  store m (dp + 8) (e.name.cells.take (len + 1))

def seek (start : ℕ) : ℕ → List NsEntry → List NsEntry
  | _, [] => []
  | off, e :: es =>
    if off < start then seek start (Word.add off (dirsiz e.name.strlen)) es else e :: es

def emit (order : ByteOrder) (dpEnd : ℤ) : List NsEntry → ℤ → Mem → ℤ × Mem
  | [], dp, m => (dp, m)
  | e :: es, dp, m =>
    if dp < dpEnd then
      let len := if e.name.strlen > maxnamlen then maxnamlen else e.name.strlen
      let ndp := dp + uShort (dirsiz len)
      if ndp > dpEnd then (dp, m) else emit order dpEnd es ndp (e.put order len m dp)
    else (dp, m)

inductive Failure where
  | noSuchOperation
  | invalidOffset
  | other (code : ℕ)
  deriving DecidableEq

structure NsAttrs where
  validFields : BitVec 32
  size : Dlong

structure UxioDir extends Vectored.Uxio where
  dirList : Option Listing
  isName : Bool
  seekable : flags.sequential = false

structure Call where
  fails : Option Failure
  buf : ℤ
  num : ℕ
  memory : Mem

structure Outcome where
  result : Option Failure
  dir : UxioDir
  num : ℕ
  memory : Mem

namespace UxioDir

variable (d : UxioDir) (order : ByteOrder) (l : Listing) (c : Call)

def listed (fails : Option Failure) : Failure ⊕ Listing :=
  match d.dirList with
  | some l => .inr l
  | none => if d.isName then fails.elim (.inr l) .inl else .inl .noSuchOperation

def usesProbe : UxioDir := { d with
  toUxio := d.toUxio.usesProbe
  seekable := by
    have h := d.seekable
    rw [Vectored.Uxio.usesProbe]
    split_ifs <;> exact h }

def ioReadInternal (ioStart : Dlong) : Outcome :=
  match d.listed l c.fails with
  | .inl f => ⟨some f, d, c.num, c.memory⟩
  | .inr l =>
    let d := { d with dirList := some l }
    let dpEnd := c.buf + c.num
    let start := ioStart.value % 2 ^ 32
    let written := emit order dpEnd (seek start 0 l.entries) c.buf c.memory
    let num := (written.1 - c.buf).toNat
    ⟨if num = 0 then some .invalidOffset else none, d, num, written.2⟩

def uxRead : Outcome :=
  let out := d.usesProbe.ioReadInternal order l c d.curOffset
  match out.result with
  | none => { out with dir := { out.dir with toUxio := out.dir.toUxio.advance out.num } }
  | some _ => { out with num := 0 }

def nsGetAttributesInternal (attrs : Failure ⊕ NsAttrs) (fails : Option Failure) :
    (Failure ⊕ NsAttrs) × UxioDir :=
  match attrs with
  | .inl f => (.inl f, d)
  | .inr a =>
    match d.listed l fails with
    | .inl f => (.inl f, d)
    | .inr l =>
      (.inr {
        size := l.entries.foldl (fun size e => size.addLong (dirsiz e.name.strlen)) Dlong.zero
        validFields := a.validFields ||| nsAttrSize },
        { d with dirList := some l })

def run : UxioDir → List Call → List (Call × Outcome)
  | _, [] => []
  | d, c :: cs => (c, d.uxRead order l c) :: run (d.uxRead order l c).dir cs

def afterRun (cs : List Call) : UxioDir := cs.foldl (fun d c => (d.uxRead order l c).dir) d

def opened (ndelay append : Bool) : UxioDir where
  curOffset := Dlong.zero
  flags := ⟨ndelay, append, false⟩
  byteioObj := false
  directory := true
  selectState _ := .nothing
  dirList := none
  isName := true
  seekable := rfl

end UxioDir

namespace NsName

variable (n : NsName)

theorem strlen_lt : n.strlen < nsNamelen := by
  rw [strlen, ← n.length_cells]
  exact idxOf_lt_length_iff.2 n.terminated

theorem strlen_le : n.strlen ≤ maxnamlen := le_of_lt_succ n.strlen_lt

theorem uShort_strlen : uShort n.strlen = n.strlen :=
  mod_eq_of_lt (n.strlen_lt.trans (by decide))

end NsName

namespace NsEntry

variable (e : NsEntry)

def size : ℕ := dirsiz e.name.strlen

theorem size_eq : e.size = 8 + (e.name.strlen + 1 + 3) / 4 * 4 := by
  rw [size, dirsiz, e.name.uShort_strlen]

theorem size_pos : 0 < e.size := by
  rw [size_eq]
  omega

theorem name_fits : 8 + (e.name.strlen + 1) ≤ e.size := by
  rw [size_eq]
  omega

theorem size_le : e.size ≤ nsNamelen + 8 := by
  have h := e.name.strlen_le
  rw [size_eq, nsNamelen]
  rw [maxnamlen] at h
  omega

theorem uShort_size : uShort e.size = e.size :=
  mod_eq_of_lt (e.size_le.trans_lt (by decide))

end NsEntry

structure IsRecord (order : ByteOrder) (m : Mem) (o : ℤ) (e : NsEntry) : Prop where
  ino : (ScanBuffer.mk order m 0).ino o = e.objId.toNat
  reclen : (ScanBuffer.mk order m 0).reclen o = e.size
  namlen : (ScanBuffer.mk order m 0).namlen o = e.name.strlen
  name : bytes m (o + 8) (e.name.strlen + 1) = e.name.cells.take (e.name.strlen + 1)
  compact : (ScanBuffer.mk order m 0).reclen o = (ScanBuffer.mk order m 0).dirsiz o

def totalSize (es : List NsEntry) : ℕ := (es.map NsEntry.size).sum

def Holds (order : ByteOrder) (m : Mem) : ℤ → List NsEntry → Prop
  | _, [] => True
  | o, e :: es => IsRecord order m o e ∧ Holds order m (o + e.size) es

def fitting : ℕ → List NsEntry → List NsEntry
  | _, [] => []
  | room, e :: es => if e.size ≤ room then e :: fitting (room - e.size) es else []

section Layout

variable {order : ByteOrder} {m m' : Mem} {o : ℤ} {e : NsEntry} {es : List NsEntry}

@[simp] theorem totalSize_nil : totalSize [] = 0 := rfl

@[simp] theorem totalSize_cons : totalSize (e :: es) = e.size + totalSize es := by
  simp [totalSize]

@[simp] theorem totalSize_append (es es' : List NsEntry) :
    totalSize (es ++ es') = totalSize es + totalSize es' := by
  simp [totalSize]

theorem totalSize_le_of_prefix {es es' : List NsEntry} (h : es <+: es') :
    totalSize es ≤ totalSize es' := by
  obtain ⟨es'', rfl⟩ := h
  rw [totalSize_append]
  exact le_add_right _ _

theorem totalSize_eq_zero_iff : totalSize es = 0 ↔ es = [] := by
  cases es with
  | nil => simp
  | cons e es => simp [e.size_pos.ne']

theorem totalSize_le (es : List NsEntry) : totalSize es ≤ es.length * (nsNamelen + 8) := by
  induction es with
  | nil => simp
  | cons e es ih =>
    have := e.size_le
    rw [totalSize_cons, length_cons, succ_mul]
    omega

theorem IsRecord.congr (h : IsRecord order m o e)
    (hagree : ∀ x, o ≤ x → x < o + e.size → m' x = m x) : IsRecord order m' o e := by
  have hroom := e.name_fits
  have hhead : ∀ i, 0 ≤ i → i < 8 → m' (o + i) = m (o + i) := fun i h0 h8 =>
    hagree _ (by omega) (by omega)
  have h0 : m' o = m o := by simpa using hhead 0 (by decide) (by decide)
  have hlen : (ScanBuffer.mk order m' 0).reclen o = (ScanBuffer.mk order m 0).reclen o := by
    simp only [ScanBuffer.reclen, hhead 4 (by decide) (by decide), hhead 5 (by decide) (by decide)]
  have hname : (ScanBuffer.mk order m' 0).namlen o = (ScanBuffer.mk order m 0).namlen o := by
    simp only [ScanBuffer.namlen, hhead 6 (by decide) (by decide), hhead 7 (by decide) (by decide)]
  refine ⟨?_, hlen.trans h.reclen, hname.trans h.namlen, ?_, ?_⟩
  · rw [← h.ino]
    simp only [ScanBuffer.ino, h0, hhead 1 (by decide) (by decide),
      hhead 2 (by decide) (by decide), hhead 3 (by decide) (by decide)]
  · rw [← h.name]
    exact bytes_congr fun x hx hlt => hagree x (by omega) (by omega)
  · rw [hlen, h.compact, ScanBuffer.dirsiz, ScanBuffer.dirsiz, hname]

theorem short_putShort {a b : UInt8} {n : ℕ} (h : putShort order n = [a, b]) :
    order.short a b = n % 2 ^ 16 := by
  cases order <;>
  · simp only [putShort, cons.injEq, and_true] at h
    rw [ByteOrder.short, ← h.1, ← h.2, UInt8.toNat_ofNat', UInt8.toNat_ofNat']
    omega

theorem long_putLong {a b c d : UInt8} {n : ℕ} (hn : n < 2 ^ 32)
    (h : putLong order n = [a, b, c, d]) :
    order.long (order.short a b) (order.short c d) = n := by
  cases order with
  | little =>
    have hlow : putShort .little n = [a, b] := by simp_all [putLong, putShort]
    have hhigh : putShort .little (n / 65536) = [c, d] := by simp_all [putLong, putShort]
    rw [short_putShort hlow, short_putShort hhigh, ByteOrder.long]
    omega
  | big =>
    have hhigh : putShort .big (n / 65536) = [a, b] := by simp_all [putLong, putShort]
    have hlow : putShort .big n = [c, d] := by simp_all [putLong, putShort]
    rw [short_putShort hlow, short_putShort hhigh, ByteOrder.long]
    omega

theorem length_putShort (order : ByteOrder) (n : ℕ) : (putShort order n).length = 2 := by
  cases order <;> rfl

theorem length_putLong (order : ByteOrder) (n : ℕ) : (putLong order n).length = 4 := by
  cases order <;> rfl

theorem put_outside {x : ℤ} (h : x < o ∨ o + e.size ≤ x) :
    e.put order e.name.strlen m o x = m x := by
  have hroom := e.name_fits
  have htake : (e.name.cells.take (e.name.strlen + 1)).length ≤ e.name.strlen + 1 :=
    length_take_le _ _
  rw [NsEntry.put, store_of_outside (by omega), store_of_outside (by rw [length_putShort]; omega),
    store_of_outside (by rw [length_putShort]; omega),
    store_of_outside (by rw [length_putLong]; omega)]

theorem bytes_two (m : Mem) (o : ℤ) : bytes m o 2 = [m o, m (o + 1)] := by
  simp [bytes, range_succ]

theorem bytes_four (m : Mem) (o : ℤ) : bytes m o 4 = [m o, m (o + 1), m (o + 2), m (o + 3)] := by
  simp [bytes, range_succ]

theorem put_isRecord : IsRecord order (e.put order e.name.strlen m o) o e := by
  have hcells : (e.name.cells.take (e.name.strlen + 1)).length = e.name.strlen + 1 := by
    rw [length_take, e.name.length_cells]
    exact min_eq_left e.name.strlen_lt
  have hname : bytes (e.put order e.name.strlen m o) (o + 8) (e.name.strlen + 1) =
      e.name.cells.take (e.name.strlen + 1) := by
    have hself := bytes_store_self (store (store (store m o (putLong order e.objId.toNat)) (o + 6)
      (putShort order (uShort e.name.strlen))) (o + 4)
      (putShort order (uShort (dirsiz e.name.strlen)))) (o + 8)
      (e.name.cells.take (e.name.strlen + 1))
    rw [hcells] at hself
    exact hself
  have hreclen : bytes (e.put order e.name.strlen m o) (o + 4) 2 =
      putShort order (uShort (dirsiz e.name.strlen)) := by
    rw [NsEntry.put, bytes_store_outside (by omega), ← length_putShort order, bytes_store_self]
  have hnamlen : bytes (e.put order e.name.strlen m o) (o + 6) 2 =
      putShort order (uShort e.name.strlen) := by
    rw [NsEntry.put, bytes_store_outside (by omega),
      bytes_store_outside (by rw [length_putShort]; omega), ← length_putShort order,
      bytes_store_self]
  have hino : bytes (e.put order e.name.strlen m o) o 4 = putLong order e.objId.toNat := by
    rw [NsEntry.put, bytes_store_outside (by omega),
      bytes_store_outside (by omega), bytes_store_outside (by omega),
      ← length_putLong order e.objId.toNat, bytes_store_self]
  rw [bytes_four] at hino
  rw [bytes_two, add_assoc] at hreclen hnamlen
  have hlen : (ScanBuffer.mk order (e.put order e.name.strlen m o) 0).namlen o = e.name.strlen := by
    refine (short_putShort hnamlen.symm).trans ?_
    rw [e.name.uShort_strlen]
    exact e.name.uShort_strlen
  have hsize : (ScanBuffer.mk order (e.put order e.name.strlen m o) 0).reclen o = e.size := by
    refine congrArg Nat.cast ((short_putShort hreclen.symm).trans ?_)
    exact (congrArg uShort e.uShort_size).trans e.uShort_size
  refine ⟨long_putLong e.objId.toNat_lt hino.symm, hsize, hlen, hname, ?_⟩
  rw [hsize, ScanBuffer.dirsiz, hlen, e.size_eq]
  push_cast
  rfl

theorem fitting_initial (room : ℕ) (es : List NsEntry) : fitting room es <+: es := by
  induction es generalizing room with
  | nil => exact nil_prefix
  | cons e es ih =>
    rw [fitting]
    split_ifs with hroom
    · exact (prefix_cons_inj e).2 (ih _)
    · exact nil_prefix

theorem totalSize_fitting_le (room : ℕ) (es : List NsEntry) : totalSize (fitting room es) ≤ room := by
  induction es generalizing room with
  | nil => exact zero_le _
  | cons e es ih =>
    rw [fitting]
    split_ifs with hroom
    · have := ih (room - e.size)
      rw [totalSize_cons]
      omega
    · exact zero_le _

structure Emitted (order : ByteOrder) (m : Mem) (dp : ℤ) (es : List NsEntry)
    (written : ℤ × Mem) : Prop where
  place : written.1 = dp + totalSize es
  records : Holds order written.2 dp es
  frame : ∀ x, x < dp ∨ dp + totalSize es ≤ x → written.2 x = m x

theorem emit_emitted (order : ByteOrder) (room : ℕ) (es : List NsEntry) (dp : ℤ) (m : Mem) :
    Emitted order m dp (fitting room es) (emit order (dp + room) es dp m) := by
  induction es generalizing room dp m with
  | nil => exact ⟨by simp [emit, fitting], trivial, fun _ _ => rfl⟩
  | cons e es ih =>
    have hpos := e.size_pos
    have hclamp : (if e.name.strlen > maxnamlen then maxnamlen else e.name.strlen) =
        e.name.strlen := if_neg (not_lt.2 e.name.strlen_le)
    have hsize : uShort (dirsiz e.name.strlen) = e.size := e.uShort_size
    rw [fitting]
    split_ifs with hroom
    · have ih := ih (room - e.size) (dp + e.size) (e.put order e.name.strlen m dp)
      have hend : dp + e.size + (room - e.size : ℕ) = dp + room := by omega
      rw [hend] at ih
      have hstep : emit order (dp + room) (e :: es) dp m =
          emit order (dp + room) es (dp + e.size) (e.put order e.name.strlen m dp) := by
        rw [emit, if_pos (by omega)]
        simp only [hclamp, hsize]
        rw [if_neg (by omega)]
      rw [hstep]
      refine ⟨?_, ⟨?_, ih.records⟩, ?_⟩
      · rw [ih.place, totalSize_cons, cast_add, add_assoc]
      · exact put_isRecord.congr fun x hx hlt => ih.frame x (.inl hlt)
      · intro x hx
        rw [totalSize_cons, cast_add] at hx
        rw [ih.frame x (by omega), put_outside (by omega)]
    · have hstop : emit order (dp + room) (e :: es) dp m = (dp, m) := by
        rw [emit]
        simp only [hclamp, hsize]
        rw [if_pos (show dp + (e.size : ℤ) > dp + room by omega), ite_self]
      rw [hstop]
      exact ⟨by simp, trivial, fun _ _ => rfl⟩

theorem seek_append {start off : ℕ} (done rest : List NsEntry)
    (hstart : start = off + totalSize done) (hlt : start < 2 ^ 32) :
    seek start off (done ++ rest) = rest := by
  induction done generalizing off with
  | nil =>
    cases rest with
    | nil => rfl
    | cons e es => exact if_neg (by simp [hstart])
  | cons e done ih =>
    have hpos := e.size_pos
    rw [totalSize_cons] at hstart
    have hoff : Word.add off (dirsiz e.name.strlen) = off + e.size :=
      Word.add_of_lt (show off + e.size < 2 ^ 32 by omega)
    rw [cons_append, seek, if_pos (by omega), hoff]
    exact ih (by omega)

end Layout

structure At (l : Listing) (d : UxioDir) (done rest : List NsEntry) : Prop where
  split : l.entries = done ++ rest
  offset : d.curOffset.value = totalSize done
  cached : d.dirList = none ∨ d.dirList = some l
  name : d.isName = true

structure Returned (order : ByteOrder) (c : Call) (out : Outcome) (es : List NsEntry) : Prop where
  inside : ∀ x, x < c.buf ∨ c.buf + c.num ≤ x → out.memory x = c.memory x
  whole : out.num = totalSize es
  fits : out.num ≤ c.num
  records : Holds order out.memory c.buf es
  result : out.result = none ↔ es ≠ []

section Calls

variable {order : ByteOrder} {l : Listing} {d : UxioDir} {c : Call} {done rest : List NsEntry}

theorem totalSize_listing_lt (l : Listing) : totalSize l.entries < 2 ^ 32 :=
  (totalSize_le l.entries).trans_lt l.fits

theorem At.listed (h : At l d done rest) (fails : Option Failure) :
    d.listed l fails = .inr l ∨ ∃ f, fails = some f ∧ d.listed l fails = .inl f := by
  rcases h.cached with hnone | hsome
  · simp only [UxioDir.listed, hnone, h.name, if_true]
    cases fails with
    | none => exact .inl rfl
    | some f => exact .inr ⟨f, rfl, rfl⟩
  · simp only [UxioDir.listed, hsome]
    exact .inl trivial

theorem uxRead_refused {f : Failure} (hlisted : d.listed l c.fails = .inl f) :
    d.uxRead order l c = ⟨some f, d.usesProbe, 0, c.memory⟩ := by
  have hprobe : d.usesProbe.listed l c.fails = .inl f := hlisted
  simp only [UxioDir.uxRead, UxioDir.ioReadInternal, hprobe]

theorem curOffset_usesProbe (d : UxioDir) : d.usesProbe.curOffset = d.curOffset := by
  simp only [UxioDir.usesProbe, Vectored.Uxio.usesProbe]
  split_ifs <;> rfl

theorem At.usesProbe (h : At l d done rest) : At l d.usesProbe done rest :=
  ⟨h.split, by rw [curOffset_usesProbe, h.offset], h.cached, h.name⟩

theorem At.served (order : ByteOrder) (h : At l d done rest) (hlisted : d.listed l c.fails = .inr l) :
    Returned order c (d.uxRead order l c) (fitting c.num rest) ∧
      (d.uxRead order l c).dir.curOffset.value =
        d.curOffset.value + totalSize (fitting c.num rest) ∧
      (d.uxRead order l c).dir.dirList = some l ∧ (d.uxRead order l c).dir.isName = true := by
  have hbound := totalSize_listing_lt l
  rw [h.split, totalSize_append] at hbound
  have hprobe : d.usesProbe.listed l c.fails = .inr l := hlisted
  have hstart : d.curOffset.value % 2 ^ 32 = totalSize done := by
    rw [h.offset, mod_eq_of_lt (by omega)]
  have hseek : seek (totalSize done) 0 l.entries = rest := by
    rw [h.split, seek_append done rest (by omega) (by omega)]
  obtain ⟨hplace, hrecords, hframe⟩ := emit_emitted order c.num rest c.buf c.memory
  have hroom := totalSize_fitting_le c.num rest
  have hle := totalSize_le_of_prefix (fitting_initial c.num rest)
  have hnum : ((emit order (c.buf + c.num) rest c.buf c.memory).1 - c.buf).toNat =
      totalSize (fitting c.num rest) := by
    rw [hplace]
    omega
  have hinside : ∀ x, x < c.buf ∨ c.buf + c.num ≤ x →
      (emit order (c.buf + c.num) rest c.buf c.memory).2 x = c.memory x := by
    intro x hx
    exact hframe x (by omega)
  by_cases hempty : fitting c.num rest = []
  · have hout : d.uxRead order l c = ⟨some .invalidOffset,
        { d.usesProbe with dirList := some l }, 0,
        (emit order (c.buf + c.num) rest c.buf c.memory).2⟩ := by
      simp only [UxioDir.uxRead, UxioDir.ioReadInternal, hprobe, hstart, hseek, hnum, hempty,
        totalSize_nil, if_true]
    rw [hout, hempty]
    refine ⟨⟨hinside, rfl, zero_le _, trivial, by simp⟩, ?_, rfl, h.name⟩
    rw [totalSize_nil, add_zero]
    exact congrArg Dlong.value (curOffset_usesProbe d)
  · have hne : totalSize (fitting c.num rest) ≠ 0 := mt totalSize_eq_zero_iff.1 hempty
    have hout : d.uxRead order l c = ⟨none,
        { d.usesProbe with
          dirList := some l
          toUxio := d.usesProbe.toUxio.advance (totalSize (fitting c.num rest)) },
        totalSize (fitting c.num rest),
        (emit order (c.buf + c.num) rest c.buf c.memory).2⟩ := by
      simp only [UxioDir.uxRead, UxioDir.ioReadInternal, hprobe, hstart, hseek, hnum, hne, if_false]
    rw [hout]
    refine ⟨⟨hinside, rfl, hroom, hrecords, by simp [hempty]⟩, ?_, rfl, h.name⟩
    refine (Vectored.Uxio.value_advance _ (by omega)).trans ?_
    rw [curOffset_usesProbe, mod_eq_of_lt]
    rw [h.offset]
    omega

theorem At.uxRead (order : ByteOrder) (c : Call) (h : At l d done rest) :
    ∃ es rest', rest = es ++ rest' ∧ Returned order c (d.uxRead order l c) es ∧
      At l (d.uxRead order l c).dir (done ++ es) rest' ∧
      (c.fails = none → (∀ e ∈ rest.head?, e.size ≤ c.num) → rest ≠ [] → es ≠ []) := by
  rcases h.listed c.fails with hlisted | ⟨f, hfails, hlisted⟩
  · obtain ⟨rest', hrest⟩ := fitting_initial c.num rest
    obtain ⟨hreturned, hoffset, hcached, hname⟩ := h.served order hlisted
    refine ⟨_, rest', hrest.symm, hreturned, ⟨?_, ?_, .inr hcached, hname⟩, ?_⟩
    · rw [h.split, append_assoc, hrest]
    · rw [hoffset, h.offset, totalSize_append]
    · intro _ hroom hne
      cases rest with
      | nil => exact absurd rfl hne
      | cons e es => simp [fitting, hroom e rfl]
  · rw [uxRead_refused hlisted]
    refine ⟨[], rest, rfl, ⟨fun _ _ => rfl, rfl, zero_le _, trivial, by simp⟩, ?_, ?_⟩
    · rw [append_nil]
      exact h.usesProbe
    · intro hnone
      rw [hfails] at hnone
      cases hnone

end Calls

def Ample (rest : List NsEntry) (cs : List Call) (parts : List (List NsEntry)) : Prop :=
  ∀ i c, cs[i]? = some c → c.fails = none ∧
    ∀ e ∈ (rest.drop (parts.take i).flatten.length).head?, e.size ≤ c.num

structure Drained (order : ByteOrder) (l : Listing) (d : UxioDir) (done rest : List NsEntry)
    (cs : List Call) (parts : List (List NsEntry)) : Prop where
  calls : Forall₂ (fun p es => Returned order p.1 p.2 es) (d.run order l cs) parts
  inOrder : parts.flatten <+: rest
  place : ∃ rest', At l (d.afterRun order l cs) (done ++ parts.flatten) rest'
  complete : Ample rest cs parts → rest.length ≤ cs.length → parts.flatten = rest

section Runs

variable {order : ByteOrder} {l : Listing} {d : UxioDir} {c : Call} {cs : List Call}
  {done rest es : List NsEntry} {parts : List (List NsEntry)}

theorem Ample.tail (h : Ample (es ++ rest) (c :: cs) (es :: parts)) : Ample rest cs parts := by
  intro i c' hc'
  obtain ⟨hfails, hroom⟩ := h (i + 1) c' hc'
  refine ⟨hfails, ?_⟩
  rwa [take_succ_cons, flatten_cons, length_append, drop_length_add_append] at hroom

theorem At.run (order : ByteOrder) (cs : List Call) (h : At l d done rest) :
    ∃ parts, Drained order l d done rest cs parts := by
  induction cs generalizing d done rest with
  | nil =>
    refine ⟨[], .nil, nil_prefix, ⟨rest, ?_⟩, ?_⟩
    · rw [flatten_nil, append_nil]
      exact h
    · intro _ hlen
      exact (length_eq_zero_iff.1 (le_zero.1 hlen)).symm
  | cons c cs ih =>
    obtain ⟨es, rest', rfl, hreturned, hat, hprogress⟩ := h.uxRead order c
    obtain ⟨parts, hparts⟩ := ih hat
    refine ⟨es :: parts, .cons hreturned hparts.calls, ?_, ?_, ?_⟩
    · exact (prefix_append_right_inj es).2 hparts.inOrder
    · obtain ⟨rest'', hplace⟩ := hparts.place
      rw [append_assoc] at hplace
      exact ⟨rest'', hplace⟩
    · intro hample hlen
      obtain ⟨hfails, hroom⟩ := hample 0 c rfl
      have hrest : rest'.length ≤ cs.length := by
        by_cases hempty : es ++ rest' = []
        · rw [(append_eq_nil_iff.1 hempty).2]
          exact zero_le _
        · have hpos := length_pos_of_ne_nil (hprogress hfails hroom hempty)
          rw [length_append, length_cons] at hlen
          omega
      rw [flatten_cons, hparts.complete hample.tail hrest]

theorem value_sizes (hlt : totalSize es < 2 ^ 32) :
    (es.foldl (fun size e => size.addLong (dirsiz e.name.strlen)) Dlong.zero).value =
      totalSize es := by
  induction es using reverseRecOn with
  | nil => rfl
  | append_singleton es e ih =>
    rw [totalSize_append, totalSize_cons, totalSize_nil] at hlt ⊢
    have hsize : dirsiz e.name.strlen = e.size := rfl
    rw [foldl_append, foldl_cons, foldl_nil, hsize,
      Dlong.value_addLong _ (by omega), ih (by omega), mod_eq_of_lt (by omega), add_zero]

theorem At.attributes (h : At l d done rest) {attrs : Failure ⊕ NsAttrs} {fails : Option Failure}
    {a : NsAttrs} (ha : (d.nsGetAttributesInternal l attrs fails).1 = .inr a) :
    a.size.value = totalSize l.entries := by
  cases attrs with
  | inl f => cases ha
  | inr a' =>
    rcases h.listed fails with hlisted | ⟨f, -, hlisted⟩
    · simp only [UxioDir.nsGetAttributesInternal, hlisted, Sum.inr.injEq] at ha
      rw [← ha]
      exact value_sizes (totalSize_listing_lt l)
    · simp [UxioDir.nsGetAttributesInternal, hlisted] at ha

end Runs

theorem At.opened (l : Listing) (ndelay append : Bool) :
    At l (.opened ndelay append) [] l.entries :=
  ⟨rfl, show Dlong.zero.value = 0 by decide, .inl rfl, rfl⟩

structure ReadsDirectory (order : ByteOrder) (l : Listing) (d : UxioDir) (cs : List Call)
    (parts : List (List NsEntry)) : Prop where
  calls : Forall₂ (fun p es => Returned order p.1 p.2 es) (d.run order l cs) parts
  inOrder : parts.flatten <+: l.entries
  offset : (d.afterRun order l cs).curOffset.value = totalSize parts.flatten
  complete : Ample l.entries cs parts → l.entries.length ≤ cs.length → parts.flatten = l.entries
  size : parts.flatten = l.entries → ∀ attrs fails a,
    ((d.afterRun order l cs).nsGetAttributesInternal l attrs fails).1 = .inr a →
      a.size.value = (d.afterRun order l cs).curOffset.value

theorem directory_read_as_file (order : ByteOrder) (l : Listing) (ndelay append : Bool)
    (cs : List Call) : ∃ parts, ReadsDirectory order l (.opened ndelay append) cs parts := by
  obtain ⟨parts, hparts⟩ := (At.opened l ndelay append).run order cs
  obtain ⟨rest, hplace⟩ := hparts.place
  refine ⟨parts, hparts.calls, hparts.inOrder, hplace.offset, hparts.complete, ?_⟩
  intro hall attrs fails a ha
  rw [hplace.attributes ha, hplace.offset, nil_append, hall]

end MachUS.Ux.DirRead
