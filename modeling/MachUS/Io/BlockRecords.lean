import MachUS.Io.Queue

namespace MachUS.Io

open Memory Chain Nat List Block Word

structure BlockRecord where
  firstBlock : Option Addr
  lastBlock : Option Addr
  deriving DecidableEq

inductive ExtractCode where
  | success
  | invalidOffset
  | invalidBufferSize
  deriving DecidableEq

section Loops

variable (heap : Heap)

def cursizeLoop : ℕ → Option Addr → ℕ → Except Fault ℕ
  | _, none, size => pure size
  | 0, some _, _ => .error .endlessLoop
  | n + 1, some a, size => do
    let (_, b) ← load heap (some a)
    cursizeLoop n b.next (add size b.cursize)

def seekLoop : ℕ → Option Addr → ℕ → Except Fault (Option Addr × ℕ)
  | _, none, offset => pure (none, offset)
  | 0, some _, _ => .error .endlessLoop
  | n + 1, some a, offset => do
    let (_, b) ← load heap (some a)
    if offset < b.cursize then pure (some a, offset)
    else seekLoop n b.next (sub offset b.cursize)

def extractLoop : ℕ → Option Addr → ℕ → ℕ → List UInt8 → Except Fault (ℕ × List UInt8)
  | _, _, _, 0, buf => pure (0, buf)
  | _, none, _, len + 1, buf => pure (len + 1, buf)
  | 0, some _, _, _ + 1, _ => .error .endlessLoop
  | n + 1, some a, offset, len + 1, buf => do
    let (_, b) ← load heap (some a)
    let xlen := min (sub b.cursize offset) (len + 1)
    extractLoop n b.next 0 (len + 1 - xlen) (buf ++ bytes b.data (b.startOffset + offset) xlen)

def copyOutLoop : ℕ → Option Addr → ℕ → List UInt8 → Except Fault (Bool × ℕ × List UInt8)
  | _, none, resid, buf => pure (true, resid, buf)
  | 0, some _, _, _ => .error .endlessLoop
  | n + 1, some a, resid, buf => do
    let (_, b) ← load heap (some a)
    let xlen := b.cursize
    if resid < xlen then pure (false, resid, buf)
    else copyOutLoop n b.next (resid - xlen) (buf ++ b.read xlen)

variable (n : ℕ) (rec : BlockRecord)

def iorecCursize : Except Fault ℕ := cursizeLoop heap n rec.firstBlock 0

def iorecExtract (offset len : ℕ) : Except Fault (ExtractCode × List UInt8) := do
  match ← seekLoop heap n rec.firstBlock offset with
  | (none, _) => pure (.invalidOffset, [])
  | (some curblk, offset) =>
    let (len, buf) ← extractLoop heap n (some curblk) offset len []
    pure (if len ≠ 0 then .invalidBufferSize else .success, buf)

def iorecRead (mode : UInt32) (len : ℕ) : Except Fault (ExtractCode × ℕ × List UInt8) :=
  if mode &&& iomProbe ≠ 0 then do
    let size ← iorecCursize heap n rec
    pure (.success, size, [])
  else do
    let (fits, resid, buf) ← copyOutLoop heap n rec.firstBlock len []
    if fits then pure (.success, sub len resid, buf)
    else
      let size ← iorecCursize heap n rec
      pure (.invalidBufferSize, size, buf)

end Loops

def Block.Within (b : Block) : Prop := ∃ n, b.Sized n

namespace BlockRecord

structure Holds (rec : BlockRecord) (heap : Heap) (cells : List Cell) : Prop where
  along : Along next heap rec.firstBlock cells none
  last : rec.lastBlock = cells.getLast?.map Prod.fst
  within : ∀ x ∈ cells, x.2.Within
  room : headerSize * cells.length + used cells < 2 ^ 32

theorem Holds.used_lt {rec : BlockRecord} {heap : Heap} {cells : List Cell}
    (h : rec.Holds heap cells) : used cells < 2 ^ 32 :=
  (le_add_left _ _).trans_lt h.room

end BlockRecord

theorem Block.cursize_lt (b : Block) : b.cursize < 2 ^ 32 := mod_lt _ (by decide)

theorem Block.drop_contents (b : Block) {k : ℕ} (hk : k ≤ b.cursize) :
    b.contents.drop k = bytes b.data (b.startOffset + k) (b.cursize - k) := by
  obtain ⟨m, hm⟩ := Nat.exists_eq_add_of_le hk
  rw [contents, read, hm, bytes_append, drop_left' (bytes_length _ _ _), Nat.add_sub_cancel_left]

section Walks

variable {heap : Heap} {p : Option Addr} {cells : List Cell} {n : ℕ}

section Pass

variable {a : Addr} {b : Block} (hb : heap a = some b)

include hb

theorem cursizeLoop_pass (size : ℕ) :
    cursizeLoop heap (n + 1) (some a) size = cursizeLoop heap n b.next (add size b.cursize) := by
  rw [cursizeLoop, load_some hb]
  rfl

theorem seekLoop_pass (offset : ℕ) :
    seekLoop heap (n + 1) (some a) offset =
      if offset < b.cursize then .ok (some a, offset)
      else seekLoop heap n b.next (sub offset b.cursize) := by
  rw [seekLoop, load_some hb]
  rfl

theorem extractLoop_pass (offset len : ℕ) (buf : List UInt8) :
    extractLoop heap (n + 1) (some a) offset (len + 1) buf =
      extractLoop heap n b.next 0 (len + 1 - min (sub b.cursize offset) (len + 1))
        (buf ++ bytes b.data (b.startOffset + offset) (min (sub b.cursize offset) (len + 1))) := by
  rw [extractLoop, load_some hb]
  rfl

theorem copyOutLoop_pass (resid : ℕ) (buf : List UInt8) :
    copyOutLoop heap (n + 1) (some a) resid buf =
      if resid < b.cursize then .ok (false, resid, buf)
      else copyOutLoop heap n b.next (resid - b.cursize) (buf ++ b.contents) := by
  rw [copyOutLoop, load_some hb]
  rfl

end Pass

section

variable (h : Along next heap p cells none) (hn : cells.length ≤ n)

include h hn

theorem cursizeLoop_eq (size : ℕ) (hsize : size + used cells < 2 ^ 32) :
    cursizeLoop heap n p size = .ok (size + used cells) := by
  induction cells generalizing p n size with
  | nil =>
    obtain rfl : p = none := h
    rw [cursizeLoop, used_nil, add_zero]
    rfl
  | cons x cells ih =>
    obtain ⟨rfl, hx, hrest⟩ := h
    obtain ⟨n, rfl⟩ := exists_eq_add_one.mpr (zero_lt_of_lt hn)
    rw [used_cons, ← add_assoc] at hsize ⊢
    rw [cursizeLoop_pass hx, add_of_lt (by omega)]
    exact ih hrest (Nat.le_of_succ_le_succ hn) _ hsize

theorem seekLoop_past {offset : ℕ} (hoffset : offset < 2 ^ 32) (hpast : used cells ≤ offset) :
    seekLoop heap n p offset = .ok (none, offset - used cells) := by
  induction cells generalizing p n offset with
  | nil =>
    obtain rfl : p = none := h
    rw [seekLoop, used_nil, Nat.sub_zero]
    rfl
  | cons x cells ih =>
    obtain ⟨rfl, hx, hrest⟩ := h
    obtain ⟨n, rfl⟩ := exists_eq_add_one.mpr (zero_lt_of_lt hn)
    rw [used_cons] at hpast
    rw [seekLoop_pass hx, if_neg (by omega), sub_of_le (by omega) hoffset,
      ih hrest (Nat.le_of_succ_le_succ hn) (by omega) (by omega), used_cons, Nat.sub_sub]

theorem seekLoop_within (offset : ℕ) (hoffset : offset < 2 ^ 32) (hwithin : offset < used cells) :
    ∃ front x back, cells = front ++ x :: back ∧ used front ≤ offset ∧
      offset - used front < x.2.cursize ∧
      seekLoop heap n p offset = .ok (some x.1, offset - used front) := by
  induction cells generalizing p n offset with
  | nil => exact absurd hwithin (not_lt_zero _)
  | cons x cells ih =>
    obtain ⟨rfl, hx, hrest⟩ := h
    obtain ⟨n, rfl⟩ := exists_eq_add_one.mpr (zero_lt_of_lt hn)
    rw [seekLoop_pass hx]
    rcases lt_or_ge offset x.2.cursize with hlt | hge
    · refine ⟨[], x, cells, rfl, zero_le _, hlt, ?_⟩
      rw [if_pos hlt]
      rfl
    · rw [used_cons] at hwithin
      obtain ⟨front, y, back, rfl, hle, hlt, hseek⟩ :=
        ih hrest (Nat.le_of_succ_le_succ hn) (offset - x.2.cursize) (by omega) (by omega)
      refine ⟨x :: front, y, back, rfl, ?_, ?_, ?_⟩
      · rw [used_cons]
        omega
      · rw [used_cons, ← Nat.sub_sub]
        exact hlt
      · rw [if_neg (Nat.not_lt.mpr hge), sub_of_le hge hoffset, hseek, used_cons, Nat.sub_sub]

theorem extractLoop_eq
    (offset len : ℕ) (buf : List UInt8) (hoffset : ∀ x ∈ cells.head?, offset ≤ x.2.cursize) :
    extractLoop heap n p offset len buf =
      .ok (len - (used cells - offset), buf ++ ((contents cells).drop offset).take len) := by
  induction cells generalizing p n offset len buf with
  | nil =>
    obtain rfl : p = none := h
    cases len <;> simp [extractLoop]
  | cons x cells ih =>
    obtain ⟨rfl, hx, hrest⟩ := h
    obtain ⟨n, rfl⟩ := exists_eq_add_one.mpr (zero_lt_of_lt hn)
    have hle : offset ≤ x.2.cursize := hoffset x rfl
    cases len with
    | zero =>
      rw [extractLoop, take_zero, append_nil, Nat.zero_sub]
      rfl
    | succ len =>
      have hlen : (x.2.contents.drop offset).length = x.2.cursize - offset := by
        rw [length_drop, Block.contents_length]
      have htake : (x.2.contents.drop offset).take (len + 1) =
          bytes x.2.data (x.2.startOffset + offset) (min (x.2.cursize - offset) (len + 1)) := by
        rw [x.2.drop_contents hle]
        rcases le_total (x.2.cursize - offset) (len + 1) with hmin | hmin
        · rw [min_eq_left hmin, take_of_length_le (by rw [bytes_length]; exact hmin)]
        · rw [min_eq_right hmin, take_bytes _ _ hmin]
      have hleft : len + 1 - min (x.2.cursize - offset) (len + 1) =
          len + 1 - (x.2.cursize - offset) := by omega
      have hcount : len + 1 - (x.2.cursize - offset) - (used cells - 0) =
          len + 1 - (x.2.cursize + used cells - offset) := by omega
      rw [extractLoop_pass hx, sub_of_le hle x.2.cursize_lt,
        ih hrest (Nat.le_of_succ_le_succ hn) 0 _ _ fun _ _ => zero_le _, hleft, hcount,
        contents_cons,
        drop_append_of_le_length (by rw [Block.contents_length]; exact hle), take_append,
        htake, hlen, used_cons, drop_zero, append_assoc]

theorem copyOutLoop_eq (resid : ℕ) (buf : List UInt8) :
    ∃ fits rest buf', copyOutLoop heap n p resid buf = .ok (fits, rest, buf') ∧
      (fits = true ↔ used cells ≤ resid) ∧
      (fits = true → rest = resid - used cells ∧ buf' = buf ++ contents cells) := by
  induction cells generalizing p n resid buf with
  | nil =>
    obtain rfl : p = none := h
    exact ⟨true, resid, buf, by rw [copyOutLoop]; rfl, by simp, by simp⟩
  | cons x cells ih =>
    obtain ⟨rfl, hx, hrest⟩ := h
    obtain ⟨n, rfl⟩ := exists_eq_add_one.mpr (zero_lt_of_lt hn)
    simp only [copyOutLoop_pass hx, used_cons, contents_cons]
    rcases lt_or_ge resid x.2.cursize with hlt | hge
    · refine ⟨false, resid, buf, by rw [if_pos hlt], ?_, fun hfits => by cases hfits⟩
      simp only [Bool.false_eq_true, false_iff]
      omega
    · obtain ⟨fits, rest, buf', hcopy, hfits, hdone⟩ :=
        ih hrest (Nat.le_of_succ_le_succ hn) (resid - x.2.cursize) (buf ++ x.2.contents)
      refine ⟨fits, rest, buf', ?_, ?_, fun hf => ?_⟩
      · rw [if_neg (Nat.not_lt.mpr hge)]
        exact hcopy
      · rw [hfits]
        omega
      · obtain ⟨hrest', hbuf⟩ := hdone hf
        rw [hrest', hbuf, Nat.sub_sub, append_assoc]
        exact ⟨rfl, rfl⟩

end

end Walks

namespace BlockRecord.Holds

variable {rec : BlockRecord} {heap : Heap} {cells : List Cell} {n : ℕ} (h : rec.Holds heap cells)
  (hn : cells.length ≤ n)

include h hn

theorem cursize_eq : iorecCursize heap n rec = .ok (contents cells).length := by
  rw [iorecCursize, cursizeLoop_eq h.along hn 0 (by rw [zero_add]; exact h.used_lt),
    zero_add, contents_length]

theorem extract_eq (offset len : ℕ) (hoffset : offset < 2 ^ 32) :
    ∃ code buf, iorecExtract heap n rec offset len = .ok (code, buf) ∧
      (code = .success ↔
        offset < (contents cells).length ∧ offset + len ≤ (contents cells).length) ∧
      (code = .success → buf = ((contents cells).drop offset).take len) := by
  rw [contents_length]
  rcases lt_or_ge offset (used cells) with hlt | hge
  · obtain ⟨front, x, back, hcells, hle, hx, hseek⟩ := seekLoop_within h.along hn offset hoffset hlt
    rw [hcells] at h hn hlt ⊢
    obtain ⟨q, -, hback⟩ := h.along.split
    obtain rfl : q = some x.1 := hback.1
    have hlen : (x :: back).length ≤ n := by
      rw [length_append] at hn
      omega
    have hfill := extractLoop_eq hback hlen (offset - used front) len [] fun y hy => by
      obtain rfl : x = y := Option.some.inj hy
      exact hx.le
    have hslice : (contents (front ++ x :: back)).drop offset =
        (contents (x :: back)).drop (offset - used front) := by
      rw [contents_append, drop_append, contents_length,
        drop_of_length_le (by rw [contents_length]; exact hle), nil_append]
    rw [nil_append] at hfill
    rw [iorecExtract, hseek, Outcome.ok_bind]
    dsimp only
    rw [used_append] at hlt ⊢
    rw [hfill, Outcome.ok_bind, hslice]
    refine ⟨_, _, rfl, ?_, fun _ => rfl⟩
    split_ifs with hne
    · simp only [false_iff]
      omega
    · simp only [true_iff]
      omega
  · refine ⟨.invalidOffset, [], ?_, ?_, fun hcode => by cases hcode⟩
    · rw [iorecExtract, seekLoop_past h.along hn hoffset hge]
      rfl
    · simp only [reduceCtorEq, false_iff]
      omega

theorem read_eq (mode : UInt32) {len : ℕ} (hlen : len < 2 ^ 32) :
    ∃ code size buf, iorecRead heap n rec mode len = .ok (code, size, buf) ∧
      size = (contents cells).length ∧
      (mode &&& iomProbe ≠ 0 → code = .success ∧ buf = []) ∧
      (mode &&& iomProbe = 0 → (contents cells).length ≤ len →
        code = .success ∧ buf = contents cells) ∧
      (mode &&& iomProbe = 0 → len < (contents cells).length → code = .invalidBufferSize) := by
  have hsize := h.cursize_eq hn
  by_cases hprobe : mode &&& iomProbe ≠ 0
  · refine ⟨.success, _, [], ?_, rfl, fun _ => ⟨rfl, rfl⟩, fun h0 => absurd h0 hprobe,
      fun h0 => absurd h0 hprobe⟩
    rw [iorecRead, if_pos hprobe, hsize]
    rfl
  obtain ⟨fits, rest, buf, hcopy, hfits, hdone⟩ :=
    copyOutLoop_eq h.along hn len []
  rw [← contents_length] at hfits
  rw [iorecRead, if_neg hprobe, hcopy, Outcome.ok_bind]
  cases fits with
  | true =>
    obtain ⟨hrest, hbuf⟩ := hdone rfl
    have hle := hfits.mp rfl
    rw [← contents_length] at hrest
    refine ⟨.success, _, buf, rfl, ?_, fun h0 => absurd h0 hprobe, fun _ _ => ⟨rfl, hbuf⟩,
      fun _ hlt => absurd hle (not_le.mpr hlt)⟩
    rw [hrest, sub_of_le (sub_le _ _) hlen]
    omega
  | false =>
    have hlt : ¬(contents cells).length ≤ len := fun hle => Bool.false_ne_true (hfits.mpr hle)
    refine ⟨.invalidBufferSize, _, buf, ?_, rfl, fun h0 => absurd h0 hprobe,
      fun _ hle => absurd hle hlt, fun _ _ => rfl⟩
    simp only [hsize]
    rfl

end BlockRecord.Holds

theorem iorec_extract_slices {rec : BlockRecord} {heap : Heap} {cells : List Cell} {n : ℕ}
    (h : rec.Holds heap cells) (hn : cells.length ≤ n) :
    (∀ offset len : UInt32, ∃ code buf,
      iorecExtract heap n rec offset.toNat len.toNat = .ok (code, buf) ∧
      (code = .success ↔ offset.toNat < (contents cells).length ∧
        offset.toNat + len.toNat ≤ (contents cells).length) ∧
      (code = .success → buf = ((contents cells).drop offset.toNat).take len.toNat)) ∧
    (∀ mode len : UInt32, ∃ code size buf,
      iorecRead heap n rec mode len.toNat = .ok (code, size, buf) ∧
      size = (contents cells).length ∧
      (mode &&& iomProbe ≠ 0 → code = .success ∧ buf = []) ∧
      (mode &&& iomProbe = 0 → (contents cells).length ≤ len.toNat →
        code = .success ∧ buf = contents cells) ∧
      (mode &&& iomProbe = 0 → len.toNat < (contents cells).length → code = .invalidBufferSize)) ∧
    iorecCursize heap n rec = .ok (contents cells).length :=
  ⟨fun offset len => h.extract_eq hn offset.toNat len.toNat offset.toNat_lt,
    fun mode len => h.read_eq hn mode len.toNat_lt, h.cursize_eq hn⟩

namespace Scattered

def block (next : Option Addr) (bs : List UInt8) : Block where
  next := next
  minOffset := headerSize
  maxOffset := headerSize + 4
  startOffset := headerSize + 1
  endOffset := headerSize + 1 + bs.length
  data := store (fun _ => 0) (headerSize + 1) bs

def cells : List Cell :=
  [(64, block (some 128) [1, 2]), (128, block (some 192) []), (192, block none [3])]

def heap : Heap := fun a => (cells.find? fun x => x.1 = a).map Prod.snd

def record : BlockRecord := ⟨some 64, some 192⟩

theorem block_within (next : Option Addr) {bs : List UInt8} (h : bs.length ≤ 3) :
    (block next bs).Within := by
  refine ⟨4, ?_⟩
  constructor <;> simp only [block, headerSize] <;> omega

theorem record_holds : record.Holds heap cells where
  along := ⟨rfl, rfl, rfl, rfl, rfl, rfl, rfl⟩
  last := rfl
  within := by
    intro x hx
    simp only [cells, mem_cons, not_mem_nil, or_false] at hx
    rcases hx with rfl | rfl | rfl <;> exact block_within _ (by decide)
  room := by decide

end Scattered

theorem iorec_extract_slices_scattered :
    ∃ code buf, iorecExtract Scattered.heap 3 Scattered.record 1 2 = .ok (code, buf) ∧
      code = .success ∧ buf = [2, 3] := by
  obtain ⟨code, buf, hrun, hcode, hbuf⟩ :=
    (iorec_extract_slices Scattered.record_holds (le_refl 3)).1 1 2
  have hsuccess : code = .success := hcode.mpr (by decide)
  exact ⟨code, buf, hrun, hsuccess, (hbuf hsuccess).trans (by decide)⟩

theorem empty_slice_refused : Scattered.record.Holds Scattered.heap Scattered.cells ∧
    ¬∀ offset len : UInt32,
      (∃ buf, iorecExtract Scattered.heap 3 Scattered.record offset.toNat len.toNat =
        .ok (.success, buf)) ↔
      offset.toNat + len.toNat ≤ (contents Scattered.cells).length := by
  refine ⟨Scattered.record_holds, fun hslices => ?_⟩
  obtain ⟨buf, hrun⟩ := (hslices 3 0).mpr (by decide)
  have hrefused :
      iorecExtract Scattered.heap 3 Scattered.record 3 0 = .ok (.invalidOffset, []) := by
    decide
  cases hrun.symm.trans hrefused

end MachUS.Io
