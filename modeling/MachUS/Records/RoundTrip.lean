import MachUS.Io.PullUp
import MachUS.Records.RecordQueue

namespace MachUS.Records

open Chain Function RecordStream Content
open Io (Addr Cell iomProbe iomTruncate iomWait iosEnabled iosWaitAllowed)
open Io.Stream (invalidMode minimum)

variable {ι : Type}

section Blocks

variable {heap : Io.Heap} {p : Option Addr} {cells : List Cell} {n : ℕ}

theorem foldl_add (blocks : List (List UInt8)) (size : ℕ)
    (hsize : size + blocks.flatten.length < 2 ^ 32) :
    blocks.foldl (fun size blk => Word.add size blk.length) size =
      size + blocks.flatten.length := by
  induction blocks generalizing size with
  | nil => rfl
  | cons blk blocks ih =>
    rw [List.flatten_cons, List.length_append] at hsize ⊢
    rw [List.foldl_cons, Word.add_of_lt (by omega), ih _ (by omega)]
    omega

theorem Content.cursize_eq {c : Content ι} (h : c.blocks.flatten.length < 2 ^ 32) :
    c.cursize = c.blocks.flatten.length := by
  rw [cursize, foldl_add c.blocks 0 (by omega), Nat.zero_add]

end Blocks

namespace RecordStream

variable (ops : RecinfoOps ι) (s : RecordStream ι)

def write1rec (mode : UInt32) (buf : List UInt8) (recinfo : Option ι) (malloc stray : Option Addr) :
    Except Fault (Progress ι) := do
  match ← s.ioWrite1recSeqWithInfo ops mode buf recinfo malloc with
  | .returns code s => pure (.returns { code := code } s)
  | .putrec rec s => (Pending.put mode rec 1 true).enter ops s stray

def ReadsBack (rest : List (Node ι)) (buf : List UInt8) (mode : UInt32) (len : ℕ)
    (recinfo : Option ι) : Prop :=
  (buf.length ≤ len → ∃ ret s', s.ioRead1recSeqWithInfo ops mode len recinfo =
      .ok (.returns ret s') ∧
    ret.code = .success ∧ ret.buf = buf ∧ ret.len = buf.length ∧ Queue s' rest) ∧
  (len < buf.length → ∃ ret, s.ioRead1recSeqWithInfo ops mode len recinfo = .ok (.returns ret s) ∧
    ret.code = .invalidBufferSize ∧ ret.len = buf.length)

def RoundTrips (l : List (Node ι)) (mode : UInt32) (buf : List UInt8) (recinfo : Option ι)
    (malloc stray : Option Addr) : Prop :=
  ∃ ret s' l' w, s.write1rec ops mode buf recinfo malloc stray = .ok (.returns ret s') ∧
    ret.code = .success ∧ Queue s' l' ∧ contents l' = contents l ++ [w] ∧
    ∀ (t : RecordStream ι) (r : Record ι) (rest : List (Node ι)),
      Queue t ((w.1, r) :: rest) → r.toContent = w.2 →
      ∀ mode len recinfo, ¬invalidMode1 mode → mode &&& iomProbe = 0 →
        t.readStrategy &&& iosEnabled ≠ 0 → t.ReadsBack ops rest buf mode len recinfo

end RecordStream

theorem invalidMode_of_invalidMode1 {mode : UInt32} (h : ¬invalidMode1 mode) :
    ¬invalidMode mode := by
  rw [invalidMode1, not_not] at h
  have hmask : ~~~(iomWait ||| iomProbe ||| iomTruncate) =
      ~~~(iomWait ||| iomProbe) &&& ~~~iomTruncate := by decide
  rw [invalidMode, not_not, hmask, ← UInt32.and_assoc, h, UInt32.zero_and]

theorem iorecRead_single {c : Content ι} {buf : List UInt8} (hblocks : c.blocks = [buf])
    (hbuf : buf.length < 2 ^ 32) {mode : UInt32} (hprobe : mode &&& iomProbe = 0) (len : ℕ) :
    c.iorecRead mode len = if len < buf.length then (.invalidBufferSize, buf.length, [])
      else (.success, buf.length, buf) := by
  have hsize : c.cursize = buf.length := by
    have hflat : c.blocks.flatten = buf := by
      rw [hblocks, List.flatten_cons, List.flatten_nil, List.append_nil]
    rw [cursize_eq (by rw [hflat]; exact hbuf), hflat]
  rw [iorecRead, if_neg (not_not.mpr hprobe), hblocks, hsize, copyBlocks]
  split_ifs with hlt
  · rfl
  · have hsub : len - (len - buf.length) = buf.length := Nat.sub_sub_self (Nat.not_lt.mp hlt)
    simp only [copyBlocks, hsub, List.nil_append]

namespace Queue

variable {ops : RecinfoOps ι} {s : RecordStream ι} {l rest : List (Node ι)} {a : Addr}
  {r : Record ι} {buf : List UInt8} {mode : UInt32}

theorem readsBack (h : Queue s ((a, r) :: rest)) (hblocks : r.blocks = [buf])
    (hbuf : buf.length < 2 ^ 32) (hmode : ¬invalidMode1 mode)
    (hprobe : mode &&& iomProbe = 0) (henabled : s.readStrategy &&& iosEnabled ≠ 0) (len : ℕ)
    (recinfo : Option ι) : s.ReadsBack ops rest buf mode len recinfo := by
  have hread := iorecRead_single hblocks hbuf hprobe len
  have hcount := h.count
  rw [List.length_cons] at hcount
  have henter : s.ioRead1recSeqWithInfo ops mode len recinfo =
      s.readReady ops mode len recinfo := by
    rw [ioRead1recSeqWithInfo, if_neg hmode, if_neg henabled, readWait, if_neg (by omega)]
  refine ⟨fun hle => ?_, fun hlt => ?_⟩
  · rw [if_neg (Nat.not_lt.mpr hle)] at hread
    obtain ⟨s', hrun, hrest, -⟩ := h.readReady ops hprobe hread recinfo
    exact ⟨_, s', henter.trans hrun, rfl, rfl, rfl, hrest⟩
  · rw [if_pos hlt] at hread
    obtain ⟨hfirst, hr, -⟩ := h.chain
    have hrun : s.readReady ops mode len recinfo = .ok (.returns
        { code := .invalidBufferSize
          recnum := s.firstRecnum
          len := buf.length
          info := recinfo } s) := by
      rw [RecordStream.readReady, hfirst, load_eq hr, Outcome.ok_bind]
      simp only [hread]
      rfl
    exact ⟨_, henter.trans hrun, rfl, rfl⟩

section Write

variable (hmode : ¬invalidMode1 mode) (hprobe : mode &&& iomProbe = 0)
  {recinfo : Option ι} (hinfo : ∀ info ∈ recinfo, ops.size info ≤ s.infosize)

include hmode hprobe hinfo

theorem ioWrite1rec_fills (a : Addr) (buf : List UInt8) :
    s.ioWrite1recSeqWithInfo ops mode buf recinfo (some a) =
      (s.ioAllocRecord ops a buf.length).fillRecord ops a buf recinfo := by
  have hsize : ¬∃ info ∈ recinfo, (s.ioAllocRecord ops a buf.length).infosize < ops.size info := by
    rintro ⟨info, hmem, hlt⟩
    exact absurd (hinfo info hmem) (Nat.not_le.mpr hlt)
  rw [ioWrite1recSeqWithInfo, if_neg hmode, if_pos hprobe]
  rw [if_neg hsize]

theorem write1rec_nil (a : Addr) (stray : Option Addr) :
    s.write1rec ops mode [] recinfo (some a) stray = .error .noBlock := by
  rw [RecordStream.write1rec, ioWrite1rec_fills hmode hprobe hinfo, fillRecord,
    ioAllocRecord, load_eq (update_self _ _ _)]
  rfl

theorem ioWrite1rec_putrec (a : Addr) (hbuf : buf ≠ []) :
    ∃ r : Record ι, s.ioWrite1recSeqWithInfo ops mode buf recinfo (some a) =
        .ok (.putrec (some a) { s with heap := update s.heap a (some r) }) ∧
      r.blocks = [buf] ∧ r.next = none := by
  have hpos : 0 < buf.length := List.length_pos_of_ne_nil hbuf
  rw [ioWrite1rec_fills hmode hprobe hinfo, fillRecord]
  simp only [ioAllocRecord, if_pos hpos, load_eq (update_self _ _ _), Outcome.ok_bind, update_idem]
  exact ⟨_, rfl, rfl, rfl⟩

theorem write1rec (h : Queue s l) (henabled : s.writeStrategy &&& iosEnabled ≠ 0)
    (hroom : s.qused < s.qmax) (hfresh : s.heap a = none) (hbuf : buf ≠ []) (stray : Option Addr) :
    ∃ ret s' l' c, s.write1rec ops mode buf recinfo (some a) stray = .ok (.returns ret s') ∧
      ret.code = .success ∧ Queue s' l' ∧ contents l' = contents l ++ [(a, c)] ∧
      c.blocks = [buf] := by
  obtain ⟨r, hfill, hblocks, hnext⟩ := ioWrite1rec_putrec hmode hprobe hinfo a hbuf
  have ha : a ∉ keys l := h.chain.fresh hfresh
  have hq : Queue { s with heap := update s.heap a (some r) } l :=
    h.congr (fun b hb => update_of_ne (by rintro rfl; exact ha hb) _ _) s.readStrategy
      s.writeStrategy
  have hlist : Along Record.next (update s.heap a (some r)) (some a)
      (([] : List (Node ι)) ++ (a, r) :: []) none := ⟨rfl, update_self _ _ _, hnext⟩
  have hone : min 1 (s.qmax - s.qused) = ([] : List (Node ι)).length + 1 := by
    simp only [List.length_nil]
    omega
  obtain ⟨nxtrec, s', l', hput, hq', hcontents, -⟩ :=
    hq.putReady hlist (by simpa using ha) hprobe hone stray
  refine ⟨{ code := .success, count := 1, recnum := s.nextRecnum, record := nxtrec }, s', l',
    r.toContent, ?_, rfl, hq', hcontents, hblocks⟩
  have hless : ¬Word.sub s.qmax s.qused < minimum mode 1 := by
    rw [Word.sub_of_le h.bound h.word, minimum, ite_self]
    omega
  rw [RecordStream.write1rec, hfill, Outcome.ok_bind]
  dsimp only
  rw [Pending.enter]
  simp only [ioPutrecSeq, if_neg (invalidMode_of_invalidMode1 hmode), if_neg henabled,
    putWait, if_neg hless, hput]
  rfl

end Write

end Queue

theorem one_record_round_trip_iff (ops : RecinfoOps ι) {s : RecordStream ι} {l : List (Node ι)}
    (h : Queue s l) {mode : UInt32} (hmode : ¬invalidMode1 mode)
    (hprobe : mode &&& iomProbe = 0) (henabled : s.writeStrategy &&& iosEnabled ≠ 0)
    (hroom : s.qused < s.qmax) {recinfo : Option ι}
    (hinfo : ∀ info ∈ recinfo, ops.size info ≤ s.infosize) {a : Addr} (hfresh : s.heap a = none)
    {buf : List UInt8} (hbuf : buf.length < 2 ^ 32) (stray : Option Addr) :
    s.RoundTrips ops l mode buf recinfo (some a) stray ↔ buf ≠ [] := by
  constructor
  · rintro ⟨ret, s', l', w, hrun, -⟩ rfl
    rw [Queue.write1rec_nil hmode hprobe hinfo] at hrun
    cases hrun
  · intro hne
    obtain ⟨ret, s', l', c, hrun, hcode, hq, hcontents, hblocks⟩ :=
      Queue.write1rec hmode hprobe hinfo h henabled hroom hfresh hne stray
    refine ⟨ret, s', l', (a, c), hrun, hcode, hq, hcontents, ?_⟩
    intro t r rest hfront hr mode' len recinfo' hmode' hprobe' henabled'
    exact hfront.readsBack ((congrArg blocks hr).trans hblocks) hbuf hmode' hprobe'
      henabled' len recinfo'

def noInfo : RecinfoOps Unit := ⟨(), fun _ _ => (), fun _ => 0⟩

def emptyStream : RecordStream Unit := create 4 3 3 0 fun _ => none

theorem emptyStream_queue : Queue emptyStream [] :=
  ⟨rfl, rfl, rfl, by decide, by decide, by decide⟩

theorem one_record_round_trip_iff_two_bytes :
    emptyStream.RoundTrips noInfo [] 0 [1, 2] none (some 8) none ↔ [1, 2] ≠ ([] : List UInt8) :=
  one_record_round_trip_iff noInfo emptyStream_queue (by decide) (by decide) (by decide) (by decide)
    (by simp) rfl (by decide) none

theorem empty_record_not_written : ¬emptyStream.RoundTrips noInfo [] 0 [] none (some 8) none := by
  rintro ⟨ret, s', l', w, hrun, -⟩
  have hfault : emptyStream.write1rec noInfo 0 [] none (some 8) none = .error .noBlock :=
    Queue.write1rec_nil (by decide) (by decide) (by simp) 8 none
  cases hfault.symm.trans hrun

end MachUS.Records
