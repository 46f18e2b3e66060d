import MachUS.Io.Reads

namespace MachUS.Io

open Memory Chain Outcome Stream List Word Nat Block

inductive Given where
  | untouched
  | unset
  | chain (firstblk : Option Addr)

structure Handed where
  code : Code
  count : ℕ
  offset : Option Dlong
  blk : Given

inductive Getting where
  | waits
  | returns (ret : Handed) (s : Stream)

namespace Stream

def completeBlocks : ℕ → Heap → ℕ → Option Addr → Option Addr →
    Except Fault (ℕ × Option Addr × Option Addr)
  | _, _, 0, lastblk, prevblk => pure (0, lastblk, prevblk)
  | _, _, resid + 1, none, prevblk => pure (resid + 1, none, prevblk)
  | 0, _, _ + 1, some _, _ => .error .endlessLoop
  | n + 1, heap, resid + 1, some lastblk, prevblk => do
    let (_, b) ← load heap (some lastblk)
    if b.cursize ≤ resid + 1 then
      completeBlocks n heap (resid + 1 - b.cursize) b.next (some lastblk)
    else pure (resid + 1, some lastblk, prevblk)

variable (s : Stream)

def denies (code : Code) (count : ℕ) : Getting := .returns ⟨code, count, none, .untouched⟩ s

def finish (code : Code) (count : ℕ) (offset : Dlong) (blk : Given) : Getting :=
  .returns ⟨code, count, some offset, blk⟩
    { s with readOffset := s.readOffset.addLong count }

def copyExcess (lastblk endblk : Addr) (resid : ℕ) : Except Fault Stream := do
  let (_, b) ← load s.heap (some lastblk)
  let (_, e) ← load s.heap (some endblk)
  let heap := put s.heap endblk
    { e with
      data := store e.data e.startOffset (b.read resid)
      endOffset := add e.endOffset resid }
  let (_, b) ← load heap (some lastblk)
  pure { s with heap := put heap lastblk (b.advance resid), qused := sub s.qused resid }

-- The value that the uninitialised firstblk happens to have is junk: DEQ_RBLKS compares it.
def getExcess (malloc : Option (Addr × Mem)) (junk : Addr) (count resid : ℕ) (offset : Dlong)
    (lastblk : Addr) : Option Addr → Except Fault Getting
  | some prevblk => do
    let s ← s.deqRblks junk prevblk (count - resid)
    let firstblk := s.readblk
    let (_, p) ← load s.heap (some prevblk)
    if p.freesize ≤ resid then
      match malloc with
      | none =>
        pure (s.finish .resourceExhausted (count - resid) offset (.chain firstblk))
      | some (endblk, data) => do
        let heap := put s.heap endblk (newBlock (max resid s.blksize) data)
        let (_, p) ← load heap (some prevblk)
        let s := { s with heap := put heap prevblk { p with next := some endblk } }
        let s ← s.copyExcess lastblk endblk resid
        pure (s.finish .success count offset (.chain firstblk))
    else do
      let s ← s.copyExcess lastblk prevblk resid
      pure (s.finish .success count offset (.chain firstblk))
  | none =>
    match malloc with
    | none => pure (s.finish .resourceExhausted (count - resid) offset (.chain none))
    | some (endblk, data) => do
      let s := { s with heap := put s.heap endblk (newBlock (max resid s.blksize) data) }
      let s ← s.copyExcess lastblk endblk resid
      pure (s.finish .success count offset (.chain (some endblk)))

def getReady (malloc : Option (Addr × Mem)) (junk : Addr) (mode : UInt32) (num : ℕ) :
    Except Fault Getting :=
  let count := min num s.qused
  let offset := s.readOffset
  if mode &&& iomProbe ≠ 0 then
    pure (.returns ⟨.success, count, some offset, .untouched⟩ s)
  else do
    let (resid, lastblk, prevblk) ← completeBlocks (2 ^ 32) s.heap count s.readblk none
    if 0 < resid then
      match lastblk with
      | none =>
        pure (.returns ⟨.internalError, count, some offset, .untouched⟩
          (s.usInternalError .getRanOutOfBlocks))
      | some lastblk => s.getExcess malloc junk count resid offset lastblk prevblk
    else
      match prevblk with
      | some prevblk => do
        let s ← s.deqRblks junk prevblk (count - resid)
        pure (s.finish .success count offset .unset)
      | none => pure (s.finish .success count offset .unset)

def getWait (malloc : Option (Addr × Mem)) (junk : Addr) (mode : UInt32) (num : ℕ) :
    Except Fault Getting :=
  if s.qused < minimum mode num then
    if s.readStrategy &&& iosWaitAllowed = 0 then pure (s.denies .rejected num)
    else if mode &&& iomWait ≠ 0 then pure .waits
    else pure (s.denies .objectBusy num)
  else s.getReady malloc junk mode num

def ioGetbytesSeq (malloc : Option (Addr × Mem)) (junk : Addr) (mode : UInt32) (num : ℕ) :
    Except Fault Getting :=
  if invalidMode mode then pure (s.denies .invalidMode num)
  else if s.readStrategy &&& iosEnabled = 0 then pure (s.denies .rejected num)
  else s.getWait malloc junk mode num

def getWoken (malloc : Option (Addr × Mem)) (junk : Addr) (mode : UInt32) (num : ℕ)
    (interrupted : Bool) : Except Fault Getting :=
  if interrupted then pure (s.denies .exceptSoftware num)
  else if s.readStrategy &&& iosEnabled = 0 then pure (s.denies .rejected num)
  else s.getWait malloc junk mode num

end Stream

structure Held (s : Stream) (front back : List Cell) : Prop where
  linked : Linked s.heap s.readblk s.writeblk front back
  held : back = [] → front = []
  sized : ∀ x ∈ front ++ back, ∃ n, x.2.Sized n
  spare : ∀ x ∈ back.tail, x.2.Blank ∧ 0 < x.2.freesize
  used : s.qused = used (front ++ back)
  word : s.qused < 2 ^ 32
  free : s.qfree = room back % 2 ^ 32

theorem Queue.held {s : Stream} {front back : List Cell} (h : Queue s front back)
    (hused : s.qused < 2 ^ 32) (hfree : s.qfree < 2 ^ 32) : Held s front back where
  linked := h.linked
  held := h.shape.held
  sized := fun x hx => ⟨s.blksize, h.shape.sized x hx⟩
  spare := by
    intro x hx
    have hmem : x ∈ back := mem_of_mem_tail hx
    have hblank := h.shape.rest x hx
    have hsized := h.shape.sized x (mem_append_right front hmem)
    refine ⟨hblank, ?_⟩
    rw [hsized.freesize_blank hblank]
    exact h.shape.positive (ne_nil_of_mem hmem)
  used := h.used
  word := hused
  free := h.free.trans (mod_eq_of_lt (h.free ▸ hfree)).symm

namespace Stream

variable (s : Stream)

def Alike (t : Stream) : Prop :=
  { t with heap := s.heap, readblk := s.readblk, writeblk := s.writeblk, qfree := s.qfree } = s

def Waits (mode : UInt32) (num : ℕ) : Prop :=
  s.qused < minimum mode num ∧ s.readStrategy &&& iosWaitAllowed ≠ 0 ∧ mode &&& iomWait ≠ 0

def Dequeues (mode : UInt32) (num : ℕ) : Prop :=
  minimum mode num ≤ s.qused ∧ mode &&& iomProbe = 0

def InFirst (num : ℕ) : Prop :=
  ∃ x : Cell, s.readblk = some x.1 ∧ s.heap x.1 = some x.2 ∧
    0 < min num s.qused ∧ min num s.qused < x.2.cursize

end Stream

def Given.Holds (heap : Heap) (queue : List Cell) (buf : List UInt8) : Given → Prop
  | .untouched => buf = []
  | .unset => False
  | .chain p => ∃ l, Along next heap p l none ∧ (keys (l ++ queue)).Nodup ∧ contents l = buf

inductive Agrees : Except Fault Progress → Except Fault Getting → Prop where
  | wait : Agrees (.ok .waits) (.ok .waits)
  | give {ret : Return} {hnd : Handed} {s t : Stream} {front back front' back' : List Cell}
      (read : Held s front back) (got : Held t front' back') (alike : s.Alike t)
      (same : contents (front' ++ back') = contents (front ++ back))
      (chain : hnd.blk.Holds t.heap (front' ++ back') ret.buf) :
      Agrees (.ok (.returns ret s)) (.ok (.returns hnd t))

namespace Held

variable {s : Stream} {front back : List Cell}

section

variable (h : Held s front back)

include h

theorem along :
    Along next s.heap s.readblk (front ++ back) none := h.linked.upTo.append h.linked.onward

theorem put_outside {a : Addr} (b : Block) (ha : a ∉ keys (front ++ back)) :
    Held { s with heap := put s.heap a b } front back :=
  ⟨h.linked.put_outside ha, h.held, h.sized, h.spare, h.used, h.word, h.free⟩

theorem first {x : Cell} (hr : s.readblk = some x.1) (hx : s.heap x.1 = some x.2) :
    (∃ front', front = x :: front') ∨ front = [] ∧ ∃ back', back = x :: back' := by
  have halong := h.along
  have hhead (y : Cell) (l : List Cell) (hl : front ++ back = y :: l) : y = x := by
    rw [hl] at halong
    have hkey : y.1 = x.1 := Option.some.inj (halong.1.symm.trans hr)
    exact Prod.ext hkey (Option.some.inj (halong.2.1.symm.trans (hkey ▸ hx)))
  cases front with
  | cons y front =>
    obtain rfl := hhead y (front ++ back) rfl
    exact Or.inl ⟨front, rfl⟩
  | nil =>
    cases back with
    | nil =>
      have hnone : s.readblk = none := halong.eq_none.mpr rfl
      rw [hnone] at hr
      cases hr
    | cons y back =>
      obtain rfl := hhead y back rfl
      exact Or.inr ⟨rfl, back, rfl⟩

theorem advance {x : Cell} {k : ℕ} (hr : s.readblk = some x.1)
    (hx : s.heap x.1 = some x.2) (hk : k < x.2.cursize) : ∃ front' back',
    Held { s with heap := put s.heap x.1 (x.2.advance k), qused := sub s.qused k }
      front' back' ∧ keys (front' ++ back') = keys (front ++ back) ∧
    contents (front ++ back) = x.2.read k ++ contents (front' ++ back') := by
  have hword := h.word
  have hcount := h.used
  have hmem : x ∈ front ++ back := by
    rcases h.first hr hx with ⟨front, rfl⟩ | ⟨rfl, back, rfl⟩
    · simp
    · simp
  obtain ⟨n, hsized⟩ := h.sized x hmem
  have hcur := hsized.cursize_advance hk.le
  have hadv : ∀ l : List Cell, (∀ y ∈ x :: l, ∃ n, y.2.Sized n) →
      ∀ y ∈ (x.1, x.2.advance k) :: l, ∃ n, y.2.Sized n := by
    intro l hl y hy
    rcases mem_cons.mp hy with rfl | hy
    · exact ⟨n, hsized.advance hk.le⟩
    · exact hl y (mem_cons_of_mem x hy)
  rcases h.first hr hx with ⟨front, rfl⟩ | ⟨rfl, back, rfl⟩
  · rw [cons_append, used_cons] at hcount
    have hsub : sub s.qused k = s.qused - k := sub_of_le (by omega) hword
    refine ⟨(x.1, x.2.advance k) :: front, back, ⟨h.linked.replace_front rfl, fun hnil => ?_,
      hadv _ h.sized, h.spare, ?_, ?_, h.free⟩, rfl, ?_⟩
    · cases h.held hnil
    · simp only [cons_append, used_cons, hcur, hsub]
      omega
    · simp only [hsub]
      omega
    · simp only [cons_append, contents_cons, ← append_assoc, ← hsized.contents_advance hk.le]
  · rw [nil_append, used_cons] at hcount
    have hsub : sub s.qused k = s.qused - k := sub_of_le (by omega) hword
    refine ⟨[], (x.1, x.2.advance k) :: back, ⟨h.linked.replace_back rfl, fun _ => rfl,
      hadv _ h.sized, h.spare, ?_, ?_, h.free⟩, rfl, ?_⟩
    · simp only [nil_append, used_cons, hcur, hsub]
      omega
    · simp only [hsub]
      omega
    · simp only [nil_append, contents_cons, ← append_assoc, ← hsized.contents_advance hk.le]

theorem not_shared {a : Addr} (ha : s.readblk = some a)
    (buf : List UInt8) : ¬(Given.chain s.readblk).Holds s.heap (front ++ back) buf := by
  rintro ⟨l, hl, hnodup, -⟩
  obtain rfl := hl.unique h.along
  cases hqueue : front ++ back with
  | nil =>
    rw [hl.eq_none.mpr hqueue] at ha
    cases ha
  | cons x l =>
    rw [hqueue] at hnodup
    simp at hnodup

end

end Held

def Differs (g : Except Fault Getting) : Prop := ∀ r, ¬Agrees r g

namespace Differs

theorem error (fault : Fault) : Differs (.error fault) := by
  intro r h
  cases h

theorem bind {α : Type} {x : Except Fault α} {f : α → Except Fault Getting}
    (h : ∀ a, x = .ok a → Differs (f a)) : Differs (x >>= f) := by
  cases x with
  | error fault => exact error fault
  | ok a => exact h a rfl

theorem unset (s : Stream) (code : Code) (count : ℕ) (offset : Dlong) :
    Differs (pure (s.finish code count offset .unset)) := by
  intro r h
  cases h with
  | give _ _ _ _ hchain => exact hchain

theorem shared {s : Stream} {a : Addr} (ha : s.readblk = some a) (code : Code) (count : ℕ)
    (offset : Dlong) : Differs (pure (s.finish code count offset (.chain s.readblk))) := by
  intro r h
  cases h with
  | give _ hgot _ _ hchain => exact hgot.not_shared ha _ hchain

end Differs

namespace Stream

variable {s : Stream}

theorem deqRblks_readblk {startblk endblk : Addr} {len : ℕ} {e : Block} {t : Stream}
    (he : s.heap endblk = some e) (h : s.deqRblks startblk endblk len = .ok t) :
    t.readblk = e.next := by
  simp only [deqRblks] at h
  split_ifs at h <;>
  · simp only [usInternalError, load_some he, ok_bind, pure_eq_ok] at h
    exact h ▸ rfl

theorem copyExcess_readblk {lastblk endblk : Addr} {resid : ℕ} {t : Stream}
    (h : s.copyExcess lastblk endblk resid = .ok t) : t.readblk = s.readblk := by
  simp only [copyExcess, bind_eq_ok, pure_eq_ok] at h
  obtain ⟨-, -, -, -, -, -, rfl⟩ := h
  rfl

theorem getExcess_differs (malloc : Option (Addr × Mem)) (junk : Addr) (count resid : ℕ)
    (offset : Dlong) (lastblk : Addr) {prevblk : Addr} {p : Block} {a : Addr}
    (hp : s.heap prevblk = some p) (ha : p.next = some a) :
    Differs (s.getExcess malloc junk count resid offset lastblk (some prevblk)) := by
  refine .bind fun t ht => .bind fun q hq => ?_
  have hread : t.readblk = some a := (deqRblks_readblk hp ht).trans ha
  dsimp only
  split_ifs
  · cases malloc with
    | none => exact .shared hread _ _ _
    | some g =>
      refine .bind fun q hq => .bind fun u hu => ?_
      have hsame := copyExcess_readblk hu
      rw [← hsame]
      exact .shared (hsame.trans hread) _ _ _
  · refine .bind fun u hu => ?_
    have hsame := copyExcess_readblk hu
    rw [← hsame]
    exact .shared (hsame.trans hread) _ _ _

theorem completeBlocks_zero (n : ℕ) (heap : Heap) (lastblk prevblk : Option Addr) :
    completeBlocks n heap 0 lastblk prevblk = .ok (0, lastblk, prevblk) := by
  cases n <;> rfl

theorem completeBlocks_some {n : ℕ} {heap : Heap} {resid : ℕ} {x : Cell}
    (prevblk : Option Addr) (hn : 0 < n) (hx : heap x.1 = some x.2) (hpos : 0 < resid) :
    completeBlocks n heap resid (some x.1) prevblk =
      if x.2.cursize ≤ resid then
        completeBlocks (n - 1) heap (resid - x.2.cursize) x.2.next (some x.1)
      else .ok (resid, some x.1, prevblk) := by
  obtain ⟨n, rfl⟩ := exists_eq_add_one.mpr hn
  obtain ⟨resid, rfl⟩ := exists_eq_add_one.mpr hpos
  rw [completeBlocks, load_some hx, ok_bind]
  rfl

theorem completeBlocks_prev {n : ℕ} {heap : Heap} {resid : ℕ} {p : Option Addr} {l : List Cell}
    {prev : Cell} (h : Along next heap p l none) (hprev : heap prev.1 = some prev.2)
    (hnext : prev.2.next = p) (hle : resid ≤ used l) {resid' : ℕ} {last prev' : Option Addr}
    (hwalk : completeBlocks n heap resid p (some prev.1) = .ok (resid', last, prev')) :
    ∃ c : Cell, prev' = some c.1 ∧ heap c.1 = some c.2 ∧ c.2.next = last ∧
      (0 < resid' → ∃ a, last = some a) := by
  induction n generalizing resid p l prev with
  | zero =>
    rcases Nat.eq_zero_or_pos resid with rfl | hpos
    · rw [completeBlocks_zero] at hwalk
      obtain ⟨rfl, rfl, rfl⟩ : 0 = resid' ∧ p = last ∧ some prev.1 = prev' := by
        simpa using hwalk
      exact ⟨prev, rfl, hprev, hnext, fun hlt => absurd hlt (lt_irrefl 0)⟩
    · obtain ⟨resid, rfl⟩ := exists_eq_add_one.mpr hpos
      cases l with
      | nil =>
        rw [used_nil] at hle
        omega
      | cons x l =>
        rw [h.1] at hwalk
        cases hwalk
  | succ n ih =>
    rcases Nat.eq_zero_or_pos resid with rfl | hpos
    · rw [completeBlocks_zero] at hwalk
      obtain ⟨rfl, rfl, rfl⟩ : 0 = resid' ∧ p = last ∧ some prev.1 = prev' := by
        simpa using hwalk
      exact ⟨prev, rfl, hprev, hnext, fun hlt => absurd hlt (lt_irrefl 0)⟩
    cases l with
    | nil =>
      rw [used_nil] at hle
      omega
    | cons x l =>
      obtain ⟨rfl, hx, hrest⟩ := h
      rw [completeBlocks_some _ (succ_pos n) hx hpos] at hwalk
      rw [used_cons] at hle
      split_ifs at hwalk with hcur
      · exact ih hrest hx rfl (by omega) hwalk
      · obtain ⟨rfl, rfl, rfl⟩ : resid = resid' ∧ some x.1 = last ∧ some prev.1 = prev' := by
          simpa using hwalk
        exact ⟨prev, rfl, hprev, hnext, fun _ => ⟨x.1, rfl⟩⟩

theorem getReady_differs {front back : List Cell} (h : Held s front back)
    (malloc : Option (Addr × Mem)) (junk : Addr) {mode : UInt32} {num : ℕ}
    (hprobe : mode &&& iomProbe = 0) (hfirst : ¬s.InFirst num) :
    Differs (s.getReady malloc junk mode num) := by
  simp only [getReady, hprobe, ne_eq, not_true_eq_false, if_false]
  rcases Nat.eq_zero_or_pos (min num s.qused) with hzero | hpos
  · simp only [hzero, completeBlocks_zero, ok_bind, lt_irrefl, if_false]
    exact .unset _ _ _ _
  have hcount := h.used
  have halong := h.along
  cases hqueue : front ++ back with
  | nil =>
    rw [hqueue, used_nil] at hcount
    omega
  | cons x l =>
    rw [hqueue] at hcount halong
    obtain ⟨hr, hx, hrest⟩ := halong
    have hwhole : x.2.cursize ≤ min num s.qused := by
      by_contra hlt
      exact hfirst ⟨x, hr, hx, hpos, by omega⟩
    rw [used_cons] at hcount
    rw [hr]
    refine .bind fun walk hwalk => ?_
    obtain ⟨resid, last, prev⟩ := walk
    rw [completeBlocks_some _ (by decide) hx hpos, if_pos hwhole] at hwalk
    obtain ⟨c, rfl, hc, hnext, hlast⟩ := completeBlocks_prev hrest hx rfl (by omega) hwalk
    split_ifs with hresid
    · obtain ⟨a, rfl⟩ := hlast hresid
      exact getExcess_differs malloc junk _ _ _ a hc hnext
    · exact .bind fun t ht => .unset _ _ _ _

end Stream

theorem newBlock_contents (n : ℕ) (data : Mem) {buf : List UInt8} (hbuf : buf.length < 2 ^ 32) :
    ((newBlock n data).append buf).contents = buf := by
  have hcur : ((newBlock n data).append buf).cursize = buf.length := by
    simp only [cursize, append, newBlock, clear, headerSize, sub, add]
    omega
  rw [Block.contents, hcur]
  exact bytes_store_self _ _ _

theorem Agrees.qused {ret : Return} {hnd : Handed} {s t : Stream}
    (h : Agrees (.ok (.returns ret s)) (.ok (.returns hnd t))) : t.qused = s.qused := by
  cases h with
  | give _ _ halike _ _ =>
    have hsame := congrArg Stream.qused halike
    exact hsame

namespace Stream

variable (s : Stream) {mode : UInt32} {num k : ℕ} {x : Cell}

theorem getReady_inFirst (malloc : Option (Addr × Mem)) (junk : Addr)
    (hprobe : mode &&& iomProbe = 0) (hr : s.readblk = some x.1) (hx : s.heap x.1 = some x.2)
    (hk : min num s.qused = k) (hpos : 0 < k) (hlt : k < x.2.cursize) :
    s.getReady malloc junk mode num = s.getExcess malloc junk k k s.readOffset x.1 none := by
  have hwalk := completeBlocks_some (n := 2 ^ 32) none (by decide) hx hpos
  rw [if_neg (by omega)] at hwalk
  simp only [getReady, hprobe, ne_eq, not_true_eq_false, if_false, hk, hr, hwalk,
    ok_bind, hpos, if_true]

theorem getExcess_none (junk : Addr) (x : Addr) (k : ℕ) :
    s.getExcess none junk k k s.readOffset x none =
      .ok (.returns ⟨.resourceExhausted, 0, some s.readOffset, .chain none⟩ s) := by
  rw [getExcess, Nat.sub_self, finish, Dlong.addLong_zero]
  rfl

theorem getExcess_some {endblk : Addr} (data : Mem) (junk : Addr)
    (hx : s.heap x.1 = some x.2) (hne : endblk ≠ x.1) (k : ℕ) :
    s.getExcess (some (endblk, data)) junk k k s.readOffset x.1 none =
      .ok (.returns ⟨.success, k, some s.readOffset, .chain (some endblk)⟩
        { s with
          heap := put (put s.heap endblk
            ((newBlock (max k s.blksize) data).append (x.2.read k))) x.1 (x.2.advance k)
          qused := sub s.qused k
          readOffset := s.readOffset.addLong k }) := by
  have hread (b : Block) : load (put s.heap endblk b) (some x.1) = .ok x :=
    load_some ((put_ne b hne.symm).trans hx)
  have hlen : (x.2.read k).length = k := bytes_length _ _ _
  simp only [getExcess, copyExcess, hread, ok_bind,
    load_some (put_self _ _ _), put_put, append, hlen]
  rfl

end Stream

namespace Held

variable {s : Stream} {front back : List Cell}

theorem offset (h : Held s front back) (offset : Dlong) :
    Held { s with readOffset := offset } front back :=
  ⟨h.linked, h.held, h.sized, h.spare, h.used, h.word, h.free⟩

theorem agrees (h : Held s front back) {ret : Return} (hbuf : ret.buf = []) (code : Code)
    (count : ℕ) (offset : Option Dlong) :
    Agrees (.ok (.returns ret s)) (.ok (.returns ⟨code, count, offset, .untouched⟩ s)) :=
  .give h h rfl rfl hbuf

theorem agrees_denies (h : Held s front back) (code code' : Code) (n n' : ℕ) :
    Agrees (pure (s.refuses code n)) (pure (s.denies code' n')) := h.agrees rfl _ _ _

section InFirst

variable {mode : UInt32} {num : ℕ} {x : Cell} {k : ℕ}

theorem readReady_inFirst (h : Held s front back) (hprobe : mode &&& iomProbe = 0)
    (hr : s.readblk = some x.1) (hx : s.heap x.1 = some x.2) (hk : min num s.qused = k)
    (hpos : 0 < k) (hlt : k < x.2.cursize) :
    s.readReady mode num = .ok (.returns ⟨.success, k, some s.readOffset, x.2.read k⟩
      { s with
        heap := put s.heap x.1 (x.2.advance k)
        qused := sub s.qused k
        readOffset := s.readOffset.addLong k }) := by
  have hmem : x ∈ front ++ back := by
    rcases h.first hr hx with ⟨front, rfl⟩ | ⟨rfl, back, rfl⟩
    · simp
    · simp
  obtain ⟨n, hsized⟩ := h.sized x hmem
  have hpass := readLoop_part (2 ^ 32 - 1) [] hr hx hsized hpos hlt
  rw [Nat.sub_add_cancel (by decide)] at hpass
  simp only [readReady, hprobe, ne_eq, not_true_eq_false, if_false, hk, hpass, ok_bind, if_true]
  rfl

theorem agrees_inFirst (h : Held s front back) {endblk : Addr} (data : Mem)
    (hfresh : s.heap endblk = none) (hr : s.readblk = some x.1) (hx : s.heap x.1 = some x.2)
    (hlt : k < x.2.cursize) (code code' : Code) (offset offset' : Option Dlong) :
    Agrees (.ok (.returns ⟨code, k, offset, x.2.read k⟩
        { s with
          heap := put s.heap x.1 (x.2.advance k)
          qused := sub s.qused k
          readOffset := s.readOffset.addLong k }))
      (.ok (.returns ⟨code', k, offset', .chain (some endblk)⟩
        { s with
          heap := put (put s.heap endblk
            ((newBlock (max k s.blksize) data).append (x.2.read k))) x.1 (x.2.advance k)
          qused := sub s.qused k
          readOffset := s.readOffset.addLong k })) := by
  have hne : endblk ≠ x.1 := by
    rintro rfl
    rw [hfresh] at hx
    cases hx
  have hlen : (x.2.read k).length = k := bytes_length _ _ _
  have hsmall : k < 2 ^ 32 := hlt.trans (mod_lt _ (by decide))
  obtain ⟨front₁, back₁, hread, -, hbytes⟩ := h.advance hr hx hlt
  set e := (newBlock (max k s.blksize) data).append (x.2.read k) with he
  have houtside := h.put_outside e (h.along.fresh hfresh)
  obtain ⟨front₂, back₂, hget, hkeys, hbytes'⟩ := houtside.advance hr
    ((put_ne e hne.symm).trans hx) hlt
  refine .give (hread.offset _) (hget.offset _) rfl ?_ ?_
  · exact append_cancel_left (hbytes'.symm.trans hbytes)
  · refine ⟨[(endblk, e)], ⟨rfl, ?_, rfl⟩, ?_, ?_⟩
    · exact (put_ne _ hne).trans (put_self _ _ _)
    · rw [Chain.keys_append, hkeys]
      exact nodup_cons.mpr ⟨h.along.fresh hfresh, h.linked.distinct⟩
    · rw [contents_cons, contents_nil, append_nil, he, newBlock_contents _ _ (by omega)]

end InFirst

section Entries

variable {malloc : Option (Addr × Mem)} {mode : UInt32} {num : ℕ}

section

variable (h : Held s front back)

include h

theorem qused_lt (hpos : 0 < min num s.qused) : sub s.qused (min num s.qused) < s.qused := by
  rw [sub_of_le (min_le_right _ _) h.word]
  omega

theorem agrees_ready_iff (hfresh : ∀ g ∈ malloc, s.heap g.1 = none)
    (junk : Addr) (hprobe : mode &&& iomProbe = 0) :
    Agrees (s.readReady mode num) (s.getReady malloc junk mode num) ↔
      s.InFirst num ∧ malloc.isSome := by
  by_cases hfirst : s.InFirst num
  · obtain ⟨x, hr, hx, hpos, hlt⟩ := id hfirst
    rw [h.readReady_inFirst hprobe hr hx rfl hpos hlt,
      s.getReady_inFirst malloc junk hprobe hr hx rfl hpos hlt]
    cases malloc with
    | none =>
      rw [getExcess_none]
      refine iff_of_false (fun hagrees => ?_) (by simp)
      have hsub := h.qused_lt hpos
      have hsame := hagrees.qused
      simp only at hsame
      omega
    | some g =>
      obtain ⟨endblk, data⟩ := g
      have hnone := hfresh _ rfl
      rw [s.getExcess_some data junk hx (fun heq => by simp [heq ▸ hnone] at hx) _]
      exact iff_of_true (h.agrees_inFirst data hnone hr hx hlt _ _ _ _) ⟨hfirst, rfl⟩
  · exact iff_of_false (getReady_differs h malloc junk hprobe hfirst _) fun hcond => hfirst hcond.1

theorem agrees_refused_ready_iff
    (hfresh : ∀ g ∈ malloc, s.heap g.1 = none) (junk : Addr) (hprobe : mode &&& iomProbe = 0)
    (code : Code) (n : ℕ) :
    Agrees (pure (s.refuses code n)) (s.getReady malloc junk mode num) ↔
      s.InFirst num ∧ malloc = none := by
  by_cases hfirst : s.InFirst num
  · obtain ⟨x, hr, hx, hpos, hlt⟩ := id hfirst
    rw [s.getReady_inFirst malloc junk hprobe hr hx rfl hpos hlt]
    cases malloc with
    | none =>
      rw [getExcess_none]
      refine iff_of_true (.give h h rfl rfl ⟨[], rfl, ?_, rfl⟩) ⟨hfirst, rfl⟩
      exact h.linked.distinct
    | some g =>
      obtain ⟨endblk, data⟩ := g
      have hnone := hfresh _ rfl
      rw [s.getExcess_some data junk hx (fun heq => by simp [heq ▸ hnone] at hx) _]
      refine iff_of_false (fun hagrees => ?_) (by simp)
      have hsub := h.qused_lt hpos
      have hsame := hagrees.qused
      simp only at hsame
      omega
  · exact iff_of_false (getReady_differs h malloc junk hprobe hfirst _) fun hcond => hfirst hcond.1

theorem agrees_wait_iff (hfresh : ∀ g ∈ malloc, s.heap g.1 = none) (junk : Addr) :
    Agrees (s.readWait mode num) (s.getWait malloc junk mode num) ↔
      (s.Dequeues mode num → s.InFirst num ∧ malloc.isSome) := by
  rw [readWait, getWait, Dequeues]
  split_ifs with hmin hallowed hwait
  · exact iff_of_true (h.agrees_denies _ _ _ _) fun hdeq => by omega
  · exact iff_of_true .wait fun hdeq => by omega
  · exact iff_of_true (h.agrees_denies _ _ _ _) fun hdeq => by omega
  · by_cases hprobe : mode &&& iomProbe ≠ 0
    · simp only [readReady, getReady, if_pos hprobe]
      exact iff_of_true (h.agrees rfl _ _ _) fun hdeq => absurd hdeq.2 hprobe
    · rw [h.agrees_ready_iff hfresh junk (not_not.mp hprobe)]
      exact ⟨fun hcond _ => hcond, fun hcond => hcond ⟨by omega, not_not.mp hprobe⟩⟩

theorem agrees_refused_wait_iff
    (hfresh : ∀ g ∈ malloc, s.heap g.1 = none) (junk : Addr) (code : Code) (n : ℕ) :
    Agrees (pure (s.refuses code n)) (s.getWait malloc junk mode num) ↔
      ¬s.Waits mode num ∧ (s.Dequeues mode num → s.InFirst num ∧ malloc = none) := by
  rw [getWait, Dequeues, Waits]
  split_ifs with hmin hallowed hwait
  · exact iff_of_true (h.agrees_denies _ _ _ _) ⟨fun hw => hw.2.1 hallowed, fun hdeq => by omega⟩
  · exact iff_of_false (fun hagrees => by cases hagrees) fun hcond =>
      hcond.1 ⟨hmin, hallowed, hwait⟩
  · exact iff_of_true (h.agrees_denies _ _ _ _) ⟨fun hw => hwait hw.2.2, fun hdeq => by omega⟩
  · by_cases hprobe : mode &&& iomProbe ≠ 0
    · simp only [getReady, if_pos hprobe]
      exact iff_of_true (h.agrees rfl _ _ _) ⟨fun hw => hmin hw.1, fun hdeq => absurd hdeq.2 hprobe⟩
    · rw [h.agrees_refused_ready_iff hfresh junk (not_not.mp hprobe)]
      exact ⟨fun hcond => ⟨fun hw => hmin hw.1, fun _ => hcond⟩,
        fun hcond => hcond.2 ⟨by omega, not_not.mp hprobe⟩⟩

end

end Entries

end Held

theorem getbytes_agrees_iff {s : Stream} {front back : List Cell} (h : Held s front back)
    {malloc : Option (Addr × Mem)} (hfresh : ∀ g ∈ malloc, s.heap g.1 = none) (junk : Addr)
    (mode : UInt32) (num : ℕ) :
    (Agrees (s.ioReadSeq mode num) (s.ioGetbytesSeq malloc junk mode num) ↔
      (¬invalidMode mode → s.readStrategy &&& iosEnabled ≠ 0 →
        (s.Waits mode num → num ≤ maximumXfer) ∧
        (s.Dequeues mode num → s.InFirst num ∧ (malloc.isSome ↔ num ≤ maximumXfer)))) ∧
    ∀ interrupted : Bool,
      (Agrees (s.readWoken mode num interrupted) (s.getWoken malloc junk mode num interrupted) ↔
        (interrupted = false → s.readStrategy &&& iosEnabled ≠ 0 → s.Dequeues mode num →
          s.InFirst num ∧ malloc.isSome)) := by
  constructor
  · rw [ioReadSeq, ioGetbytesSeq]
    split_ifs with hmode henabled hsize
    · exact iff_of_true (h.agrees_denies _ _ _ _) fun hvalid => absurd hmode hvalid
    · exact iff_of_true (h.agrees_denies _ _ _ _) fun _ hon => absurd henabled hon
    · have hnone : malloc = none ↔ (malloc.isSome = true ↔ num ≤ maximumXfer) := by
        cases malloc <;> simp [not_le.mpr hsize]
      rw [h.agrees_refused_wait_iff hfresh junk, hnone]
      refine ⟨fun hcond _ _ => ⟨fun hw => absurd hw hcond.1, hcond.2⟩, fun hcond => ?_⟩
      obtain ⟨hwaits, hdeq⟩ := hcond hmode henabled
      exact ⟨fun hw => absurd (hwaits hw) (not_le.mpr hsize), hdeq⟩
    · have hsome : (malloc.isSome = true ↔ num ≤ maximumXfer) ↔ malloc.isSome = true := by
        simp [not_lt.mp hsize]
      rw [h.agrees_wait_iff hfresh junk, hsome]
      exact ⟨fun hcond _ _ => ⟨fun _ => not_lt.mp hsize, hcond⟩,
        fun hcond => (hcond hmode henabled).2⟩
  · intro interrupted
    rw [readWoken, getWoken]
    split_ifs with hint henabled
    · exact iff_of_true (h.agrees_denies _ _ _ _) fun hclear => by simp [hint] at hclear
    · exact iff_of_true (h.agrees_denies _ _ _ _) fun _ hon => absurd henabled hon
    · rw [h.agrees_wait_iff hfresh junk]
      exact ⟨fun hcond _ _ => hcond, fun hcond => hcond (by simpa using hint) henabled⟩

def Stream.single (blksize : ℕ) (a : Addr) (b : Block) : Stream :=
  { create blksize (iosEnabled ||| iosWaitAllowed) (iosEnabled ||| iosWaitAllowed) with
    qused := b.cursize
    qfree := b.freesize
    readblk := some a
    writeblk := some a
    heap := put (fun _ => none) a b }

@[simp] theorem single_heap (n : ℕ) (a : Addr) (b : Block) : (single n a b).heap a = some b := by
  simp only [single, put_self]

theorem held_single (n : ℕ) (a : Addr) {b : Block} {k : ℕ} (hnext : b.next = none)
    (hsized : b.Sized k) : Held (.single n a b) [] [(a, b)] where
  linked := ⟨rfl, ⟨rfl, single_heap _ _ _, hnext⟩, nodup_singleton a⟩
  held := fun _ => rfl
  sized := by
    intro y hy
    obtain rfl := mem_singleton.mp hy
    exact ⟨k, hsized⟩
  spare := by simp
  used := rfl
  word := mod_lt _ (by decide)
  free := (mod_eq_of_lt (mod_lt _ (by decide))).symm

theorem inFirst_single {n : ℕ} {a : Addr} {b : Block} {num : ℕ} :
    (single n a b).InFirst num ↔ 0 < num ∧ num < b.cursize := by
  have hused : (single n a b).qused = b.cursize := rfl
  constructor
  · rintro ⟨x, hr, hx, hpos, hlt⟩
    obtain rfl : a = x.1 := Option.some.inj hr
    obtain rfl : b = x.2 := Option.some.inj ((single_heap _ _ _).symm.trans hx)
    omega
  · rintro ⟨hpos, hlt⟩
    refine ⟨(a, b), rfl, single_heap _ _ _, ?_, ?_⟩
    · omega
    · exact lt_of_le_of_lt (min_le_left _ _) hlt

theorem filled_sized (n : ℕ) (hn : n < 2 ^ 30) (data : Mem) (buf : List UInt8)
    (hbuf : buf.length ≤ n) : ((newBlock n data).append buf).Sized n := by
  have hsized := newBlock_sized hn data
  apply hsized.append
  rw [hsized.freesize_blank (clear_blank _)]
  exact hbuf

theorem getbytes_agrees_inside : ∃ s : Stream,
    Agrees (s.ioReadSeq 0 2) (s.ioGetbytesSeq (some (2, fun _ => 0)) 0 0 2) := by
  have hheld := held_single 4 1 rfl (filled_sized 4 (by decide) (fun _ => 0) [7, 8, 9] (by decide))
  refine ⟨_, (getbytes_agrees_iff hheld ?_ 0 0 2).1.mpr fun _ _ => ⟨fun _ => by decide,
    fun _ => ⟨inFirst_single.mpr (by decide), by decide⟩⟩⟩
  rintro g hg
  obtain rfl := Option.mem_some.mp hg
  rfl

theorem whole_block_lost : ∃ s : Stream, (∃ front back, Held s front back) ∧
    ¬Agrees (s.ioReadSeq 0 3) (s.ioGetbytesSeq (some (2, fun _ => 0)) 0 0 3) := by
  have hheld := held_single 4 1 rfl (filled_sized 4 (by decide) (fun _ => 0) [7, 8, 9] (by decide))
  have hdiffers : Differs (getReady _ (some (2, fun _ => 0)) 0 0 3) :=
    getReady_differs hheld _ _ (by decide) fun hfirst =>
      absurd (inFirst_single.mp hfirst).2 (by decide)
  exact ⟨_, ⟨_, _, hheld⟩, hdiffers _⟩

end MachUS.Io
