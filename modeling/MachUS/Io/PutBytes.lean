import MachUS.Io.GetBytes
import MachUS.Io.Writes

namespace MachUS.Io

open Memory Chain Outcome List Stream Word Block Nat

structure Taken where
  code : Code
  count : ℕ
  offset : Option Dlong
  blk : Option Addr

inductive Putting where
  | waits
  | returns (ret : Taken) (s : Stream)

namespace Stream

variable (s : Stream)

def enqRblks (startblk : Option Addr) (endblk : Addr) (len : ℕ) : Except Fault Stream := do
  let (_, e) ← load s.heap (some endblk)
  match s.writeblk with
  | none =>
    let s := if s.readblk ≠ none then s.usInternalError .enqReadblk else s
    pure { s with
      writeblk := some endblk
      heap := put s.heap endblk { e with next := none }
      readblk := startblk
      qfree := add s.qfree e.freesize
      qused := add s.qused len }
  | some w => do
    let (_, wb) ← load s.heap (some w)
    let qfree := sub s.qfree wb.freesize
    let heap := put s.heap endblk { e with next := wb.next }
    let (_, wb) ← load heap (some w)
    pure { s with
      heap := put heap w { wb with next := startblk }
      writeblk := some endblk
      qfree := add qfree e.freesize
      qused := add s.qused len }

def scanBlocks : ℕ → Heap → ℕ → Option Addr → Option Addr →
    Except Fault (Heap × ℕ × Option Addr × Option Addr)
  | _, heap, 0, lastblk, prevblk => pure (heap, 0, lastblk, prevblk)
  | _, heap, resid + 1, none, prevblk => pure (heap, resid + 1, none, prevblk)
  | 0, _, _ + 1, some _, _ => .error .endlessLoop
  | n + 1, heap, resid + 1, some lastblk, prevblk => do
    let (_, b) ← load heap (some lastblk)
    if b.cursize ≤ resid + 1 then
      if b.cursize = 0 then scanBlocks n (free heap lastblk) (resid + 1) b.next prevblk
      else scanBlocks n heap (resid + 1 - b.cursize) b.next (some lastblk)
    else pure (heap, resid + 1, some lastblk, prevblk)

def enqComplete (blk prevblk : Option Addr) (len : ℕ) : Except Fault Stream :=
  match prevblk with
  | none => pure s
  | some prevblk => s.enqRblks blk prevblk len

def putFinish (code : Code) (count : ℕ) (offset : Dlong) (lastblk : Option Addr) : Putting :=
  .returns ⟨code, count, some offset, lastblk⟩
    { s with writeOffset := s.writeOffset.addLong count }

def putBlocks (malloc : Malloc) (resid : ℕ) : Except Fault (Code × Stream) :=
  if s.qfree < resid then s.getMoreBlocksInternal malloc (resid - s.qfree)
  else pure (.success, s)

def putExcess (malloc : Malloc) (count resid : ℕ) (offset : Dlong) (lastblk : Addr) :
    Except Fault Putting := do
  let (code, s) ← s.putBlocks malloc resid
  if code = .success then
    let (_, b) ← load s.heap (some lastblk)
    let s ← s.copyToBlks (b.read resid)
    let (_, b) ← load s.heap (some lastblk)
    let s := { s with heap := put s.heap lastblk (b.advance resid) }
    pure (s.putFinish .success count offset (some lastblk))
  else pure (s.putFinish code (count - resid) offset (some lastblk))

def putScanned (malloc : Malloc) (blk : Option Addr) (count resid : ℕ)
    (lastblk prevblk : Option Addr) : Except Fault Putting :=
  let offset := s.writeOffset
  if 0 < resid then
    match lastblk with
    | none => pure (.returns ⟨.notEnoughData, count, some offset, blk⟩ s)
    | some lastblk => do
      let s ← s.enqComplete blk prevblk (count - resid)
      s.putExcess malloc count resid offset lastblk
  else do
    let s ← s.enqComplete blk prevblk count
    pure (s.putFinish .success count offset lastblk)

def putReady (malloc : Malloc) (mode : UInt32) (blk : Option Addr) (num : ℕ) :
    Except Fault Putting :=
  let count := min num (sub s.qmax s.qused)
  if mode &&& iomProbe ≠ 0 then pure (.returns ⟨.success, count, some s.writeOffset, blk⟩ s)
  else do
    let (heap, resid, lastblk, prevblk) ← scanBlocks (2 ^ 32) s.heap count blk none
    putScanned { s with heap := heap } malloc blk count resid lastblk prevblk

def putDenies (code : Code) (num : ℕ) (blk : Option Addr) : Putting :=
  .returns ⟨code, num, none, blk⟩ s

def putWait (malloc : Malloc) (mode : UInt32) (blk : Option Addr) (num : ℕ) :
    Except Fault Putting :=
  if sub s.qmax s.qused < minimum mode num then
    if s.writeStrategy &&& iosWaitAllowed = 0 then pure (s.putDenies .rejected num blk)
    else if mode &&& iomWait ≠ 0 then pure .waits
    else pure (s.putDenies .objectBusy num blk)
  else s.putReady malloc mode blk num

def ioPutbytesSeq (malloc : Malloc) (mode : UInt32) (blk : Option Addr) (num : ℕ) :
    Except Fault Putting :=
  if invalidMode mode then pure (s.putDenies .invalidMode num blk)
  else if s.writeStrategy &&& iosEnabled = 0 then pure (s.putDenies .rejected num blk)
  else s.putWait malloc mode blk num

def putWoken (malloc : Malloc) (mode : UInt32) (blk : Option Addr) (num : ℕ)
    (interrupted : Bool) : Except Fault Putting :=
  if interrupted then pure (s.putDenies .exceptSoftware num blk)
  else if s.writeStrategy &&& iosEnabled = 0 then pure (s.putDenies .rejected num blk)
  else s.putWait malloc mode blk num

end Stream

def passed : ℕ → List Cell → List Cell
  | 0, _ => []
  | _ + 1, [] => []
  | resid + 1, x :: l =>
    if x.2.cursize ≤ resid + 1 then x :: passed (resid + 1 - x.2.cursize) l else []

def solid (l : List Cell) : List Cell := l.filter fun x => 0 < x.2.cursize

@[simp] theorem passed_zero (l : List Cell) : passed 0 l = [] := by
  cases l <;> rfl

@[simp] theorem passed_nil (resid : ℕ) : passed resid [] = [] := by
  cases resid <;> rfl

theorem passed_cons {resid : ℕ} (hpos : 0 < resid) (x : Cell) (l : List Cell) :
    passed resid (x :: l) =
      if x.2.cursize ≤ resid then x :: passed (resid - x.2.cursize) l else [] := by
  obtain ⟨resid, rfl⟩ := exists_eq_add_one.mpr hpos
  rfl

theorem solid_cons (x : Cell) (l : List Cell) :
    solid (x :: l) = if 0 < x.2.cursize then x :: solid l else solid l := by
  simp only [solid, filter_cons, decide_eq_true_eq]

theorem passed_split (resid : ℕ) (l : List Cell) : ∃ rest, l = passed resid l ++ rest ∧
    used (passed resid l) ≤ resid ∧
    (used (passed resid l) < resid → ∀ x ∈ rest.head?,
      resid - used (passed resid l) < x.2.cursize) := by
  induction l generalizing resid with
  | nil => exact ⟨[], by simp, by simp, by simp⟩
  | cons x l ih =>
    rcases Nat.eq_zero_or_pos resid with rfl | hpos
    · exact ⟨x :: l, by simp, by simp, by simp⟩
    rw [passed_cons hpos]
    split_ifs with hle
    · obtain ⟨rest, hl, hused, hrest⟩ := ih (resid - x.2.cursize)
      refine ⟨rest, congrArg (x :: ·) hl, ?_, fun hlt y hy => ?_⟩
      · rw [used_cons]
        omega
      · rw [used_cons] at hlt ⊢
        have := hrest (by omega) y hy
        omega
    · refine ⟨x :: l, rfl, zero_le _, fun _ y hy => ?_⟩
      cases hy
      rw [used_nil]
      omega

structure Swept (heap heap' : Heap) (l : List Cell) : Prop where
  freed : ∀ x ∈ l, x.2.cursize = 0 → heap' x.1 = none
  kept : ∀ a, (∀ x ∈ l, x.2.cursize = 0 → x.1 ≠ a) → heap' a = heap a

theorem Stream.scanBlocks_eq {n : ℕ} {heap : Heap} (resid : ℕ) {p : Option Addr}
    (prevblk : Option Addr) {l : List Cell} (h : Along next heap p l none)
    (hn : l.length ≤ n) :
    ∃ heap' rest, l = passed resid l ++ rest ∧ Swept heap heap' (passed resid l) ∧
      scanBlocks n heap resid p prevblk = .ok (heap', resid - used (passed resid l),
        rest.head?.map Prod.fst, ((solid (passed resid l)).getLast?.map Prod.fst).or prevblk) := by
  induction l generalizing n heap resid p prevblk with
  | nil =>
    obtain rfl : p = none := h
    refine ⟨heap, [], by simp, ⟨by simp, fun _ _ => rfl⟩, ?_⟩
    rw [passed_nil]
    cases n <;> cases resid <;> rfl
  | cons x l ih =>
    have hnodup := h.nodup
    rw [Chain.keys_cons, nodup_cons] at hnodup
    obtain ⟨rfl, hx, hrest⟩ := h
    obtain ⟨n, rfl⟩ := exists_eq_add_one.mpr (zero_lt_of_lt hn)
    have hn' : l.length ≤ n := Nat.le_of_succ_le_succ hn
    rcases Nat.eq_zero_or_pos resid with rfl | hpos
    · refine ⟨heap, x :: l, by simp, ⟨by simp, fun _ _ => rfl⟩, ?_⟩
      rw [passed_zero]
      rfl
    obtain ⟨resid, rfl⟩ := exists_eq_add_one.mpr hpos
    rw [scanBlocks, load_some hx, ok_bind, passed_cons hpos]
    dsimp only
    split_ifs with hle hzero
    · obtain ⟨heap', rest, hl, hswept, hscan⟩ := ih (resid + 1) prevblk
        (hrest.update (b := none) hnodup.1) hn'
      have hempty : ¬0 < x.2.cursize := by omega
      rw [hzero, Nat.sub_zero, used_cons, hzero, Nat.zero_add, solid_cons, if_neg hempty]
      refine ⟨heap', rest, congrArg (x :: ·) hl, ⟨?_, ?_⟩, hscan⟩
      · intro y hy hcur
        rcases mem_cons.mp hy with rfl | hy
        · rw [hswept.kept y.1 fun z hz _ => ?_]
          · exact Function.update_self _ _ _
          · rintro heq
            refine hnodup.1 (heq ▸ ?_)
            rw [hl]
            exact mem_map_of_mem (mem_append_left _ hz)
        · exact hswept.freed y hy hcur
      · intro a ha
        rw [hswept.kept a fun y hy => ha y (mem_cons_of_mem x hy)]
        exact Function.update_of_ne (ha x mem_cons_self hzero).symm _ _
    · obtain ⟨heap', rest, hl, hswept, hscan⟩ := ih (resid + 1 - x.2.cursize) (some x.1) hrest hn'
      have hfull : 0 < x.2.cursize := by omega
      rw [used_cons, solid_cons, if_pos hfull]
      refine ⟨heap', rest, congrArg (x :: ·) hl, ⟨?_, ?_⟩, hscan.trans ?_⟩
      · intro y hy hcur
        rcases mem_cons.mp hy with rfl | hy
        · exact absurd hcur hzero
        · exact hswept.freed y hy hcur
      · intro a ha
        exact hswept.kept a fun y hy => ha y (mem_cons_of_mem x hy)
      · rw [Nat.sub_sub, getLast?_cons]
        cases (solid (passed (resid + 1 - x.2.cursize) l)).getLast? <;> rfl
    · refine ⟨heap, x :: l, rfl, ⟨by simp, fun _ _ => rfl⟩, ?_⟩
      rfl

def remaining (resid : ℕ) (l : List Cell) : List Cell := l.drop (passed resid l).length

theorem remaining_eq {resid : ℕ} {l rest : List Cell} (h : l = passed resid l ++ rest) :
    remaining resid l = rest :=
  (congrArg (drop (passed resid l).length) h).trans drop_left

def before (p : Option Addr) (front : List Cell) : List Cell → List Cell
  | [] => []
  | w :: _ => front ++ [(w.1, { w.2 with next := p })]

def behind (e : Cell) (back : List Cell) : Cell :=
  (e.1, { e.2 with next := back.head?.bind fun w => w.2.next })

def spliced (heap : Heap) (p : Option Addr) (e : Cell) (back : List Cell) : Heap :=
  let heap := put heap e.1 (behind e back).2
  match back with
  | [] => heap
  | w :: _ => put heap w.1 { w.2 with next := p }

variable {back : List Cell}

theorem spliced_ne {heap : Heap} (p : Option Addr) {e : Cell} {a : Addr}
    (he : a ≠ e.1) (hw : ∀ w ∈ back.head?, a ≠ w.1) : spliced heap p e back a = heap a := by
  cases back with
  | nil => exact put_ne _ he
  | cons w back => exact (put_ne _ (hw w rfl)).trans (put_ne _ he)

theorem spliced_outside {heap : Heap} (p : Option Addr) {e : Cell} {a : Addr}
    (he : a ≠ e.1) (hback : a ∉ keys back) : spliced heap p e back a = heap a := by
  refine spliced_ne p he fun w hw => ?_
  rintro rfl
  exact hback (mem_map_of_mem (mem_of_mem_head? hw))

theorem spliced_self (heap : Heap) (p : Option Addr) {e : Cell}
    (he : e.1 ∉ keys back) : spliced heap p e back e.1 = some (behind e back).2 := by
  cases back with
  | nil => exact put_self _ _ _
  | cons w back =>
    rw [Chain.keys_cons, mem_cons, not_or] at he
    exact (put_ne _ he.1).trans (put_self _ _ _)

namespace Held

variable {s : Stream} {front back : List Cell}

theorem toOpen (h : Held s front back) : Open front back := ⟨h.sized, h.spare⟩

variable {e : Cell}

section

variable (h : Held s front back) (p : Option Addr)

include h p

theorem enqRblks_eq (he : s.heap e.1 = some e.2) (hnot : e.1 ∉ keys (front ++ back)) (len : ℕ) :
    s.enqRblks p e.1 len = .ok (s.relink (spliced s.heap p e back)
      (if back = [] then p else s.readblk) (some e.1) (add s.qused len)
      ((e.2.freesize + room back.tail) % 2 ^ 32)) := by
  have hfree := h.free
  cases back with
  | nil =>
    obtain rfl := h.held rfl
    have hw : s.writeblk = none := h.linked.onward
    have hr : s.readblk = none := h.linked.upTo.trans hw
    rw [room_nil, zero_mod] at hfree
    have hadd : add s.qfree e.2.freesize = (e.2.freesize + room []) % 2 ^ 32 := by
      rw [add, hfree, room_nil, Nat.zero_add, add_zero]
    simp [enqRblks, load_some he, hw, hr, relink, spliced, behind, hadd]
  | cons w back =>
    have hw : s.writeblk = some w.1 := h.linked.onward.1
    have hheap := h.linked.onward.2.1
    have hne : w.1 ≠ e.1 := by
      rintro heq
      simp [← heq] at hnot
    have hload (b : Block) : load (put s.heap e.1 b) (some w.1) = .ok w :=
      load_some ((put_ne b hne).trans hheap)
    rw [room_cons] at hfree
    have hadd : add (sub s.qfree w.2.freesize) e.2.freesize =
        (e.2.freesize + room back) % 2 ^ 32 := by
      rw [add, sub, hfree]
      omega
    simp [enqRblks, load_some he, hw, load_some hheap, hload, relink, spliced, behind, hadd]

theorem contents_before : contents (before p front back) = contents (front ++ back) := by
  cases back with
  | nil =>
    obtain rfl := h.held rfl
    rfl
  | cons w back =>
    rw [before, contents_append, contents_append, contents_cons, contents_cons,
      h.toOpen.contents_tail]
    rfl

theorem keys_before : keys (before p front back ++ back.tail) = keys (front ++ back) := by
  cases back with
  | nil =>
    obtain rfl := h.held rfl
    rfl
  | cons w back => simp [before]

end

variable {l : List Cell}

section

variable (h : Held s front back)

include h

theorem along_before {p q : Option Addr}
    (hchain : Along next s.heap p l q) (hnot : e.1 ∉ keys (front ++ back ++ l))
    (hsep : (keys (front ++ back ++ l)).Nodup) :
    Along next (spliced s.heap p e back) (if back = [] then p else s.readblk)
      (before p front back ++ l) q := by
  rw [Chain.keys_append, mem_append, not_or] at hnot
  rw [Chain.keys_append, nodup_append] at hsep
  have hl : Along next (spliced s.heap p e back) p l q := by
    refine hchain.congr fun a ha => spliced_outside p ?_ fun hback => ?_
    · rintro rfl
      exact hnot.2 ha
    · refine hsep.2.2 a ?_ a ha rfl
      rw [Chain.keys_append]
      exact mem_append_right _ hback
  cases back with
  | nil =>
    obtain rfl := h.held rfl
    exact hl
  | cons w back =>
    have hd := h.linked.distinct
    rw [Chain.keys_append, Chain.keys_cons, nodup_append] at hd
    refine .append (q := p) (.append (q := some w.1) ?_ ⟨rfl, put_self _ _ _, rfl⟩) hl
    rw [if_neg (cons_ne_nil _ _), ← h.linked.onward.1]
    refine h.linked.upTo.congr fun a ha => spliced_outside p ?_ fun hback => ?_
    · rintro rfl
      exact hnot.1 (by simp [ha])
    · exact hd.2.2 a ha a hback rfl

theorem contents_spare : contents back.tail = [] := by
  cases back with
  | nil => rfl
  | cons w back => exact h.toOpen.contents_tail

theorem sized_before (p : Option Addr) : ∀ x ∈ before p front back, ∃ n, x.2.Sized n := by
  cases back with
  | nil => simp [before]
  | cons w back =>
    intro x hx
    rcases mem_append.mp hx with hx | hx
    · exact h.sized x (mem_append_left _ hx)
    · obtain rfl := mem_singleton.mp hx
      obtain ⟨n, hsized⟩ := h.sized w (by simp)
      exact ⟨n, hsized.link p⟩

theorem spare_along (p : Option Addr) (hnot : e.1 ∉ keys (front ++ back)) :
    Along next (spliced s.heap p e back) (behind e back).2.next back.tail none := by
  cases back with
  | nil => exact rfl
  | cons w back =>
    have hd := h.linked.distinct
    rw [Chain.keys_append, nodup_append, Chain.keys_cons, nodup_cons] at hd
    refine h.linked.onward.2.2.congr fun a ha => spliced_ne p ?_ fun w' hw' => ?_
    · rintro rfl
      exact hnot (by simp [ha])
    · cases hw'
      rintro rfl
      exact hd.2.1.1 ha

theorem enqRblks {p q : Option Addr} (hchain : Along next s.heap p (l ++ [e]) q)
    (hsep : (keys (front ++ back ++ (l ++ [e]))).Nodup)
    (hsized : ∀ x ∈ l ++ [e], ∃ n, x.2.Sized n) (hword : s.qused + Io.used (l ++ [e]) < 2 ^ 32) :
    ∃ front', (keys (front' ++ behind e back :: back.tail)).Perm
        (keys (front ++ back ++ (l ++ [e]))) ∧
      contents (front' ++ behind e back :: back.tail) =
        contents (front ++ back) ++ contents (l ++ [e]) ∧
      Held (s.relink (spliced s.heap p e back) (if back = [] then p else s.readblk) (some e.1)
        (s.qused + Io.used (l ++ [e])) ((e.2.freesize + room back.tail) % 2 ^ 32)) front'
        (behind e back :: back.tail) := by
  obtain ⟨c, hl, he⟩ := hchain.split
  obtain rfl : c = some e.1 := he.1
  have hperm : (keys ((before p front back ++ l) ++ behind e back :: back.tail)).Perm
      (keys (front ++ back ++ (l ++ [e]))) := by
    have hkeys := h.keys_before p
    rw [Chain.keys_append _ (l ++ [e]), ← hkeys]
    simp only [Chain.keys_append, Chain.keys_cons, Chain.keys_nil, append_assoc, behind]
    refine .append_left _ ?_
    rw [append_cons]
    exact perm_append_comm
  have hcontents : contents ((before p front back ++ l) ++ behind e back :: back.tail) =
      contents (front ++ back) ++ contents (l ++ [e]) := by
    rw [contents_append, contents_append, h.contents_before, contents_cons, h.contents_spare,
      contents_append l, append_assoc]
    rfl
  have hnot : e.1 ∉ keys (front ++ back ++ l) := by
    rw [← append_assoc, Chain.keys_append, nodup_append] at hsep
    intro hmem
    exact hsep.2.2 _ hmem e.1 (by simp) rfl
  have hsep' : (keys (front ++ back ++ l)).Nodup := by
    rw [← append_assoc, Chain.keys_append, nodup_append] at hsep
    exact hsep.1
  have hout : e.1 ∉ keys (front ++ back) := fun hmem => hnot (by
    rw [Chain.keys_append]
    exact mem_append_left _ hmem)
  refine ⟨before p front back ++ l, hperm, hcontents, ⟨⟨h.along_before hl hnot hsep',
    ⟨rfl, spliced_self _ _ ?_, h.spare_along p hout⟩, hperm.nodup_iff.mpr hsep⟩, by simp, ?_,
    h.spare, ?_, hword, rfl⟩⟩
  · intro hmem
    exact hout (by simp [hmem])
  · intro x hx
    rcases mem_append.mp hx with hx | hx
    · rcases mem_append.mp hx with hx | hx
      · exact h.sized_before p x hx
      · exact hsized x (mem_append_left _ hx)
    · rcases mem_cons.mp hx with rfl | hx
      · obtain ⟨n, hn⟩ := hsized e (by simp)
        exact ⟨n, hn.link _⟩
      · exact h.sized x (mem_append_right _ (mem_of_mem_tail hx))
  · have hcount := congrArg length hcontents
    rw [length_append, contents_length, contents_length, contents_length, ← h.used] at hcount
    exact hcount.symm

theorem alloc {a : Addr} (data : Mem) (ha : s.heap a = none)
    (hpos : 0 < s.blksize) (hblk : s.blksize < 2 ^ 30) (hfree : s.qfree < 2 ^ 30) :
    ∃ heap r w back', allocBlocks (fun _ => some (a, data)) 0 1 s =
        .ok (.success, s.relink heap r w s.qused (s.qfree + s.blksize)) ∧
      Held (s.relink heap r w s.qused (s.qfree + s.blksize)) front back' ∧
      (keys (front ++ back')).Perm (a :: keys (front ++ back)) ∧
      contents (front ++ back') = contents (front ++ back) ∧
      ∀ c, c ≠ a → c ∉ keys (front ++ back) → heap c = s.heap c := by
  have hroom := h.free
  have hword := h.word
  have hnot : a ∉ keys (front ++ back) := h.along.fresh ha
  obtain ⟨new, hnew⟩ : ∃ b, b = newBlock s.blksize data := ⟨_, rfl⟩
  have hsized : new.Sized s.blksize := hnew ▸ newBlock_sized hblk data
  have hblank : new.Blank := hnew ▸ clear_blank _
  have hsize : new.freesize = s.blksize := hsized.freesize_blank hblank
  have hcur : new.cursize = 0 := hsized.cursize_blank hblank
  have hnil : new.contents = [] := hsized.contents_blank hblank
  have hadd : add s.qfree s.blksize = s.qfree + s.blksize := add_of_lt (by omega)
  have hheld := h.put_outside new hnot
  simp only [allocBlocks, ← hnew]
  cases back with
  | nil =>
    obtain rfl := h.held rfl
    have hw : s.writeblk = none := h.linked.onward
    have hr : s.readblk = none := h.linked.upTo.trans hw
    have hused := h.used
    rw [enqWblks_none (s := { s with heap := put s.heap a new }) s.blksize (put_self _ _ _) hr hw,
      ok_bind, hadd]
    refine ⟨_, _, _, [(a, { new with next := none })], rfl, ⟨⟨rfl, ⟨rfl, put_self _ _ _, rfl⟩,
      nodup_singleton a⟩, by simp, ?_, by simp, ?_, hword, ?_⟩, .refl _, ?_, ?_⟩
    · intro x hx
      obtain rfl := mem_singleton.mp hx
      exact ⟨_, hsized.link none⟩
    · change s.qused = new.cursize + 0
      rw [hcur]
      exact hused
    · rw [room_nil] at hroom
      change s.qfree + s.blksize = (new.freesize + 0) % 2 ^ 32
      omega
    · exact (append_nil _).trans hnil
    · intro c hc _
      exact (put_ne _ hc).trans (put_ne _ hc)
  | cons x back =>
    have hw : s.writeblk = some x.1 := h.linked.onward.1
    have hne : x.1 ≠ a := by
      rintro rfl
      simp at hnot
    rw [enqWblks_some (s := { s with heap := put s.heap a new }) s.blksize (put_self _ _ _) hw
      ((put_ne _ hne).trans h.linked.onward.2.1) hne, ok_bind, hadd]
    have hlinked := hheld.linked
    simp only [hw] at hlinked
    refine ⟨_, _, _,
      (x.1, { x.2 with next := some a }) :: (a, { new with next := x.2.next }) :: back, rfl,
      ⟨?_, by simp, ?_, ?_, ?_, hword, ?_⟩, ?_, ?_, ?_⟩
    · simp only [relink, hw]
      exact hlinked.insert hnot { new with next := x.2.next } rfl
    · intro y hy
      rcases mem_append.mp hy with hy | hy
      · exact h.sized y (mem_append_left _ hy)
      · rcases mem_cons.mp hy with rfl | hy
        · obtain ⟨n, hx⟩ := h.sized x (by simp)
          exact ⟨n, hx.link _⟩
        · rcases mem_cons.mp hy with rfl | hy
          · exact ⟨_, hsized.link _⟩
          · exact h.sized y (by simp [hy])
    · intro y hy
      rcases mem_cons.mp hy with rfl | hy
      · exact ⟨hblank.link _, hsize.symm ▸ hpos⟩
      · exact h.spare y hy
    · have hused := h.used
      simp only [used_append, used_cons] at hused ⊢
      change s.qused = Io.used front + (x.2.cursize + (new.cursize + Io.used back))
      omega
    · rw [room_cons] at hroom
      change s.qfree + s.blksize = (x.2.freesize + (new.freesize + room back)) % 2 ^ 32
      omega
    · simp only [Chain.keys_append, Chain.keys_cons]
      rw [append_cons]
      refine perm_middle.trans ?_
      rw [← append_cons]
    · have hc : Block.contents { new with next := x.2.next } = [] := hnil
      have hx : Block.contents { x.2 with next := some a } = x.2.contents := rfl
      simp only [contents_append, contents_cons, hc, hx, nil_append]
    · intro c hc hcnot
      have hcx : c ≠ x.1 := by
        rintro rfl
        simp at hcnot
      exact (put_ne _ hcx).trans ((put_ne _ hc).trans (put_ne _ hc))

theorem copyToBlks (buf : List UInt8) (hne : buf ≠ [])
    (hfit : buf.length ≤ s.qfree) (hword : s.qused + buf.length < 2 ^ 32) :
    ∃ heap w front' back', s.copyToBlks buf = .ok (s.relink heap s.readblk w
        (s.qused + buf.length) (s.qfree - buf.length)) ∧
      Held (s.relink heap s.readblk w (s.qused + buf.length) (s.qfree - buf.length))
        front' back' ∧ keys (front' ++ back') = keys (front ++ back) ∧
      contents (front' ++ back') = contents (front ++ back) ++ buf ∧
      ∀ a ∉ keys (front ++ back), heap a = s.heap a := by
  have hroom := h.free
  have hlen : 0 < buf.length := length_pos_iff.mpr hne
  have hsub : sub s.qfree buf.length = s.qfree - buf.length := by
    apply sub_of_le hfit
    rw [hroom]
    exact mod_lt _ (by decide)
  have hadd : add s.qused buf.length = s.qused + buf.length := add_of_lt hword
  have hback : back ≠ [] := by
    rintro rfl
    rw [room_nil] at hroom
    omega
  obtain ⟨heap, w, front', back', hcopy, hcopied, hopen, -⟩ := copy_loop (2 * buf.length)
    (fun _ _ => True) (fun _ _ _ _ _ => trivial) (fun _ _ _ _ _ _ _ => trivial) h.linked
    h.toOpen trivial hback (by omega) (fun hnil => absurd hnil hne)
    fun x _ => le_add_right _ _
  refine ⟨heap, w, front', back', ?_, ⟨hcopied.linked, fun hnil => absurd hnil hcopied.nonempty,
    hopen.sized, hopen.spare, ?_, hword, ?_⟩, hcopied.keys, hcopied.bytes, hcopied.frame⟩
  · rw [Stream.copyToBlks, hcopy, ok_bind, hsub, hadd]
    rfl
  · have hcount := congrArg length hcopied.bytes
    rw [length_append, contents_length, contents_length, ← h.used] at hcount
    exact hcount.symm
  · have hrest := hcopied.room
    simp only [relink]
    omega

theorem writeOffset (offset : Dlong) : Held { s with writeOffset := offset } front back :=
  ⟨h.linked, h.held, h.sized, h.spare, h.used, h.word, h.free⟩

theorem putBlocks (hl : Limits s) {malloc : Option (Addr × Mem)}
    (hfresh : ∀ g ∈ malloc, s.heap g.1 = none) {p : Option Addr} {resid : ℕ}
    (hchain : Along next s.heap p l none) (hapart : (keys (front ++ back ++ l)).Nodup)
    (hblk : resid ≤ s.blksize) (hmalloc : s.qfree < resid → malloc ≠ none) :
    ∃ heap r w f back', s.putBlocks (fun _ => malloc) resid =
        .ok (.success, s.relink heap r w s.qused f) ∧
      Held (s.relink heap r w s.qused f) front back' ∧ resid ≤ f ∧
      (keys (front ++ back' ++ l)).Nodup ∧ contents (front ++ back') = contents (front ++ back) ∧
      ∀ a ∈ keys l, heap a = s.heap a := by
  have hsize := hl.size
  have hbound := hl.bound
  rw [Stream.putBlocks]
  split_ifs with hshort
  · cases malloc with
    | none => exact absurd rfl (hmalloc hshort)
    | some g =>
      have hnone := hfresh g rfl
      obtain ⟨heap, r, w, back₁, halloc, hheld, hperm, hbytes, hframe⟩ := h.alloc g.2 hnone
        (by omega) (by omega) (by omega)
      have hg : g.1 ∉ keys l := hchain.fresh hnone
      refine ⟨heap, r, w, _, back₁, ?_, hheld, by omega, ?_, hbytes, fun a ha => ?_⟩
      · rw [getMoreBlocks_one _ (by omega) (by omega) (by omega)]
        exact halloc
      · rw [Chain.keys_append, (hperm.append_right _).nodup_iff, cons_append, ← Chain.keys_append, nodup_cons]
        refine ⟨?_, hapart⟩
        rw [Chain.keys_append, mem_append, not_or]
        exact ⟨h.along.fresh hnone, hg⟩
      · rw [Chain.keys_append, nodup_append] at hapart
        exact hframe a (fun heq => hg (heq ▸ ha)) fun hmem => hapart.2.2 a hmem a ha rfl
  · exact ⟨s.heap, s.readblk, s.writeblk, s.qfree, back, rfl, h, by omega, hapart, rfl,
      fun _ _ => rfl⟩

theorem putExcess (hl : Limits s) {malloc : Option (Addr × Mem)}
    (hfresh : ∀ g ∈ malloc, s.heap g.1 = none) {b : Cell} {rest : List Cell} {resid : ℕ}
    (hchain : Along next s.heap (some b.1) (b :: rest) none)
    (hapart : (keys (front ++ back ++ b :: rest)).Nodup) (hpos : 0 < resid)
    (hblk : resid ≤ s.blksize) (hword : s.qused + resid < 2 ^ 32)
    (hmalloc : s.qfree < resid → malloc ≠ none) (count : ℕ) (offset : Dlong) :
    ∃ t front' back', s.putExcess (fun _ => malloc) count resid offset b.1 =
        .ok (t.putFinish .success count offset (some b.1)) ∧ Held t front' back' ∧
      Along next t.heap (some b.1) ((b.1, b.2.advance resid) :: rest) none ∧
      (keys (front' ++ back' ++ b :: rest)).Nodup ∧
      contents (front' ++ back') = contents (front ++ back) ++ b.2.read resid := by
  obtain ⟨heap₁, r₁, w₁, f₁, back₁, hmore, hheld₁, hf₁, hapart₁, hbytes₁, hframe₁⟩ :=
    h.putBlocks hl hfresh hchain hapart hblk hmalloc
  have hlen : (b.2.read resid).length = resid := bytes_length _ _ _
  obtain ⟨heap₂, w₂, front₂, back₂, hcopy, hheld₂, hkeys₂, hbytes₂, hframe₂⟩ :=
    hheld₁.copyToBlks (b.2.read resid) (ne_nil_of_length_pos (by omega))
      (show (b.2.read resid).length ≤ f₁ by omega)
      (show s.qused + (b.2.read resid).length < 2 ^ 32 by omega)
  have hout : ∀ a ∈ keys (b :: rest), a ∉ keys (front ++ back₁) := by
    rw [Chain.keys_append, nodup_append] at hapart₁
    exact fun a ha hmem => hapart₁.2.2 a hmem a ha rfl
  have hb : b.1 ∈ keys (b :: rest) := by simp
  have hout' : b.1 ∉ keys (front₂ ++ back₂) := by
    rw [hkeys₂]
    exact hout _ hb
  have hload₁ : heap₁ b.1 = some b.2 := (hframe₁ _ hb).trans hchain.2.1
  have hload₂ : heap₂ b.1 = some b.2 := (hframe₂ _ (hout _ hb)).trans hload₁
  have hnodup : (keys (b :: rest)).Nodup := hchain.nodup
  rw [Chain.keys_cons, nodup_cons] at hnodup
  refine ⟨_, front₂, back₂, ?_, hheld₂.put_outside (b.2.advance resid) hout',
    ⟨rfl, put_self _ _ _, ?_⟩, ?_, hbytes₂.trans ?_⟩
  · rw [Stream.putExcess, hmore, ok_bind]
    simp only [if_true, relink, load_some hload₁, ok_bind]
    simp only [relink] at hcopy
    rw [hcopy, ok_bind, load_some hload₂]
    rfl
  · refine hchain.2.2.congr fun a ha => ?_
    have hmem : a ∈ keys (b :: rest) := mem_cons_of_mem _ ha
    have hne : a ≠ b.1 := by
      rintro rfl
      exact hnodup.1 ha
    exact (put_ne _ hne).trans ((hframe₂ a (hout a hmem)).trans (hframe₁ a hmem))
  · rw [Chain.keys_append, hkeys₂, ← Chain.keys_append]
    exact hapart₁
  · rw [hbytes₁]

end

end Held

end MachUS.Io
