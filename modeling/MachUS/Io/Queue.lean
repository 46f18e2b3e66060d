import MachUS.Io.ByteStream

namespace MachUS.Io

open Memory List Block Word

namespace Block

structure Sized (b : Block) (n : ℕ) : Prop where
  low : b.minOffset ≤ b.startOffset
  order : b.startOffset ≤ b.endOffset
  high : b.endOffset ≤ b.maxOffset
  size : b.maxOffset = b.minOffset + n
  bound : b.maxOffset < 2 ^ 32

structure Blank (b : Block) : Prop where
  start : b.startOffset = b.minOffset
  stop : b.endOffset = b.minOffset

def contents (b : Block) : List UInt8 := b.read b.cursize

variable {b : Block} {n : ℕ}

theorem contents_length (b : Block) : b.contents.length = b.cursize := bytes_length _ _ _

namespace Sized

variable (h : b.Sized n)

include h

theorem cursize_eq : b.cursize = b.endOffset - b.startOffset :=
  sub_of_le h.order (h.high.trans_lt h.bound)

theorem freesize_eq : b.freesize = b.maxOffset - b.endOffset := sub_of_le h.high h.bound

theorem maxsize_eq : b.maxsize = n := by
  have hsize := h.size
  rw [maxsize, sub_of_le (by omega) h.bound]
  omega

theorem cursize_blank (hb : b.Blank) : b.cursize = 0 := by
  rw [h.cursize_eq, hb.start, hb.stop, Nat.sub_self]

theorem freesize_blank (hb : b.Blank) : b.freesize = n := by
  rw [h.freesize_eq, hb.stop, h.size, Nat.add_sub_cancel_left]

theorem contents_blank (hb : b.Blank) : b.contents = [] :=
  eq_nil_of_length_eq_zero (b.contents_length.trans (h.cursize_blank hb))

theorem link (p : Option Addr) : ({ b with next := p } : Block).Sized n :=
  ⟨h.low, h.order, h.high, h.size, h.bound⟩

theorem clear : b.clear.Sized n := by
  have hsize := h.size
  exact ⟨le_refl _, le_refl _, by simp only [Block.clear]; omega, h.size, h.bound⟩

theorem advance_start {k : ℕ} (hk : k ≤ b.cursize) :
    (b.advance k).startOffset = b.startOffset + k := by
  rw [h.cursize_eq] at hk
  have hhigh := h.high
  have hbound := h.bound
  have horder := h.order
  exact add_of_lt (by omega)

theorem advance {k : ℕ} (hk : k ≤ b.cursize) : (b.advance k).Sized n := by
  have hstart := h.advance_start hk
  rw [h.cursize_eq] at hk
  have hlow := h.low
  have horder := h.order
  refine ⟨?_, ?_, h.high, h.size, h.bound⟩
  · rw [hstart]
    exact hlow.trans (Nat.le_add_right _ _)
  · rw [hstart]
    simp only [Block.advance]
    omega

theorem cursize_advance {k : ℕ} (hk : k ≤ b.cursize) : (b.advance k).cursize = b.cursize - k := by
  have hstart := h.advance_start hk
  rw [(h.advance hk).cursize_eq, hstart, h.cursize_eq]
  simp only [Block.advance]
  omega

theorem contents_advance {k : ℕ} (hk : k ≤ b.cursize) :
    b.contents = b.read k ++ (b.advance k).contents := by
  have hsplit : b.cursize = k + (b.advance k).cursize := by
    rw [h.cursize_advance hk]
    omega
  have hstart : ((b.advance k).startOffset : ℤ) = b.startOffset + k := by
    rw [h.advance_start hk]
    exact Nat.cast_add _ _
  rw [contents, read, hsplit, bytes_append, contents, read, read, hstart]
  rfl

theorem empty_advance_iff {k : ℕ} (hk : k ≤ b.cursize) : (b.advance k).Empty ↔ k = b.cursize := by
  have hstart := h.advance_start hk
  have hcur := h.cursize_eq
  have horder := h.order
  rw [Empty, hstart]
  simp only [Block.advance]
  omega

variable {buf : List UInt8} (hbuf : buf.length ≤ b.freesize)

include hbuf

theorem append_end : (b.append buf).endOffset = b.endOffset + buf.length := by
  rw [h.freesize_eq] at hbuf
  have hhigh := h.high
  have hbound := h.bound
  exact add_of_lt (by omega)

theorem append : (b.append buf).Sized n := by
  have hend := h.append_end hbuf
  rw [h.freesize_eq] at hbuf
  have hhigh := h.high
  refine ⟨h.low, ?_, ?_, h.size, h.bound⟩
  · rw [hend]
    exact h.order.trans (Nat.le_add_right _ _)
  · rw [hend]
    simp only [Block.append]
    omega

theorem cursize_append : (b.append buf).cursize = b.cursize + buf.length := by
  have horder := h.order
  rw [(h.append hbuf).cursize_eq, h.append_end hbuf, h.cursize_eq]
  simp only [Block.append]
  omega

theorem freesize_append : (b.append buf).freesize = b.freesize - buf.length := by
  rw [(h.append hbuf).freesize_eq, h.append_end hbuf, h.freesize_eq]
  simp only [Block.append]
  omega

theorem contents_append : (b.append buf).contents = b.contents ++ buf := by
  have hstart : (b.startOffset : ℤ) + b.cursize = b.endOffset := by
    have horder := h.order
    rw [h.cursize_eq]
    omega
  rw [contents, read, h.cursize_append hbuf, bytes_append]
  simp only [Block.append]
  rw [hstart, bytes_store_self, bytes_store_outside (Or.inl hstart.le)]
  rfl

end Sized

theorem clear_blank (b : Block) : b.clear.Blank := ⟨rfl, rfl⟩

theorem Blank.link (h : b.Blank) (p : Option Addr) : ({ b with next := p } : Block).Blank :=
  ⟨h.start, h.stop⟩

end Block

theorem newBlock_sized {n : ℕ} (hn : n < 2 ^ 30) (data : Mem) :
    (Stream.newBlock n data).Sized n := by
  have hmax : add headerSize n = headerSize + n :=
    add_of_lt (by rw [headerSize]; omega)
  refine ⟨le_refl _, le_refl _, ?_, hmax, ?_⟩
  · simp only [Stream.newBlock, Block.clear, hmax]
    exact Nat.le_add_right _ _
  · simp only [Stream.newBlock, Block.clear, hmax]
    rw [headerSize]
    omega

abbrev Cell := Addr × Block

def used (l : List Cell) : ℕ := (l.map fun x => x.2.cursize).sum

def room (l : List Cell) : ℕ := (l.map fun x => x.2.freesize).sum

def contents (l : List Cell) : List UInt8 := l.flatMap fun x => x.2.contents

@[simp] theorem used_nil : used [] = 0 := rfl

@[simp] theorem used_cons (x : Cell) (l : List Cell) : used (x :: l) = x.2.cursize + used l := rfl

@[simp] theorem used_append (l l' : List Cell) : used (l ++ l') = used l + used l' := by
  simp [used]

@[simp] theorem room_nil : room [] = 0 := rfl

@[simp] theorem room_cons (x : Cell) (l : List Cell) : room (x :: l) = x.2.freesize + room l := rfl

@[simp] theorem contents_nil : contents [] = [] := rfl

@[simp] theorem contents_cons (x : Cell) (l : List Cell) :
    contents (x :: l) = x.2.contents ++ contents l := rfl

@[simp] theorem contents_append (l l' : List Cell) :
    contents (l ++ l') = contents l ++ contents l' := flatMap_append

theorem contents_length (l : List Cell) : (contents l).length = used l := by
  induction l with
  | nil => rfl
  | cons x l ih => rw [contents_cons, length_append, Block.contents_length, ih, used_cons]

theorem used_of_blank {n : ℕ} {l : List Cell} (hs : ∀ x ∈ l, x.2.Sized n)
    (hb : ∀ x ∈ l, x.2.Blank) : used l = 0 := by
  induction l with
  | nil => rfl
  | cons x l ih =>
    have hx : x ∈ x :: l := mem_cons_self
    rw [used_cons, (hs x hx).cursize_blank (hb x hx),
      ih (fun y hy => hs y (mem_cons_of_mem x hy)) fun y hy => hb y (mem_cons_of_mem x hy)]

open Chain

structure Linked (heap : Heap) (r w : Option Addr) (front back : List Cell) : Prop where
  upTo : Along next heap r front w
  onward : Along next heap w back none
  distinct : (keys (front ++ back)).Nodup

structure Shape (n : ℕ) (front back : List Cell) : Prop where
  sized : ∀ x ∈ front ++ back, x.2.Sized n
  full : ∀ x ∈ front, 0 < x.2.cursize
  rest : ∀ x ∈ back.tail, x.2.Blank
  head : ∀ x ∈ back.head?, 0 < x.2.cursize ∨ front = [] ∧ x.2.Blank
  held : back = [] → front = []
  positive : back ≠ [] → 0 < n

structure Queue (s : Stream) (front back : List Cell) : Prop where
  linked : Linked s.heap s.readblk s.writeblk front back
  shape : Shape s.blksize front back
  used : s.qused = used (front ++ back)
  free : s.qfree = room back

theorem load_some {heap : Heap} {a : Addr} {b : Block} (h : heap a = some b) :
    load heap (some a) = .ok (a, b) := by
  rw [load, h]

@[simp] theorem put_self (heap : Heap) (a : Addr) (b : Block) : put heap a b a = some b :=
  Function.update_self _ _ _

theorem put_ne {heap : Heap} {a c : Addr} (b : Block) (h : c ≠ a) : put heap a b c = heap c :=
  Function.update_of_ne h _ _

@[simp] theorem put_put (heap : Heap) (a : Addr) (b c : Block) :
    put (put heap a b) a c = put heap a c := Function.update_idem _ _ _

namespace Linked

variable {heap : Heap} {r w : Option Addr} {front back : List Cell} {x : Cell}

theorem put_outside (h : Linked heap r w front back) {a : Addr} {b : Option Block}
    (ha : a ∉ keys (front ++ back)) :
    Linked (Function.update heap a b) r w front back := by
  rw [Chain.keys_append, mem_append, not_or] at ha
  exact ⟨h.upTo.update ha.1, h.onward.update ha.2, h.distinct⟩

theorem read_eq (h : Linked heap r w front back) (hheld : back = [] → front = []) :
    r = none ↔ w = none := by
  constructor
  · intro hr
    have hnil := (h.upTo.append h.onward).eq_none.mp hr
    exact h.onward.eq_none.mpr (append_eq_nil_iff.mp hnil).2
  · intro hw
    have hback := h.onward.eq_none.mp hw
    have hfront := hheld hback
    subst hfront
    exact h.upTo.trans hw

theorem pop_front (h : Linked heap r w (x :: front) back) :
    Linked heap x.2.next w front back ∧ r = some x.1 ∧ heap x.1 = some x.2 ∧
      x.1 ∉ keys (front ++ back) := by
  have hd : (x.1 :: keys (front ++ back)).Nodup := h.distinct
  rw [nodup_cons] at hd
  exact ⟨⟨h.upTo.2.2, h.onward, hd.2⟩, h.upTo.1, h.upTo.2.1, hd.1⟩

theorem pop_back (h : Linked heap r w [] (x :: back)) :
    Linked heap x.2.next x.2.next [] back ∧ r = some x.1 ∧ w = some x.1 ∧
      heap x.1 = some x.2 ∧ x.1 ∉ keys back := by
  have hd : (x.1 :: keys back).Nodup := h.distinct
  rw [nodup_cons] at hd
  exact ⟨⟨rfl, h.onward.2.2, hd.2⟩, h.upTo.trans h.onward.1, h.onward.1, h.onward.2.1, hd.1⟩

theorem insert (h : Linked heap r (some x.1) front (x :: back)) {a : Addr}
    (ha : a ∉ keys (front ++ x :: back)) (c : Block) (hc : c.next = x.2.next) :
    Linked (put (put heap a c) x.1 { x.2 with next := some a }) r (some x.1) front
      ((x.1, { x.2 with next := some a }) :: (a, c) :: back) := by
  have hd := h.distinct
  simp only [Chain.keys_append, Chain.keys_cons, nodup_append, nodup_cons, mem_append,
    mem_cons, not_or] at hd ha
  obtain ⟨hfront, ⟨hx, hback⟩, hsep⟩ := hd
  have hxfront : x.1 ∉ keys front := fun hmem => hsep _ hmem _ (Or.inl rfl) rfl
  have hax : a ≠ x.1 := ha.2.1
  refine ⟨(h.upTo.update ha.1).update hxfront, ⟨rfl, put_self _ _ _, rfl, ?_, ?_⟩, ?_⟩
  · rw [put_ne _ hax, put_self]
  · rw [hc]
    exact (h.onward.2.2.update ha.2.2).update hx
  · simp only [Chain.keys_append, Chain.keys_cons, nodup_append, nodup_cons, mem_cons, not_or]
    refine ⟨hfront, ⟨⟨Ne.symm hax, hx⟩, ha.2.2, hback⟩, ?_⟩
    rintro y hy z (rfl | rfl | hz)
    · exact hsep y hy _ (Or.inl rfl)
    · rintro rfl
      exact ha.1 hy
    · exact hsep y hy z (Or.inr hz)

end Linked

theorem enqWblks_none {s : Stream} {a : Addr} {b : Block} (n : ℕ) (hb : s.heap a = some b)
    (hr : s.readblk = none) (hw : s.writeblk = none) :
    s.enqWblks a a n = .ok { s with
      writeblk := some a
      heap := put s.heap a { b with next := none }
      readblk := some a
      qfree := add s.qfree n } := by
  simp [Stream.enqWblks, load_some hb, hw, hr]

theorem enqWblks_some {s : Stream} {a w : Addr} {b wb : Block} (n : ℕ) (hb : s.heap a = some b)
    (hw : s.writeblk = some w) (hwb : s.heap w = some wb) (hne : w ≠ a) :
    s.enqWblks a a n = .ok { s with
      heap := put (put s.heap a { b with next := wb.next }) w { wb with next := some a }
      qfree := add s.qfree n } := by
  have hload : load (put s.heap a { b with next := wb.next }) (some w) = .ok (w, wb) :=
    load_some ((put_ne _ hne).trans hwb)
  simp [Stream.enqWblks, load_some hb, hw, load_some hwb, hload]

namespace Queue

variable {s : Stream} {front back : List Cell}

theorem positive (h : Queue s front back) (hq : 0 < s.qused) : 0 < s.blksize := by
  apply h.shape.positive
  rintro rfl
  obtain rfl := h.shape.held rfl
  rw [h.used] at hq
  exact absurd hq (lt_irrefl 0)

theorem enqueue (h : Queue s front back) {a : Addr} {c : Block}
    (ha : a ∉ keys (front ++ back)) (hheap : s.heap a = some c) (hsized : c.Sized s.blksize)
    (hblank : c.Blank) (hpos : 0 < s.blksize) (hbound : s.qfree + s.blksize < 2 ^ 32) :
    ∃ heap r w back', s.enqWblks a a s.blksize =
        .ok { s with heap := heap, readblk := r, writeblk := w, qfree := s.qfree + s.blksize } ∧
      Queue { s with heap := heap, readblk := r, writeblk := w, qfree := s.qfree + s.blksize }
        front back' ∧ contents (front ++ back') = contents (front ++ back) := by
  have hfree : c.freesize = s.blksize := hsized.freesize_blank hblank
  have hcur : c.cursize = 0 := hsized.cursize_blank hblank
  have hnil : c.contents = [] := hsized.contents_blank hblank
  cases back with
  | nil =>
    obtain rfl := h.shape.held rfl
    have hw : s.writeblk = none := h.linked.onward
    have hr : s.readblk = none := (h.linked.read_eq h.shape.held).mpr hw
    have henq := enqWblks_none s.blksize hheap hr hw
    rw [add_of_lt hbound] at henq
    refine ⟨_, _, _, [(a, { c with next := none })], henq, ⟨⟨rfl, ⟨rfl, put_self _ _ _, rfl⟩,
      nodup_singleton a⟩, ⟨?_, by simp, by simp, ?_, by simp, fun _ => hpos⟩, ?_, ?_⟩, ?_⟩
    · intro x hx
      obtain rfl := mem_singleton.mp hx
      exact hsized.link none
    · intro x hx
      obtain rfl : (a, { c with next := none }) = x := by simpa using hx
      exact Or.inr ⟨rfl, hblank.link none⟩
    · exact h.used.trans hcur.symm
    · exact (congrArg (· + s.blksize) h.free).trans ((Nat.zero_add _).trans hfree.symm)
    · rw [nil_append, nil_append, contents_cons, contents_nil, append_nil]
      exact hnil
  | cons x back =>
    have hw : s.writeblk = some x.1 := h.linked.onward.1
    have hne : x.1 ≠ a := by
      rintro rfl
      simp at ha
    have henq := enqWblks_some s.blksize hheap hw h.linked.onward.2.1 hne
    rw [add_of_lt hbound] at henq
    have hlinked := h.linked
    rw [hw] at hlinked
    have hsh := h.shape
    refine ⟨_, s.readblk, s.writeblk,
      (x.1, { x.2 with next := some a }) :: (a, { c with next := x.2.next }) :: back, henq,
      ⟨?_, ⟨?_, hsh.full, ?_, ?_, by simp, fun _ => hpos⟩, ?_, ?_⟩, ?_⟩
    · rw [hw]
      exact hlinked.insert ha { c with next := x.2.next } rfl
    · intro y hy
      rcases mem_append.mp hy with hy | hy
      · exact hsh.sized y (mem_append_left _ hy)
      · rcases mem_cons.mp hy with rfl | hy
        · exact (hsh.sized x (by simp)).link _
        · rcases mem_cons.mp hy with rfl | hy
          · exact hsized.link _
          · exact hsh.sized y (by simp [hy])
    · intro y hy
      rcases mem_cons.mp hy with rfl | hy
      · exact hblank.link _
      · exact hsh.rest y hy
    · intro y hy
      obtain rfl : (x.1, { x.2 with next := some a }) = y := by simpa using hy
      rcases hsh.head x (by simp) with hx | ⟨hx, hxb⟩
      · exact Or.inl hx
      · exact Or.inr ⟨hx, hxb.link _⟩
    · have hused := h.used
      simp only [used_append, used_cons] at hused ⊢
      have hc : cursize { c with next := x.2.next } = 0 := hcur
      have hx : cursize { x.2 with next := some a } = x.2.cursize := rfl
      rw [hc, hx, hused, Nat.zero_add]
    · have hroom := h.free
      simp only [room_cons] at hroom ⊢
      have hc : freesize { c with next := x.2.next } = s.blksize := hfree
      have hx : freesize { x.2 with next := some a } = x.2.freesize := rfl
      rw [hc, hx, hroom]
      omega
    · have hc : Block.contents { c with next := x.2.next } = [] := hnil
      have hx : Block.contents { x.2 with next := some a } = x.2.contents := rfl
      simp only [contents_append, contents_cons, hc, hx, nil_append]

end Queue

end MachUS.Io
