import MachUS.Io.Reads

namespace MachUS.Io

open Memory Chain List Stream Word

theorem Linked.shift {heap : Heap} {r w : Option Addr} {front back : List Cell} {x : Cell}
    (h : Linked heap r w front (x :: back)) :
    Linked heap r x.2.next (front ++ [x]) back where
  upTo := h.upTo.append ⟨h.onward.1, h.onward.2.1, rfl⟩
  onward := h.onward.2.2
  distinct := by simpa only [append_assoc, singleton_append] using h.distinct

structure Open (front back : List Cell) : Prop where
  sized : ∀ x ∈ front ++ back, ∃ n, x.2.Sized n
  spare : ∀ x ∈ back.tail, x.2.Blank ∧ 0 < x.2.freesize

namespace Open

variable {front back : List Cell} {x : Cell}

theorem contents_tail (h : Open front (x :: back)) : contents back = [] := by
  rw [contents, flatMap_eq_nil_iff]
  intro y hy
  obtain ⟨n, hsized⟩ := h.sized y (by simp [hy])
  exact hsized.contents_blank (h.spare y hy).1

theorem skip (h : Open front (x :: back)) : Open (front ++ [x]) back where
  sized := by simpa only [append_assoc, singleton_append] using h.sized
  spare := fun y hy => h.spare y (mem_of_mem_tail hy)

theorem fill (h : Open front (x :: back)) {buf : List UInt8} (hbuf : buf.length ≤ x.2.freesize) :
    Open front ((x.1, x.2.append buf) :: back) where
  sized := by
    intro y hy
    rcases mem_append.mp hy with hy | hy
    · exact h.sized y (mem_append_left _ hy)
    · rcases mem_cons.mp hy with rfl | hy
      · obtain ⟨n, hsized⟩ := h.sized x (by simp)
        exact ⟨n, hsized.append hbuf⟩
      · exact h.sized y (by simp [hy])
  spare := h.spare

end Open

structure Filling (n : ℕ) (front back : List Cell) : Prop where
  sized : ∀ x ∈ front ++ back, x.2.Sized n
  full : ∀ x ∈ front, 0 < x.2.cursize
  rest : ∀ x ∈ back.tail, x.2.Blank
  head : ∀ x ∈ back.head?, 0 < x.2.cursize ∨ x.2.Blank
  positive : 0 < n

namespace Filling

variable {n : ℕ} {front back : List Cell} {x : Cell}

theorem shape (h : Filling n front back) (hback : back ≠ [])
    (hhead : ∀ x ∈ back.head?, 0 < x.2.cursize) : Shape n front back where
  sized := h.sized
  full := h.full
  rest := h.rest
  head := fun x hx => Or.inl (hhead x hx)
  held := fun hnil => absurd hnil hback
  positive := fun _ => h.positive

theorem skip (h : Filling n front (x :: back)) (hx : x.2.freesize = 0) :
    Filling n (front ++ [x]) back where
  sized := by simpa only [append_assoc, singleton_append] using h.sized
  full := by
    intro y hy
    rcases mem_append.mp hy with hy | hy
    · exact h.full y hy
    · obtain rfl := mem_singleton.mp hy
      refine (h.head y rfl).resolve_right fun hblank => ?_
      have hpos := h.positive
      rw [(h.sized y (by simp)).freesize_blank hblank] at hx
      omega
  rest := fun y hy => h.rest y (mem_of_mem_tail hy)
  head := fun y hy => Or.inr (h.rest y (mem_of_mem_head? hy))
  positive := h.positive

theorem append (h : Filling n front (x :: back)) {buf : List UInt8} (hpos : 0 < buf.length)
    (hfit : buf.length ≤ x.2.freesize) : Filling n front ((x.1, x.2.append buf) :: back) where
  sized := by
    intro y hy
    rcases mem_append.mp hy with hy | hy
    · exact h.sized y (mem_append_left _ hy)
    · rcases mem_cons.mp hy with rfl | hy
      · exact (h.sized x (by simp)).append hfit
      · exact h.sized y (by simp [hy])
  full := h.full
  rest := h.rest
  head := by
    intro y hy
    obtain rfl : (x.1, x.2.append buf) = y := by simpa using hy
    refine Or.inl ?_
    rw [(h.sized x (by simp)).cursize_append hfit]
    omega
  positive := h.positive

theorem toOpen (h : Filling n front back) : Open front back where
  sized := fun y hy => ⟨n, h.sized y hy⟩
  spare := by
    intro y hy
    have hmem : y ∈ front ++ back := mem_append_right _ (mem_of_mem_tail hy)
    refine ⟨h.rest y hy, ?_⟩
    rw [(h.sized y hmem).freesize_blank (h.rest y hy)]
    exact h.positive

end Filling

theorem copyLoop_nil (n : ℕ) (heap : Heap) (cur : Option Addr) :
    copyLoop n heap cur [] = .ok (heap, cur) := by
  cases n <;> rfl

structure Copied (heap heap' : Heap) (r cur : Option Addr) (front back front' back' : List Cell)
    (buf : List UInt8) : Prop where
  linked : Linked heap' r cur front' back'
  nonempty : back' ≠ []
  last : ∀ x ∈ back'.head?, 0 < x.2.cursize
  room : room back' + buf.length = room back
  bytes : contents (front' ++ back') = contents (front ++ back) ++ buf
  keys : keys (front' ++ back') = keys (front ++ back)
  frame : ∀ a ∉ Chain.keys (front ++ back), heap' a = heap a

theorem copy_loop (n : ℕ) (Inv : List Cell → List Cell → Prop)
    (hskip : ∀ front x back, Inv front (x :: back) → x.2.freesize = 0 → Inv (front ++ [x]) back)
    (hfill : ∀ front x back buf, Inv front (x :: back) → 0 < buf.length →
      buf.length ≤ x.2.freesize → Inv front ((x.1, x.2.append buf) :: back))
    {heap : Heap} {r cur : Option Addr} {front back : List Cell} {buf : List UInt8}
    (hlinked : Linked heap r cur front back) (hopen : Open front back) (hinv : Inv front back)
    (hback : back ≠ []) (hroom : buf.length ≤ room back)
    (hdone : buf = [] → ∀ x ∈ back.head?, 0 < x.2.cursize)
    (hn : ∀ x ∈ back.head?, 2 * buf.length ≤ n + if x.2.freesize = 0 then 0 else 1) :
    ∃ heap' cur' front' back', copyLoop n heap cur buf = .ok (heap', cur') ∧
      Copied heap heap' r cur' front back front' back' buf ∧ Open front' back' ∧
      Inv front' back' := by
  induction n generalizing heap cur front back buf with
  | zero =>
    obtain ⟨x, back, rfl⟩ := exists_cons_of_ne_nil hback
    have hlen := hn x rfl
    obtain rfl : buf = [] := by
      apply eq_nil_of_length_eq_zero
      split_ifs at hlen <;> omega
    exact ⟨heap, cur, front, _, rfl,
      ⟨hlinked, hback, hdone rfl, by simp, by simp, rfl, fun _ _ => rfl⟩, hopen, hinv⟩
  | succ n ih =>
    obtain ⟨x, back, rfl⟩ := exists_cons_of_ne_nil hback
    cases buf with
    | nil =>
      exact ⟨heap, cur, front, _, rfl,
        ⟨hlinked, hback, hdone rfl, by simp, by simp, rfl, fun _ _ => rfl⟩, hopen, hinv⟩
    | cons d ds =>
      obtain ⟨k, hsized⟩ := hopen.sized x (by simp)
      have hload : load heap cur = .ok x := hlinked.onward.1 ▸ load_some hlinked.onward.2.1
      have hlen := hn x rfl
      rw [copyLoop.eq_3 _ _ _ _ (cons_ne_nil d ds), hload, Outcome.ok_bind]
      by_cases hx : x.2.freesize = 0
      · rw [room_cons, hx, Nat.zero_add] at hroom
        rw [if_pos hx] at hlen
        simp only [if_pos hx]
        have hback' : back ≠ [] := by
          rintro rfl
          simp at hroom
        have hfree : ∀ y ∈ back.head?, y.2.freesize ≠ 0 := fun y hy =>
          (hopen.spare y (mem_of_mem_head? hy)).2.ne'
        obtain ⟨heap', cur', front', back', hcopy, hcopied, hopen', hinv'⟩ := ih hlinked.shift
          hopen.skip (hskip _ _ _ hinv hx) hback' hroom (by simp) fun y hy => by
            rw [if_neg (hfree y hy)]
            omega
        have hassoc : (front ++ [x]) ++ back = front ++ x :: back := append_cons _ _ _ ▸ rfl
        refine ⟨heap', cur', front', back', hcopy, ⟨hcopied.linked, hcopied.nonempty,
          hcopied.last, ?_, hassoc ▸ hcopied.bytes, hassoc ▸ hcopied.keys,
          hassoc ▸ hcopied.frame⟩, hopen', hinv'⟩
        rw [hcopied.room, room_cons, hx, Nat.zero_add]
      · rw [if_neg hx] at hlen
        simp only [if_neg hx]
        set xfer := min (d :: ds).length x.2.freesize with hxfer
        have htake : ((d :: ds).take xfer).length = xfer := by
          rw [length_take]
          omega
        have hdrop : ((d :: ds).drop xfer).length = (d :: ds).length - xfer := length_drop
        have hpos : 0 < xfer := by
          rw [hxfer, length_cons]
          omega
        have hfit : ((d :: ds).take xfer).length ≤ x.2.freesize := by omega
        have hcur := hsized.cursize_append hfit
        have hfree := hsized.freesize_append hfit
        rw [htake] at hcur hfree
        rw [room_cons] at hroom
        obtain ⟨heap', cur', front', back', hcopy, hcopied, hopen', hinv'⟩ := ih
          (hlinked.replace_back (c := x.2.append ((d :: ds).take xfer)) rfl) (hopen.fill hfit)
          (hfill _ _ _ _ hinv (by omega) hfit) (cons_ne_nil _ _)
          (show ((d :: ds).drop xfer).length ≤ _ by rw [room_cons, hfree, hdrop]; omega)
          (fun _ y hy => by
            cases hy
            simp only [hcur]
            omega)
          (fun y hy => by
            cases hy
            split_ifs <;> omega)
        have hkeys : keys (front ++ (x.1, x.2.append ((d :: ds).take xfer)) :: back) =
            keys (front ++ x :: back) := by
          simp only [Chain.keys_append, Chain.keys_cons]
        refine ⟨heap', cur', front', back', hcopy, ⟨hcopied.linked, hcopied.nonempty,
          hcopied.last, ?_, ?_, hcopied.keys.trans hkeys, ?_⟩, hopen', hinv'⟩
        · have hrest := hcopied.room
          rw [room_cons, hfree, hdrop] at hrest
          rw [room_cons]
          omega
        · rw [hcopied.bytes]
          simp only [Io.contents_append, contents_cons, hopen.contents_tail, append_nil,
            hsized.contents_append hfit, append_assoc, take_append_drop]
        · intro a ha
          have hne : a ≠ x.1 := by
            rintro rfl
            simp at ha
          exact (hcopied.frame a (hkeys ▸ ha)).trans (put_ne _ hne)

def Fresh (heap : Heap) (malloc : Malloc) : Prop :=
  ∀ i a data, malloc i = some (a, data) → heap a = none

theorem Stream.getMoreBlocks_one {s : Stream} (malloc : Malloc) {size : ℕ} (hpos : 0 < size)
    (hle : size ≤ s.blksize) (hblk : s.blksize < 2 ^ 30) :
    s.getMoreBlocksInternal malloc size = allocBlocks malloc 0 1 s := by
  have hone : signed (sub (add size s.blksize) 1 / s.blksize) = 1 := by
    have hadd : add size s.blksize = size + s.blksize := add_of_lt (by omega)
    have hdiv : (size + s.blksize - 1) / s.blksize = 1 :=
      Nat.div_eq_of_lt_le (by omega) (by omega)
    rw [hadd, sub_of_le (by omega) (by omega), hdiv, signed_of_lt (by decide)]
    rfl
  rw [getMoreBlocksInternal, if_neg (by omega)]
  simp only [hone, Int.toNat_one]

namespace Queue

variable {s : Stream} {front back : List Cell}

section

variable (h : Queue s front back)

include h

theorem copyToBlks (buf : List UInt8) (hfit : buf.length ≤ s.qfree)
    (hfree : s.qfree < 2 ^ 32) (hused : s.qused + buf.length < 2 ^ 32) :
    ∃ heap w front' back', s.copyToBlks buf = .ok (s.relink heap s.readblk w
        (s.qused + buf.length) (s.qfree - buf.length)) ∧
      Queue (s.relink heap s.readblk w (s.qused + buf.length) (s.qfree - buf.length))
        front' back' ∧ contents (front' ++ back') = contents (front ++ back) ++ buf := by
  have hsub : sub s.qfree buf.length = s.qfree - buf.length := sub_of_le hfit hfree
  have hadd : add s.qused buf.length = s.qused + buf.length := add_of_lt hused
  rcases eq_nil_or_concat buf with rfl | ⟨ds, d, hbuf⟩
  · refine ⟨s.heap, s.writeblk, front, back, ?_, h, by rw [append_nil]⟩
    rw [Stream.copyToBlks, copyLoop_nil, Outcome.ok_bind, hsub, hadd]
    rfl
  · have hne : buf ≠ [] := by simp [hbuf]
    have hlen : 0 < buf.length := length_pos_iff.mpr hne
    have hroom : s.qfree = room back := h.free
    have hback : back ≠ [] := by
      rintro rfl
      rw [room_nil] at hroom
      omega
    have hfill : Filling s.blksize front back := ⟨h.shape.sized, h.shape.full, h.shape.rest,
      fun x hx => (h.shape.head x hx).imp_right And.right, h.shape.positive hback⟩
    obtain ⟨heap, w, front', back', hcopy, hcopied, -, hfill'⟩ := copy_loop (2 * buf.length)
      (Filling s.blksize) (fun _ _ _ hfill hx => hfill.skip hx)
      (fun _ _ _ _ hfill hpos hfit => hfill.append hpos hfit) h.linked hfill.toOpen hfill hback
      (hroom ▸ hfit) (fun hnil => absurd hnil hne) fun x _ => Nat.le_add_right _ _
    refine ⟨heap, w, front', back', ?_, ⟨hcopied.linked,
      hfill'.shape hcopied.nonempty hcopied.last, ?_, ?_⟩, hcopied.bytes⟩
    · rw [Stream.copyToBlks, hcopy, Outcome.ok_bind, hsub, hadd]
      rfl
    · have hcount := congrArg length hcopied.bytes
      rw [length_append, Io.contents_length, Io.contents_length, ← h.used] at hcount
      exact hcount.symm
    · exact Nat.sub_eq_of_eq_add (hroom.trans hcopied.room.symm)

theorem alloc_one (hl : Limits s) {malloc : Malloc} {a : Addr}
    {data : Mem} (hm : malloc 0 = some (a, data)) (hfresh : Fresh s.heap malloc)
    (hpos : 0 < s.blksize) (hfree : s.qfree ≤ s.qHwm) :
    ∃ heap r w back', allocBlocks malloc 0 1 s =
        .ok (.success, s.relink heap r w s.qused (s.qfree + s.blksize)) ∧
      Queue (s.relink heap r w s.qused (s.qfree + s.blksize)) front back' ∧
      contents (front ++ back') = contents (front ++ back) := by
  have hbound := hl.bound
  have hmark := hl.mark
  have hsize := hl.size
  have hnone := hfresh 0 a data hm
  have ha : a ∉ keys (front ++ back) := by
    rw [Chain.keys_append, mem_append, not_or]
    exact ⟨h.linked.upTo.fresh hnone, h.linked.onward.fresh hnone⟩
  have hput : Queue { s with heap := put s.heap a (newBlock s.blksize data) } front back :=
    ⟨h.linked.put_outside ha, h.shape, h.used, h.free⟩
  have hblank : (newBlock s.blksize data).Blank := Block.clear_blank _
  obtain ⟨heap, r, w, back', henq, hqueue, hc⟩ := hput.enqueue ha (put_self _ _ _)
    (newBlock_sized (by omega) data) hblank hpos
    (show s.qfree + s.blksize < 2 ^ 32 by omega)
  refine ⟨heap, r, w, back', ?_, hqueue, hc⟩
  simp only [allocBlocks, hm]
  rw [henq]
  rfl

theorem writeBlocks (hl : Limits s) {malloc : Malloc} (num : ℕ)
    (hfresh : Fresh s.heap malloc) (hnum : num ≤ s.qmax) (hfree : s.qfree ≤ s.qHwm) :
    s.writeBlocks malloc num = .ok (.internalError, s.usInternalError .allocBlock) ∨
    ∃ heap r w f back', s.writeBlocks malloc num = .ok (.success, s.relink heap r w s.qused f) ∧
      Queue (s.relink heap r w s.qused f) front back' ∧ num ≤ f ∧ f ≤ s.qHwm ∧
      contents (front ++ back') = contents (front ++ back) := by
  have hbound := hl.bound
  have hmark := hl.mark
  have hsize := hl.size
  rw [Stream.writeBlocks]
  by_cases hlt : s.qfree < num
  · have hpos : 0 < s.blksize := by omega
    have hsub : sub num s.qfree = num - s.qfree := sub_of_le hlt.le (by omega)
    rw [if_pos ((signed_sub_pos_iff (by omega) (by omega)).mpr hlt), hsub,
      getMoreBlocks_one malloc (by omega) (by omega) (by omega)]
    cases hm : malloc 0 with
    | none =>
      refine Or.inl ?_
      simp only [allocBlocks, hm]
      rfl
    | some g =>
      obtain ⟨heap, r, w, back', halloc, hqueue, hc⟩ := h.alloc_one hl hm hfresh hpos hfree
      exact Or.inr ⟨heap, r, w, s.qfree + s.blksize, back', halloc, hqueue, by omega, by omega, hc⟩
  · rw [if_neg (fun hpos => hlt ((signed_sub_pos_iff (by omega) (by omega)).mp hpos))]
    exact Or.inr ⟨s.heap, s.readblk, s.writeblk, s.qfree, back, rfl, h, by omega, hfree, rfl⟩

theorem length_le : (front ++ back).length ≤ s.qused + s.qfree := by
  have hfront (l : List Cell) (hl : ∀ x ∈ l, 0 < x.2.cursize) : l.length ≤ Io.used l := by
    induction l with
    | nil => exact le_refl 0
    | cons x l ih =>
      have hx := hl x (by simp)
      have hrest := ih fun y hy => hl y (by simp [hy])
      rw [length_cons, used_cons]
      omega
  have hrest (l : List Cell) (hl : ∀ x ∈ l, x.2.freesize = s.blksize) (hpos : 0 < s.blksize) :
      l.length ≤ room l := by
    induction l with
    | nil => exact le_refl 0
    | cons x l ih =>
      have hx := hl x (by simp)
      have hrest := ih fun y hy => hl y (by simp [hy])
      rw [length_cons, room_cons]
      omega
  have hsh := h.shape
  have hcount := hfront front hsh.full
  rw [h.used, h.free, length_append, used_append]
  cases back with
  | nil =>
    simp only [length_nil, used_nil, room_nil]
    omega
  | cons x back =>
    have hpos := hsh.positive (cons_ne_nil _ _)
    have htail := hrest back (fun y hy => (hsh.sized y (by simp [hy])).freesize_blank
      (hsh.rest y hy)) hpos
    have hx : 0 < x.2.cursize + x.2.freesize := by
      rcases hsh.head x rfl with hx | ⟨-, hblank⟩
      · omega
      · rw [(hsh.sized x (by simp)).freesize_blank hblank]
        omega
    rw [length_cons, used_cons, room_cons]
    omega

end

end Queue

theorem free_loop (n : ℕ) {heap : Heap} {p : Option Addr} {l : List Cell}
    (h : Along Block.next heap p l none) (hd : (keys l).Nodup) (hn : l.length ≤ n) :
    ∃ heap', freeLoop n heap p = .ok heap' := by
  induction n generalizing heap p l with
  | zero =>
    obtain rfl := eq_nil_of_length_eq_zero (Nat.le_zero.mp hn)
    obtain rfl : p = none := h
    exact ⟨heap, rfl⟩
  | succ n ih =>
    cases l with
    | nil =>
      obtain rfl : p = none := h
      exact ⟨heap, rfl⟩
    | cons x l =>
      obtain ⟨rfl, hx, hrest⟩ := h
      rw [Chain.keys_cons, nodup_cons] at hd
      obtain ⟨heap', hfree⟩ := ih (hrest.update hd.1) hd.2 (Nat.le_of_succ_le_succ hn)
      refine ⟨heap', ?_⟩
      rw [freeLoop, load_some hx, Outcome.ok_bind]
      exact hfree

theorem Queue.flush {s : Stream} {front back : List Cell} (h : Queue s front back) :
    ∃ heap, s.ioFlushStream = .ok (.success,
      { s.relink heap none none 0 0 with readOffset := s.writeOffset }) := by
  obtain ⟨heap, hfree⟩ := free_loop (s.qused + s.qfree) (h.linked.upTo.append h.linked.onward)
    h.linked.distinct h.length_le
  refine ⟨heap, ?_⟩
  rw [ioFlushStream, hfree]
  rfl

theorem queue_nil {s : Stream} (hr : s.readblk = none) (hw : s.writeblk = none)
    (hu : s.qused = 0) (hf : s.qfree = 0) : Queue s [] [] :=
  ⟨⟨hr.trans hw.symm, hw, nodup_nil⟩,
    ⟨by simp, by simp, by simp, by simp, fun _ => rfl, fun h => absurd rfl h⟩, hu, hf⟩

end MachUS.Io
