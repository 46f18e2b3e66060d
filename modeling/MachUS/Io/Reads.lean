import MachUS.Io.Queue

namespace MachUS.Io

open Memory Chain List Stream Word

def Stream.relink (s : Stream) (heap : Heap) (r w : Option Addr) (used free : ℕ) : Stream :=
  { s with heap := heap, readblk := r, writeblk := w, qused := used, qfree := free }

structure Limits (s : Stream) : Prop where
  size : s.blksize = s.qmax
  mark : s.qHwm = 2 * s.qmax
  bound : s.qmax < 2 ^ 30

theorem Limits.relink {s : Stream} (h : Limits s) (heap : Heap) (r w : Option Addr)
    (used free : ℕ) : Limits (s.relink heap r w used free) := ⟨h.size, h.mark, h.bound⟩

theorem deqRblks_front {s : Stream} {a : Addr} {b : Block} (n : ℕ) (hr : s.readblk = some a)
    (hw : s.writeblk ≠ some a) (hb : s.heap a = some b) :
    s.deqRblks a a n = .ok (s.relink (put s.heap a { b with next := none }) b.next s.writeblk
      (sub s.qused n) s.qfree) := by
  simp [deqRblks, hr, load_some hb, Ne.symm hw, relink]

theorem deqRblks_back {s : Stream} {a : Addr} {b : Block} (n : ℕ) (hr : s.readblk = some a)
    (hw : s.writeblk = some a) (hb : s.heap a = some b) :
    s.deqRblks a a n = .ok (s.relink (put s.heap a { b with next := none }) b.next b.next
      (sub s.qused n) (sub s.qfree b.freesize)) := by
  simp [deqRblks, hr, load_some hb, hw, relink]

namespace Linked

variable {heap : Heap} {r w : Option Addr} {front back : List Cell} {x : Cell}

theorem replace_front (h : Linked heap r w (x :: front) back) {c : Block}
    (hc : c.next = x.2.next) : Linked (put heap x.1 c) r w ((x.1, c) :: front) back := by
  obtain ⟨hrest, hr, -, hx⟩ := h.pop_front
  have hput := hrest.put_outside (b := some c) hx
  refine ⟨⟨hr, put_self _ _ _, ?_⟩, hput.onward, h.distinct⟩
  rw [hc]
  exact hput.upTo

theorem replace_back (h : Linked heap r w front (x :: back)) {c : Block}
    (hc : c.next = x.2.next) : Linked (put heap x.1 c) r w front ((x.1, c) :: back) := by
  have hkeys : (keys (front ++ (x.1, c) :: back)).Nodup := by
    simpa only [Chain.keys_append, Chain.keys_cons] using h.distinct
  have hd := h.distinct
  simp only [Chain.keys_append, Chain.keys_cons, nodup_append, nodup_cons] at hd
  have hfront : x.1 ∉ keys front := fun hmem => hd.2.2 _ hmem _ mem_cons_self rfl
  refine ⟨h.upTo.update hfront, ⟨h.onward.1, put_self _ _ _, ?_⟩, hkeys⟩
  rw [hc]
  exact h.onward.2.2.update hd.2.1.1

end Linked

namespace Shape

variable {n : ℕ} {front back : List Cell} {x : Cell}

theorem pop_front (h : Shape n (x :: front) back) : Shape n front back where
  sized := fun y hy => h.sized y (mem_cons_of_mem x hy)
  full := fun y hy => h.full y (mem_cons_of_mem x hy)
  rest := h.rest
  head := fun y hy => (h.head y hy).imp_right fun hnil => nomatch hnil.1
  held := fun hnil => nomatch h.held hnil
  positive := h.positive

theorem pop_back (h : Shape n [] (x :: back)) : Shape n [] back where
  sized := fun y hy => h.sized y (mem_cons_of_mem x hy)
  full := fun _ hy => nomatch hy
  rest := fun y hy => h.rest y (mem_of_mem_tail hy)
  head := fun y hy => Or.inr ⟨rfl, h.rest y (mem_of_mem_head? hy)⟩
  held := fun _ => rfl
  positive := fun _ => h.positive (cons_ne_nil _ _)

theorem replace_front (h : Shape n (x :: front) back) {a : Addr} {c : Block} (hc : c.Sized n)
    (hpos : 0 < c.cursize) : Shape n ((a, c) :: front) back where
  sized := forall_mem_cons.mpr ⟨hc, h.pop_front.sized⟩
  full := forall_mem_cons.mpr ⟨hpos, h.pop_front.full⟩
  rest := h.rest
  head := fun y hy => (h.head y hy).imp_right fun hnil => nomatch hnil.1
  held := fun hnil => nomatch h.held hnil
  positive := h.positive

theorem replace_back (h : Shape n front (x :: back)) {a : Addr} {c : Block} (hc : c.Sized n)
    (hpos : 0 < c.cursize) : Shape n front ((a, c) :: back) where
  sized := by
    intro y hy
    rcases mem_append.mp hy with hy | hy
    · exact h.sized y (mem_append_left _ hy)
    · rcases mem_cons.mp hy with rfl | hy
      · exact hc
      · exact h.sized y (by simp [hy])
  full := h.full
  rest := h.rest
  head := by
    intro y hy
    obtain rfl : (a, c) = y := by simpa using hy
    exact Or.inl hpos
  held := fun hnil => nomatch hnil
  positive := fun _ => h.positive (cons_ne_nil _ _)

end Shape

namespace Queue

variable {s : Stream} {front back : List Cell}

theorem recycle (h : Queue s front back) (hl : Limits s) {a : Addr} {c : Block}
    (ha : a ∉ keys (front ++ back)) (hheap : s.heap a = some c) (hsized : c.Sized s.blksize)
    (hblank : c.Blank) (hpos : 0 < s.blksize) (hfree : s.qfree ≤ s.qHwm) :
    ∃ heap r w f back', s.recycle a c = .ok (s.relink heap r w s.qused f) ∧
      Queue (s.relink heap r w s.qused f) front back' ∧ f ≤ s.qHwm ∧
      contents (front ++ back') = contents (front ++ back) := by
  have hbound := hl.bound
  have hmark := hl.mark
  have hsize := hl.size
  have hadd : add s.qfree c.freesize = s.qfree + s.blksize := by
    rw [hsized.freesize_blank hblank]
    exact add_of_lt (by omega)
  rw [Stream.recycle, hadd, hsized.maxsize_eq, hsized.freesize_blank hblank]
  split_ifs with htest
  · exact ⟨_, s.readblk, s.writeblk, s.qfree, back, rfl,
      ⟨h.linked.put_outside ha, h.shape, h.used, h.free⟩, hfree, rfl⟩
  · obtain ⟨heap, r, w, back', henq, hqueue, hcontents⟩ :=
      h.enqueue ha hheap hsized hblank hpos (by omega)
    exact ⟨heap, r, w, s.qfree + s.blksize, back', henq, hqueue, by omega, hcontents⟩

theorem first (h : Queue s front back) (hq : 0 < s.qused) :
    (∃ x front', front = x :: front') ∨
      front = [] ∧ ∃ x back', back = x :: back' ∧ 0 < x.2.cursize := by
  cases front with
  | cons x front => exact Or.inl ⟨x, front, rfl⟩
  | nil =>
    refine Or.inr ⟨rfl, ?_⟩
    have hused := h.used
    have hsh := h.shape
    rw [nil_append] at hused
    cases back with
    | nil =>
      rw [hused] at hq
      exact absurd hq (lt_irrefl 0)
    | cons x back =>
      refine ⟨x, back, rfl, (hsh.head x rfl).resolve_right fun hblank => ?_⟩
      have hzero : Io.used (x :: back) = 0 := by
        apply used_of_blank hsh.sized
        intro y hy
        rcases mem_cons.mp hy with rfl | hy
        · exact hblank.2
        · exact hsh.rest y hy
      omega

end Queue

namespace Stream

variable {s : Stream} {a : Addr} {b : Block} {n resid : ℕ} {buf : List UInt8}

theorem readLoop_zero (n : ℕ) (s : Stream) (buf : List UInt8) :
    readLoop n s 0 buf = .ok (.success, s, buf) := by
  cases n <;> rfl

theorem readLoop_part (n : ℕ) (buf : List UInt8) (hr : s.readblk = some a) (hb : s.heap a = some b) {k : ℕ}
    (hsized : b.Sized k) (hpos : 0 < resid) (hlt : resid < b.cursize) :
    readLoop (n + 1) s resid buf = .ok (.success,
      s.relink (put s.heap a (b.advance resid)) s.readblk s.writeblk (sub s.qused resid)
        s.qfree, buf ++ b.read resid) := by
  have hmin : min resid b.cursize = resid := min_eq_left hlt.le
  have hfull : ¬(b.advance resid).Empty := by
    rw [hsized.empty_advance_iff hlt.le]
    exact hlt.ne
  rw [readLoop]
  · simp only [hr, load_some hb, Outcome.ok_bind, hmin, if_neg hfull, Nat.sub_self,
      readLoop_zero, relink]
  · exact hpos.ne'

theorem readLoop_whole (n : ℕ) (buf : List UInt8) (hr : s.readblk = some a) (hb : s.heap a = some b) {k : ℕ}
    (hsized : b.Sized k) (hpos : 0 < resid) (hle : b.cursize ≤ resid) {s' : Stream} {d : Block}
    (hdeq : deqRblks { s with heap := put s.heap a (b.advance b.cursize) } a a b.cursize = .ok s')
    (hd : s'.heap a = some d) :
    readLoop (n + 1) s resid buf =
      (({ s' with heap := put s'.heap a d.clear } : Stream).recycle a d.clear >>= fun s =>
        readLoop n s (resid - b.cursize) (buf ++ b.contents)) := by
  have hmin : min resid b.cursize = b.cursize := min_eq_right hle
  have hempty : (b.advance b.cursize).Empty := (hsized.empty_advance_iff (le_refl _)).mpr rfl
  simp only [hr] at hdeq
  rw [readLoop]
  · simp only [hr, load_some hb, Outcome.ok_bind, hmin, if_pos hempty, hdeq, load_some hd]
    rfl
  · exact hpos.ne'

end Stream

namespace Queue

variable {s : Stream} {front back : List Cell} {x : Cell}

theorem dequeue_front (h : Queue s (x :: front) back) (hused : s.qused < 2 ^ 32) :
    ∃ s' d, deqRblks { s with heap := put s.heap x.1 (x.2.advance x.2.cursize) }
        x.1 x.1 x.2.cursize = .ok s' ∧ s'.heap x.1 = some d ∧ d.Sized s.blksize ∧
      ∃ r w, s' = s.relink s'.heap r w (s.qused - x.2.cursize) s.qfree ∧
        Queue { s' with heap := put s'.heap x.1 d.clear } front back := by
  have hsized : x.2.Sized s.blksize := h.shape.sized x (by simp)
  obtain ⟨hlinked, hr, -, hx⟩ := h.linked.pop_front
  have hw : s.writeblk ≠ some x.1 := by
    intro hw
    cases back with
    | nil => exact absurd (h.shape.held rfl) (by simp)
    | cons y back =>
      have hy : y.1 = x.1 := Option.some.inj (h.linked.onward.1.symm.trans hw)
      simp [hy] at hx
  have hcount := h.used
  rw [cons_append, used_cons] at hcount
  have hsub : sub s.qused x.2.cursize = s.qused - x.2.cursize :=
    sub_of_le (by omega) hused
  have hdeq := deqRblks_front (s := { s with heap := put s.heap x.1 (x.2.advance x.2.cursize) })
    x.2.cursize hr hw (put_self _ _ _)
  simp only [relink, put_put, hsub] at hdeq
  refine ⟨_, _, hdeq, put_self _ _ _, (hsized.advance (le_refl _)).link none, _, _, rfl, ?_⟩
  refine ⟨?_, h.shape.pop_front, ?_, h.free⟩
  · simp only [put_put]
    exact hlinked.put_outside hx
  · exact Nat.sub_eq_of_eq_add (by rw [hcount, Nat.add_comm])

theorem dequeue_back (h : Queue s [] (x :: back)) (hused : s.qused < 2 ^ 32)
    (hfree : s.qfree < 2 ^ 32) :
    ∃ s' d, deqRblks { s with heap := put s.heap x.1 (x.2.advance x.2.cursize) }
        x.1 x.1 x.2.cursize = .ok s' ∧ s'.heap x.1 = some d ∧ d.Sized s.blksize ∧
      ∃ r w, s' = s.relink s'.heap r w (s.qused - x.2.cursize) (s.qfree - x.2.freesize) ∧
        Queue { s' with heap := put s'.heap x.1 d.clear } [] back := by
  have hsized : x.2.Sized s.blksize := h.shape.sized x (by simp)
  obtain ⟨hlinked, hr, hw, -, hx⟩ := h.linked.pop_back
  have hcount := h.used
  have hroom := h.free
  rw [nil_append, used_cons] at hcount
  rw [room_cons] at hroom
  have hsub : sub s.qused x.2.cursize = s.qused - x.2.cursize :=
    sub_of_le (by omega) hused
  have hsub' : sub s.qfree (x.2.advance x.2.cursize).freesize = s.qfree - x.2.freesize :=
    sub_of_le (by rw [hroom]; exact Nat.le_add_right _ _) hfree
  have hdeq := deqRblks_back (s := { s with heap := put s.heap x.1 (x.2.advance x.2.cursize) })
    x.2.cursize hr hw (put_self _ _ _)
  simp only [relink, put_put, hsub, hsub'] at hdeq
  refine ⟨_, _, hdeq, put_self _ _ _, (hsized.advance (le_refl _)).link none, _, _, rfl, ?_⟩
  refine ⟨?_, h.shape.pop_back, ?_, ?_⟩
  · simp only [put_put]
    exact hlinked.put_outside hx
  · exact Nat.sub_eq_of_eq_add (by rw [hcount, Nat.add_comm]; rfl)
  · exact Nat.sub_eq_of_eq_add (by rw [hroom, Nat.add_comm])

theorem read_part {resid : ℕ} (h : Queue s (x :: front) back)
    (hlt : resid < x.2.cursize) (hused : s.qused < 2 ^ 32) :
    Queue (s.relink (put s.heap x.1 (x.2.advance resid)) s.readblk s.writeblk
      (sub s.qused resid) s.qfree) ((x.1, x.2.advance resid) :: front) back := by
  have hsized : x.2.Sized s.blksize := h.shape.sized x (by simp)
  have hcur := hsized.cursize_advance hlt.le
  have hcount := h.used
  rw [cons_append, used_cons] at hcount
  refine ⟨h.linked.replace_front rfl, h.shape.replace_front (hsized.advance hlt.le) (by omega),
    ?_, h.free⟩
  have hsub : sub s.qused resid = s.qused - resid := sub_of_le (by omega) hused
  simp only [relink, cons_append, used_cons, hcur, hsub]
  omega

theorem read_part_back {resid : ℕ} (h : Queue s [] (x :: back))
    (hlt : resid < x.2.cursize) (hused : s.qused < 2 ^ 32) :
    Queue (s.relink (put s.heap x.1 (x.2.advance resid)) s.readblk s.writeblk
      (sub s.qused resid) s.qfree) [] ((x.1, x.2.advance resid) :: back) := by
  have hsized : x.2.Sized s.blksize := h.shape.sized x (by simp)
  have hcur := hsized.cursize_advance hlt.le
  have hcount := h.used
  have hroom := h.free
  rw [nil_append, used_cons] at hcount
  refine ⟨h.linked.replace_back rfl, h.shape.replace_back (hsized.advance hlt.le) (by omega),
    ?_, hroom⟩
  have hsub : sub s.qused resid = s.qused - resid := sub_of_le (by omega) hused
  simp only [relink, nil_append, used_cons, hcur, hsub]
  omega

structure Leads (s : Stream) (x : Cell) (rest : List UInt8) : Prop where
  start : s.readblk = some x.1
  heap : s.heap x.1 = some x.2
  sized : x.2.Sized s.blksize
  positive : 0 < x.2.cursize
  whole : ∃ s' d, deqRblks { s with heap := put s.heap x.1 (x.2.advance x.2.cursize) }
        x.1 x.1 x.2.cursize = .ok s' ∧ s'.heap x.1 = some d ∧ d.Sized s.blksize ∧
      ∃ r w f front back, s' = s.relink s'.heap r w (s.qused - x.2.cursize) f ∧ f ≤ s.qfree ∧
        Queue { s' with heap := put s'.heap x.1 d.clear } front back ∧
        x.1 ∉ keys (front ++ back) ∧ contents (front ++ back) = rest
  part : ∀ resid < x.2.cursize, ∃ front back,
    Queue (s.relink (put s.heap x.1 (x.2.advance resid)) s.readblk s.writeblk
      (sub s.qused resid) s.qfree) front back ∧
    contents (front ++ back) = (x.2.advance resid).contents ++ rest

theorem leads (h : Queue s front back) (hq : 0 < s.qused) (hused : s.qused < 2 ^ 32)
    (hfree : s.qfree < 2 ^ 32) :
    ∃ x rest, Leads s x rest ∧ contents (front ++ back) = x.2.contents ++ rest := by
  rcases h.first hq with ⟨x, front, rfl⟩ | ⟨rfl, x, back, rfl, hpos⟩
  · obtain ⟨hlinked, hr, hx, hnot⟩ := h.linked.pop_front
    refine ⟨x, contents (front ++ back), ⟨hr, hx, h.shape.sized x (by simp),
      h.shape.full x (by simp), ?_, fun resid hlt => ⟨_, _, h.read_part hlt hused, rfl⟩⟩, rfl⟩
    obtain ⟨s', d, hdeq, hd, hsized, r, w, hs', hqueue⟩ := h.dequeue_front hused
    exact ⟨s', d, hdeq, hd, hsized, r, w, s.qfree, front, back, hs', le_refl _, hqueue, hnot, rfl⟩
  · obtain ⟨hlinked, hr, hw, hx, hnot⟩ := h.linked.pop_back
    refine ⟨x, contents back, ⟨hr, hx, h.shape.sized x (by simp), hpos, ?_,
      fun resid hlt => ⟨_, _, h.read_part_back hlt hused, rfl⟩⟩, rfl⟩
    obtain ⟨s', d, hdeq, hd, hsized, r, w, hs', hqueue⟩ := h.dequeue_back hused hfree
    exact ⟨s', d, hdeq, hd, hsized, r, w, s.qfree - x.2.freesize, [], back, hs',
      Nat.sub_le _ _, hqueue, hnot, rfl⟩

theorem read_loop (n : ℕ) {resid : ℕ} (buf : List UInt8)
    (h : Queue s front back) (hl : Limits s) (hfree : s.qfree ≤ s.qHwm)
    (hused : s.qused < 2 ^ 32) (hn : resid ≤ n) (hr : resid ≤ s.qused) :
    ∃ heap r w f front' back', readLoop n s resid buf = .ok (.success,
        s.relink heap r w (s.qused - resid) f, buf ++ (contents (front ++ back)).take resid) ∧
      Queue (s.relink heap r w (s.qused - resid) f) front' back' ∧ f ≤ s.qHwm ∧
      contents (front' ++ back') = (contents (front ++ back)).drop resid := by
  induction n generalizing s front back resid buf with
  | zero =>
    obtain rfl : resid = 0 := by omega
    refine ⟨s.heap, s.readblk, s.writeblk, s.qfree, front, back, ?_, h, hfree, rfl⟩
    rw [readLoop_zero, take_zero, append_nil]
    rfl
  | succ n ih =>
    rcases Nat.eq_zero_or_pos resid with rfl | hpos
    · refine ⟨s.heap, s.readblk, s.writeblk, s.qfree, front, back, ?_, h, hfree, rfl⟩
      rw [readLoop_zero, take_zero, append_nil]
      rfl
    have hmark := hl.mark
    have hbound := hl.bound
    obtain ⟨x, rest, hx, hcontents⟩ := h.leads (by omega) hused (by omega)
    have hlen : x.2.contents.length = x.2.cursize := x.2.contents_length
    rcases Nat.lt_or_ge resid x.2.cursize with hlt | hge
    · obtain ⟨front', back', hqueue, hc⟩ := hx.part resid hlt
      have hpart := readLoop_part n buf hx.start hx.heap hx.sized hpos hlt
      have hsub : sub s.qused resid = s.qused - resid := sub_of_le hr hused
      have hsplit := hx.sized.contents_advance hlt.le
      have hread : (x.2.read resid).length = resid := bytes_length _ _ _
      rw [hsub] at hpart hqueue
      refine ⟨_, _, _, _, front', back', ?_, hqueue, hfree, ?_⟩
      · rw [hpart, hcontents, hsplit, append_assoc, take_left' hread]
      · rw [hc, hcontents, hsplit, append_assoc, drop_left' hread]
    · obtain ⟨s', d, hdeq, hd, hd', r, w, f, front₁, back₁, hs', hf, hqueue, hnot, hrest⟩ := hx.whole
      have hwhole := readLoop_whole n buf hx.start hx.heap hx.sized hpos hge hdeq hd
      have hl' : Limits { s' with heap := put s'.heap x.1 d.clear } := by
        rw [hs']
        exact ⟨hl.size, hl.mark, hl.bound⟩
      have hsize : s'.blksize = s.blksize := by rw [hs']; rfl
      have hused' : s'.qused = s.qused - x.2.cursize := by rw [hs']; rfl
      have hfree' : s'.qfree ≤ s'.qHwm := by
        rw [hs']
        exact hf.trans hfree
      obtain ⟨heap₂, r₂, w₂, f₂, back₂, hrec, hqueue₂, hf₂, hc₂⟩ := hqueue.recycle hl' hnot
        (put_self _ _ _) (hsize ▸ hd'.clear) d.clear_blank (hsize ▸ h.positive (by omega)) hfree'
      rw [hrec, Outcome.ok_bind] at hwhole
      obtain ⟨heap, r', w', f', front', back', hloop, hqueue', hf', hc'⟩ :=
        ih _ hqueue₂ (hl'.relink _ _ _ _ _) hf₂
          (show s'.qused < 2 ^ 32 by omega) (show resid - x.2.cursize ≤ n by have := hx.positive; omega)
          (show resid - x.2.cursize ≤ s'.qused by omega)
      have hfinal : relink (relink { s' with heap := put s'.heap x.1 d.clear }
          heap₂ r₂ w₂ s'.qused f₂) heap r' w' (s'.qused - (resid - x.2.cursize)) f' =
          s.relink heap r' w' (s.qused - resid) f' := by
        rw [hused', Nat.sub_sub, Nat.add_sub_cancel' hge, hs']
        rfl
      have hf'' : f' ≤ s.qHwm := by
        have hm : s'.qHwm = s.qHwm := by rw [hs']; rfl
        exact hm ▸ hf'
      rw [hc₂, hrest] at hc' hloop
      refine ⟨heap, r', w', f', front', back', ?_, hfinal ▸ hqueue', hf'', ?_⟩
      · rw [hwhole, hcontents, take_append, hlen,
          take_of_length_le (hlen.le.trans hge), ← append_assoc]
        exact hfinal ▸ hloop
      · rw [hc', hcontents, drop_append, hlen, drop_of_length_le (hlen.le.trans hge), nil_append]

end Queue

end MachUS.Io
