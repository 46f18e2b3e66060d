import MachUS.Io.PutBytes

namespace MachUS.Io

open Memory Chain List Stream Block

def freeBehind (back l : List Cell) : ℕ :=
  match (solid l).getLast? with
  | none => room back % 2 ^ 32
  | some e => (e.2.freesize + room back.tail) % 2 ^ 32

def Ordered (l : List Cell) : Prop := l.Pairwise fun x y => x.2.cursize = 0 → y.2.cursize = 0

structure Clean (back : List Cell) (malloc : Option (Addr × Mem)) (k : ℕ) (l : List Cell) :
    Prop where
  ordered : Ordered (passed k l)
  enough : used (passed k l) < k → remaining k l = [] → ∀ x ∈ passed k l, 0 < x.2.cursize
  supplied : used (passed k l) < k → remaining k l ≠ [] →
    freeBehind back (passed k l) < k - used (passed k l) → malloc = none → passed k l = []

structure Chained (heap : Heap) (p : Option Addr) (l : List Cell) : Prop where
  along : Along next heap p l none
  sized : ∀ x ∈ l, ∃ n, x.2.Sized n
  word : ∀ a ∈ keys l, a < 2 ^ 32

def Taken.moved (mode : UInt32) (ret : Taken) : ℕ := if mode &&& iomProbe = 0 then ret.count else 0

structure Appended (heap : Heap) (blk : Option Addr) (q q' l l' : List Cell) (k : ℕ) : Prop where
  chain : Along next heap blk l' none
  apart : (keys (q' ++ l')).Nodup
  short : k ≤ used l
  bytes : contents q' = contents q ++ (contents l).take k
  rest : contents l' = (contents l).drop k

inductive Takes (s : Stream) (q l : List Cell) (blk : Option Addr) (mode : UInt32) :
    Except Fault Putting → Prop where
  | wait : Takes s q l blk mode (.ok .waits)
  | success {ret : Taken} {t : Stream} {front back l' : List Cell} (hcode : ret.code = .success)
      (held : Held t front back)
      (appended : Appended t.heap ret.blk q (front ++ back) l l' (ret.moved mode)) :
      Takes s q l blk mode (.ok (.returns ret t))
  | error {ret : Taken} {t : Stream} (hcode : ret.code ≠ .success) (hblk : ret.blk = blk)
      (same : { t with alarms := s.alarms } = s) : Takes s q l blk mode (.ok (.returns ret t))

theorem Chained.length_le {heap : Heap} {p : Option Addr} {l : List Cell}
    (h : Chained heap p l) : l.length ≤ 2 ^ 32 := by
  have hsub : keys l ⊆ range (2 ^ 32) := fun a ha => mem_range.mpr (h.word a ha)
  have hlen := (subperm_of_subset h.along.nodup hsub).length_le
  rw [length_range, Chain.keys, length_map] at hlen
  exact hlen

theorem contents_solid (l : List Cell) : contents (solid l) = contents l := by
  induction l with
  | nil => rfl
  | cons x l ih =>
    rw [solid_cons]
    split_ifs with hpos
    · rw [contents_cons, contents_cons, ih]
    · have hnil : x.2.contents = [] :=
        eq_nil_of_length_eq_zero (x.2.contents_length.trans (by omega))
      rw [contents_cons, ih, hnil, nil_append]

theorem used_solid (l : List Cell) : used (solid l) = used l := by
  rw [← contents_length, contents_solid, contents_length]

theorem Ordered.split {l : List Cell} (h : Ordered l) :
    ∃ empties, l = solid l ++ empties ∧ ∀ x ∈ empties, x.2.cursize = 0 := by
  induction l with
  | nil => exact ⟨[], rfl, by simp⟩
  | cons x l ih =>
    obtain ⟨hx, hl⟩ := pairwise_cons.mp h
    rw [solid_cons]
    split_ifs with hpos
    · obtain ⟨empties, hsplit, hempty⟩ := ih hl
      exact ⟨empties, congrArg (x :: ·) hsplit, hempty⟩
    · have hzero : x.2.cursize = 0 := by omega
      have hall : ∀ y ∈ x :: l, y.2.cursize = 0 := forall_mem_cons.mpr
        ⟨hzero, fun y hy => hx y hy hzero⟩
      refine ⟨x :: l, ?_, hall⟩
      have hnil : solid l = [] := by
        rw [solid, filter_eq_nil_iff]
        intro y hy
        simp [hx y hy hzero]
      rw [hnil, nil_append]

namespace Held

variable {s : Stream} {front back : List Cell}

theorem enqComplete (h : Held s front back) {p q : Option Addr} {l : List Cell}
    (hchain : Along next s.heap p (solid l) q)
    (hsep : (keys (front ++ back ++ solid l)).Nodup) (hsized : ∀ x ∈ solid l, ∃ n, x.2.Sized n)
    (hword : s.qused + Io.used l < 2 ^ 32) :
    ∃ heap r w front' back', s.enqComplete p ((solid l).getLast?.map Prod.fst) (Io.used l) =
        .ok (s.relink heap r w (s.qused + Io.used l) (freeBehind back l)) ∧
      Held (s.relink heap r w (s.qused + Io.used l) (freeBehind back l)) front' back' ∧
      (keys (front' ++ back')).Perm (keys (front ++ back ++ solid l)) ∧
      contents (front' ++ back') = contents (front ++ back) ++ contents (solid l) ∧
      ∀ a ∉ keys (front ++ back ++ solid l), heap a = s.heap a := by
  rcases eq_nil_or_concat (solid l) with hnil | ⟨ns, e, hlast⟩
  · have hzero : Io.used l = 0 := by rw [← used_solid, hnil, used_nil]
    have hbehind : freeBehind back l = s.qfree := by
      rw [freeBehind, hnil]
      exact h.free.symm
    rw [hnil, hzero, hbehind]
    exact ⟨s.heap, s.readblk, s.writeblk, front, back, rfl, h, by simp, by simp, fun _ _ => rfl⟩
  · rw [concat_eq_append] at hlast
    have hused := used_solid l
    have hbehind : freeBehind back l = (e.2.freesize + room back.tail) % 2 ^ 32 := by
      rw [freeBehind, hlast, getLast?_concat]
    rw [hlast] at hchain hsep hsized hused ⊢
    obtain ⟨front', hperm, hbytes, hheld⟩ := h.enqRblks hchain hsep hsized (hused ▸ hword)
    obtain ⟨c, -, he⟩ := hchain.split
    have hnot : e.1 ∉ keys (front ++ back) := by
      rw [Chain.keys_append, nodup_append] at hsep
      exact fun hmem => hsep.2.2 _ hmem e.1 (by simp) rfl
    have henq := h.enqRblks_eq p he.2.1 hnot (Io.used l)
    have hadd : Word.add s.qused (Io.used l) = s.qused + Io.used l := Word.add_of_lt hword
    rw [hadd, ← hbehind] at henq
    rw [hused, ← hbehind] at hheld
    refine ⟨_, _, _, front', _, ?_, hheld, hperm, hbytes, fun a ha => ?_⟩
    · rw [getLast?_concat]
      exact henq
    · rw [Chain.keys_append, mem_append, not_or, Chain.keys_append, mem_append, not_or] at ha
      refine spliced_outside p ?_ ha.1.2
      rintro rfl
      simp at ha

theorem of_heap (h : Held s front back) {heap : Heap}
    (hheap : ∀ a ∈ keys (front ++ back), heap a = s.heap a) :
    Held { s with heap := heap } front back := by
  rw [Chain.keys_append] at hheap
  exact ⟨⟨h.linked.upTo.congr fun a ha => hheap a (mem_append_left _ ha),
    h.linked.onward.congr fun a ha => hheap a (mem_append_right _ ha), h.linked.distinct⟩,
    h.held, h.sized, h.spare, h.used, h.word, h.free⟩

end Held

theorem Swept.outside {heap heap' : Heap} {l full empties : List Cell} (h : Swept heap heap' l)
    (hl : l = full ++ empties) (hfull : ∀ x ∈ full, 0 < x.2.cursize) {a : Addr}
    (ha : a ∉ keys empties) : heap' a = heap a := by
  refine h.kept a fun x hx hzero => ?_
  rintro rfl
  rw [hl] at hx
  rcases mem_append.mp hx with hx | hx
  · have := hfull x hx
    omega
  · exact ha (mem_map_of_mem hx)

theorem solid_pos (l : List Cell) : ∀ x ∈ solid l, 0 < x.2.cursize := by
  intro x hx
  simpa [solid] using (mem_filter.mp hx).2

theorem head_of_along {heap : Heap} {p : Option Addr} {l : List Cell}
    (h : Along next heap p l none) : l.head?.map Prod.fst = p := by
  cases l with
  | nil => exact h.symm
  | cons x l => exact h.1.symm
namespace Swept

variable {s : Stream} {front back l rest : List Cell} {p : Option Addr} {k : ℕ} {heap : Heap}

section

variable (hswept : Swept s.heap heap (passed k l))

include hswept

theorem held (h : Held s front back)
    (hsplit : l = passed k l ++ rest) (hapart : (keys (front ++ back ++ l)).Nodup) :
    Held { s with heap := heap } front back := by
  refine h.of_heap fun a ha => hswept.kept a fun x hx _ => ?_
  rintro rfl
  rw [Chain.keys_append, nodup_append] at hapart
  refine hapart.2.2 _ ha x.1 ?_ rfl
  rw [hsplit]
  exact mem_map_of_mem (mem_append_left _ hx)

theorem solid_eq (hc : Chained s.heap p l)
    (hsplit : l = passed k l ++ rest) {y : Cell} (hy : y ∈ passed k l) (hpos : 0 < y.2.cursize) :
    heap y.1 = some y.2 := by
  have hmem : ∀ z ∈ passed k l, z ∈ l := fun z hz => by
    rw [hsplit]
    exact mem_append_left _ hz
  have hheap := hc.along.heap_eq
  rw [hswept.kept y.1 fun x hx hzero heq => ?_]
  · exact hheap y (hmem y hy)
  · have hsame := hheap x (hmem x hx)
    rw [heq, hheap y (hmem y hy)] at hsame
    rw [Option.some.inj hsame] at hpos
    omega

theorem fresh (hc : Chained s.heap p l) (hsplit : l = passed k l ++ rest) {a : Addr}
    (ha : s.heap a = none ∨ ∃ x ∈ passed k l, x.2.cursize = 0 ∧ x.1 = a) : heap a = none := by
  rcases ha with ha | ⟨x, hx, hzero, rfl⟩
  · rw [hswept.kept a fun x hx _ => ?_]
    · exact ha
    · rintro rfl
      have hmem : x ∈ l := by
        rw [hsplit]
        exact mem_append_left _ hx
      rw [hc.along.heap_eq x hmem] at ha
      cases ha
  · exact hswept.freed x hx hzero

theorem changed (hc : Chained s.heap p l)
    (hsplit : l = passed k l ++ rest) {x : Cell} (hx : x ∈ passed k l) (hzero : x.2.cursize = 0) :
    heap ≠ s.heap := by
  intro hsame
  have hmem : x ∈ l := by
    rw [hsplit]
    exact mem_append_left _ hx
  have hnone := hswept.freed x hx hzero
  rw [hsame, hc.along.heap_eq x hmem] at hnone
  cases hnone

end

end Swept

namespace Stream

variable {s : Stream} {p : Option Addr} {mode : UInt32} {num k : ℕ}

theorem putReady_eq (hq : s.qused ≤ s.qmax) (hbound : s.qmax < 2 ^ 30)
    (hprobe : mode &&& iomProbe = 0) (hk : min num (s.qmax - s.qused) = k) {heap : Heap}
    {resid : ℕ} {lastblk prevblk : Option Addr}
    (hscan : scanBlocks (2 ^ 32) s.heap k p none = .ok (heap, resid, lastblk, prevblk))
    (malloc : Malloc) :
    s.putReady malloc mode p num =
      putScanned { s with heap := heap } malloc p k resid lastblk prevblk := by
  have hsub : Word.sub s.qmax s.qused = s.qmax - s.qused := Word.sub_of_le hq (by omega)
  simp only [putReady, hprobe, ne_eq, not_true_eq_false, if_false, hsub, hk, hscan, Outcome.ok_bind]

theorem putScanned_short (s : Stream) (malloc : Malloc) (k : ℕ) {resid : ℕ} (hresid : 0 < resid)
    (prevblk : Option Addr) : s.putScanned malloc p k resid none prevblk =
      .ok (.returns ⟨.notEnoughData, k, some s.writeOffset, p⟩ s) := by
  simp only [putScanned, if_pos hresid]
  rfl

theorem putScanned_excess (s : Stream) (malloc : Malloc) (k : ℕ) {resid : ℕ} (hresid : 0 < resid)
    (lastblk : Addr) (prevblk : Option Addr) :
    s.putScanned malloc p k resid (some lastblk) prevblk =
      s.enqComplete p prevblk (k - resid) >>= fun t =>
        t.putExcess malloc k resid s.writeOffset lastblk := by
  simp only [putScanned, if_pos hresid]

theorem putScanned_whole (s : Stream) (malloc : Malloc) (k : ℕ) (lastblk prevblk : Option Addr) :
    s.putScanned malloc p k 0 lastblk prevblk =
      s.enqComplete p prevblk k >>= fun t =>
        .ok (t.putFinish .success k s.writeOffset lastblk) := by
  rfl

theorem putExcess_none (s : Stream) {resid : ℕ} (hle : resid ≤ s.blksize)
    (hblk : s.blksize < 2 ^ 30) (hshort : s.qfree < resid) (count : ℕ) (offset : Dlong)
    (lastblk : Addr) : s.putExcess (fun _ => none) count resid offset lastblk =
      .ok ((s.usInternalError .allocBlock).putFinish .internalError (count - resid) offset
        (some lastblk)) := by
  have hmore : s.putBlocks (fun _ => none) resid =
      .ok (.internalError, s.usInternalError .allocBlock) := by
    rw [putBlocks, if_pos hshort, getMoreBlocks_one _ (by omega) (by omega) hblk]
    rfl
  rw [putExcess, hmore, Outcome.ok_bind]
  rfl

end Stream

namespace Held

variable {s : Stream} {front back l : List Cell} {p : Option Addr}
  {malloc : Option (Addr × Mem)} {mode : UInt32} {num k : ℕ}

theorem scan_enqueue (h : Held s front back) (hc : Chained s.heap p l)
    (hapart : (keys (front ++ back ++ l)).Nodup) (hord : Ordered (passed k l))
    (hword : s.qused + k < 2 ^ 32) :
    ∃ heap rest heap₁ r w front' back', l = passed k l ++ rest ∧
      Swept s.heap heap (passed k l) ∧
      scanBlocks (2 ^ 32) s.heap k p none = .ok (heap, k - Io.used (passed k l),
        rest.head?.map Prod.fst, (solid (passed k l)).getLast?.map Prod.fst) ∧
      Stream.enqComplete { s with heap := heap } p ((solid (passed k l)).getLast?.map Prod.fst)
        (Io.used (passed k l)) = .ok (s.relink heap₁ r w (s.qused + Io.used (passed k l))
          (freeBehind back (passed k l))) ∧
      Held (s.relink heap₁ r w (s.qused + Io.used (passed k l)) (freeBehind back (passed k l)))
        front' back' ∧
      Along next heap₁ (rest.head?.map Prod.fst) rest none ∧
      (keys (front' ++ back' ++ rest)).Nodup ∧
      contents (front' ++ back') = contents (front ++ back) ++ contents (passed k l) ∧
      ∀ a, s.heap a = none ∨ (∃ x ∈ passed k l, x.2.cursize = 0 ∧ x.1 = a) → heap₁ a = none := by
  obtain ⟨heap, rest, hsplit, hswept, hscan⟩ :=
    scanBlocks_eq k none hc.along hc.length_le
  rw [Option.or_none] at hscan
  obtain ⟨empties, hfull, hempty⟩ := hord.split
  have hle : Io.used (passed k l) ≤ k := by
    obtain ⟨-, -, hle, -⟩ := passed_split k l
    exact hle
  have hsized : ∀ x ∈ solid (passed k l), ∃ n, x.2.Sized n := by
    intro x hx
    apply hc.sized
    rw [hsplit]
    exact mem_append_left _ (mem_of_mem_filter hx)
  have halong := hc.along
  have hnodup : (keys (front ++ back ++ solid (passed k l) ++ rest) ++ keys empties).Nodup := by
    have hperm : (keys (front ++ back ++ l)).Perm
        (keys (front ++ back ++ solid (passed k l) ++ rest) ++ keys empties) := by
      rw [← Chain.keys_append]
      refine Perm.map _ ?_
      conv_lhs => rw [hsplit, hfull]
      simp only [append_assoc]
      exact .append_left _ (.append_left _ (.append_left _ perm_append_comm))
    exact hperm.nodup_iff.mp hapart
  rw [nodup_append] at hnodup
  obtain ⟨hstay, -, hdisjoint⟩ := hnodup
  have hheap : ∀ a ∈ keys (front ++ back ++ solid (passed k l) ++ rest), heap a = s.heap a :=
    fun a ha => hswept.outside hfull (solid_pos _) fun hmem => hdisjoint a ha a hmem rfl
  rw [Chain.keys_append, nodup_append] at hstay
  obtain ⟨hqueue, -, hrest⟩ := hstay
  have hlive : ∀ a ∈ keys (front ++ back ++ solid (passed k l)), heap a = s.heap a := by
    intro a ha
    apply hheap
    rw [Chain.keys_append]
    exact mem_append_left _ ha
  have hmiddle : Along next s.heap p (solid (passed k l) ++ (empties ++ rest)) none := by
    rw [← append_assoc, ← hfull, ← hsplit]
    exact halong
  obtain ⟨c, hfirst, htail⟩ := hmiddle.split
  obtain ⟨d, -, hlast⟩ := htail.split
  have hhead : rest.head?.map Prod.fst = d := head_of_along hlast
  have hheld := hswept.held h hsplit hapart
  have hfirst' : Along next heap p (solid (passed k l)) c := hfirst.congr fun a ha =>
    hlive a (by
      rw [Chain.keys_append]
      exact mem_append_right _ ha)
  obtain ⟨heap₁, r, w, front', back', henq, hheld₁, hperm, hbytes, hframe⟩ :=
    hheld.enqComplete hfirst' hqueue hsized (show s.qused + Io.used (passed k l) < 2 ^ 32 by omega)
  refine ⟨heap, rest, heap₁, r, w, front', back', hsplit, hswept, hscan, henq, hheld₁, ?_, ?_, ?_,
    ?_⟩
  · rw [hhead]
    refine hlast.congr fun a ha => ?_
    rw [hframe a fun hmem => hrest a hmem a ha rfl]
    apply hheap
    rw [Chain.keys_append]
    exact mem_append_right _ ha
  · rw [Chain.keys_append, (hperm.append_right _).nodup_iff, nodup_append]
    refine ⟨hqueue, ?_, hrest⟩
    have hnodup := hlast.nodup
    exact hnodup
  · rw [hbytes, contents_solid]
  · intro a ha
    have hnone := hswept.fresh hc hsplit ha
    rw [hframe a ?_]
    · exact hnone
    · rw [Chain.keys_append, mem_append, not_or]
      exact ⟨hheld.along.fresh hnone, hfirst'.fresh hnone⟩

theorem putReady_takes (h : Held s front back) (hl : Limits s) (hq : s.qused ≤ s.qmax)
    (hc : Chained s.heap p l) (hapart : (keys (front ++ back ++ l)).Nodup)
    (hfresh : ∀ g ∈ malloc, s.heap g.1 = none ∨ ∃ x ∈ passed k l, x.2.cursize = 0 ∧ x.1 = g.1)
    (hprobe : mode &&& iomProbe = 0) (hk : min num (s.qmax - s.qused) = k)
    (hclean : Clean back malloc k l) :
    Takes s (front ++ back) l p mode (s.putReady (fun _ => malloc) mode p num) := by
  have hsize := hl.size
  have hbound := hl.bound
  obtain ⟨heap, rest, heap₁, r, w, front', back', hsplit, hswept, hscan, henq, hheld, hchain,
    hapart', hbytes, hnone⟩ := h.scan_enqueue hc hapart hclean.ordered (by omega)
  have hrest : remaining k l = rest := remaining_eq hsplit
  have hmoved (code : Code) (n : ℕ) (o : Option Dlong) (b : Option Addr) :
      Taken.moved mode ⟨code, n, o, b⟩ = n := if_pos hprobe
  have hbytesl : contents l = contents (passed k l) ++ contents rest := by
    conv_lhs => rw [hsplit, contents_append]
  have hlen := contents_length (passed k l)
  obtain ⟨rest', hsplit', hle, hmore⟩ := passed_split k l
  obtain rfl : rest' = rest := append_cancel_left (hsplit'.symm.trans hsplit)
  rw [putReady_eq hq hbound hprobe hk hscan]
  rcases Nat.eq_zero_or_pos (k - Io.used (passed k l)) with hresid | hresid
  · have hall : Io.used (passed k l) = k := by omega
    rw [hall] at henq hlen hheld
    rw [hresid, putScanned_whole, henq, Outcome.ok_bind]
    have hlen' : k ≤ Io.used l := by
      rw [← contents_length, hbytesl, length_append]
      omega
    refine .success rfl (hheld.writeOffset _) ⟨hchain, hapart', ?_, ?_, ?_⟩
    · exact (hmoved _ _ _ _).trans_le hlen'
    · rw [hmoved, hbytes, hbytesl, take_left' hlen]
    · rw [hmoved, hbytesl, drop_left' hlen]
  cases rest' with
  | nil =>
    have hfull := hclean.enough (by omega) hrest
    have hsame : heap = s.heap := by
      funext a
      refine hswept.kept a fun x hx hzero => ?_
      have := hfull x hx
      omega
    rw [hsame, head?_nil, Option.map_none, putScanned_short _ _ _ hresid]
    exact .error (by simp) rfl rfl
  | cons b rest' =>
    have hb := hmore (by omega) b rfl
    have hneed : k - (k - Io.used (passed k l)) = Io.used (passed k l) := by omega
    simp only [head?_cons, Option.map_some]
    rw [putScanned_excess _ _ _ hresid, hneed]
    by_cases hsupply : freeBehind back (passed k l) < k - Io.used (passed k l) ∧ malloc = none
    · have hpassed := hclean.supplied (by omega) (by rw [hrest]; simp) hsupply.1 hsupply.2
      have hsame : heap = s.heap := by
        funext a
        refine hswept.kept a fun x hx _ => ?_
        rw [hpassed] at hx
        cases hx
      have hhead : p = some b.1 := by
        have halong := hc.along
        rw [hsplit, hpassed] at halong
        exact halong.1
      have hbehind : freeBehind back (passed k l) = s.qfree := by
        rw [hpassed]
        exact h.free.symm
      have hshort : s.qfree < k := by
        have hlt := hsupply.1
        rw [hbehind, hpassed, used_nil] at hlt
        exact hlt
      have hcount : k - k = 0 := Nat.sub_self k
      rw [hsame, hpassed, hsupply.2, used_nil, Nat.sub_zero]
      have hput := putExcess_none s (by omega) (by omega) hshort k s.writeOffset b.1
      rw [hcount, putFinish, Dlong.addLong_zero] at hput
      change Takes s _ l p mode (s.putExcess (fun _ => none) k k s.writeOffset b.1)
      rw [hput]
      exact .error (by simp) hhead.symm rfl
    · have hfresh₁ : ∀ g ∈ malloc, heap₁ g.1 = none := fun g hg => hnone g.1 (hfresh g hg)
      obtain ⟨t, front₂, back₂, hput, hheld₂, hchain₂, hapart₂, hbytes₂⟩ := hheld.putExcess
        ⟨hl.size, hl.mark, hl.bound⟩ hfresh₁ hchain hapart' hresid (show _ ≤ s.blksize by omega)
        (show s.qused + _ + _ < 2 ^ 32 by omega) (fun hlt hnil => hsupply ⟨hlt, hnil⟩) k
        s.writeOffset
      rw [henq, Outcome.ok_bind, hput]
      obtain ⟨n, hsized⟩ := hc.sized b (by rw [hsplit]; simp)
      have hcontents := hsized.contents_advance hb.le
      have hread : (b.2.read (k - Io.used (passed k l))).length = k - Io.used (passed k l) :=
        bytes_length _ _ _
      have hpre : (contents (passed k l) ++ b.2.read (k - Io.used (passed k l))).length = k := by
        rw [length_append]
        omega
      have hfront : contents l = (contents (passed k l) ++ b.2.read (k - Io.used (passed k l))) ++
          contents ((b.1, b.2.advance (k - Io.used (passed k l))) :: rest') := by
        rw [hbytesl, contents_cons, contents_cons, hcontents]
        simp only [append_assoc]
      have hlen' : k ≤ Io.used l := by
        rw [← contents_length, hfront, length_append]
        omega
      refine .success rfl (hheld₂.writeOffset _) ⟨hchain₂, ?_, ?_, ?_, ?_⟩
      · simpa only [Chain.keys_append, Chain.keys_cons] using hapart₂
      · exact (hmoved _ _ _ _).trans_le hlen'
      · rw [hmoved, hbytes₂, hbytes, hfront, take_left' hpre, append_assoc]
      · rw [hmoved, hfront, drop_left' hpre]

end Held

end MachUS.Io
