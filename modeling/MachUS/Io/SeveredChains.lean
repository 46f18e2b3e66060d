import MachUS.Io.ChainAppends

namespace MachUS.Io

open Memory Chain Outcome List Stream Block Option Prod Word

def Short (heap : Heap) (p : Option Addr) (c : Addr) (m : ℕ) : Prop :=
  ∀ l, Along next heap p l none → c ∉ keys l ∧ used l ≤ m

namespace Short

variable {heap : Heap} {p : Option Addr} {c : Addr} {m n : ℕ}

theorem mono (h : Short heap p c m) (hle : m ≤ n) : Short heap p c n :=
  fun l hl => ⟨(h l hl).1, (h l hl).2.trans hle⟩

theorem put (h : Short heap p c m) {a : Addr} {b b' : Block} (hb : heap a = some b)
    (hnext : b'.next = b.next) (hcur : a ≠ c → b'.cursize ≤ b.cursize + n) :
    Short (put heap a b') p c (m + n) := by
  intro l hl
  by_cases ha : a ∈ keys l
  · obtain ⟨y, hy, rfl⟩ := mem_map.mp ha
    obtain ⟨pre, post, rfl⟩ := append_of_mem hy
    have hnodup := hl.nodup
    rw [Chain.keys_append, Chain.keys_cons, nodup_append, nodup_cons] at hnodup
    have hpre : y.1 ∉ keys pre := fun hmem => hnodup.2.2 _ hmem y.1 (by simp) rfl
    obtain ⟨q, hfirst, hrest⟩ := hl.split
    have hyb : b' = y.2 := by
      have hheap := hrest.2.1
      rw [put_self] at hheap
      exact some.inj hheap
    have hold : Along next heap p (pre ++ (y.1, b) :: post) none := by
      refine .append (hfirst.congr fun a ha => ?_) ⟨hrest.1, hb, ?_⟩
      · refine (put_ne b' ?_).symm
        rintro rfl
        exact hpre ha
      · have htail := hrest.2.2
        rw [← hyb, hnext] at htail
        refine htail.congr fun a ha => (put_ne b' ?_).symm
        rintro rfl
        exact hnodup.2.1.1 ha
    obtain ⟨hc, hle⟩ := h _ hold
    have hne : y.1 ≠ c := by
      rintro rfl
      simp at hc
    have hgrow := hcur hne
    refine ⟨by simpa only [Chain.keys_append, Chain.keys_cons] using hc, ?_⟩
    rw [used_append, used_cons] at hle ⊢
    rw [← hyb]
    dsimp only at hle
    omega
  · have hold : Along next heap p l none := by
      refine hl.congr fun d hd => (put_ne _ ?_).symm
      rintro rfl
      exact ha hd
    exact ⟨(h l hold).1, (h l hold).2.trans (Nat.le_add_right m n)⟩

end Short

theorem cursize_append_le (b : Block) (buf : List UInt8) :
    (b.append buf).cursize ≤ b.cursize + buf.length := by
  simp only [cursize, append, sub, add]
  omega

theorem load_eq_ok {heap : Heap} {p : Option Addr} {x : Cell} (h : load heap p = .ok x) :
    p = some x.1 ∧ heap x.1 = some x.2 := by
  cases p with
  | none => cases h
  | some a =>
    cases hheap : heap a with
    | none =>
      rw [load, hheap] at h
      cases h
    | some b =>
      rw [load_some hheap] at h
      cases h
      exact ⟨rfl, hheap⟩

namespace Short

variable {heap : Heap} {p : Option Addr} {c : Addr} {m : ℕ}

theorem copyLoop (n : ℕ) {cur : Option Addr} {buf : List UInt8} (h : Short heap p c m)
    {heap' : Heap} {cur' : Option Addr}
    (hcopy : copyLoop n heap cur buf = .ok (heap', cur')) :
    Short heap' p c (m + buf.length) := by
  induction n generalizing heap cur m buf with
  | zero =>
    cases buf with
    | nil =>
      obtain ⟨rfl, -⟩ := mk.inj (Except.ok.inj hcopy)
      exact h
    | cons d ds => cases hcopy
  | succ n ih =>
    cases buf with
    | nil =>
      obtain ⟨rfl, -⟩ := mk.inj (Except.ok.inj hcopy)
      exact h
    | cons d ds =>
      rw [copyLoop.eq_3 _ _ _ _ (cons_ne_nil d ds), bind_eq_ok] at hcopy
      obtain ⟨x, hload, hcopy⟩ := hcopy
      obtain ⟨rfl, hx⟩ := load_eq_ok hload
      dsimp only at hcopy
      split_ifs at hcopy with hfull
      · exact ih h hcopy
      · have hstep := h.put hx (rfl : (x.2.append _).next = x.2.next) fun _ =>
          cursize_append_le x.2 ((d :: ds).take (min (d :: ds).length x.2.freesize))
        refine (ih hstep hcopy).mono ?_
        rw [Nat.add_assoc, ← length_append, take_append_drop]

theorem copyToBlks {s t : Stream} {buf : List UInt8} (h : Short s.heap s.readblk c m)
    (hcopy : s.copyToBlks buf = .ok t) : Short t.heap t.readblk c (m + buf.length) := by
  simp only [Stream.copyToBlks, bind_eq_ok, pure_eq_ok] at hcopy
  obtain ⟨⟨heap', cur'⟩, hloop, rfl⟩ := hcopy
  exact h.copyLoop _ hloop

theorem putExcess {s : Stream} {malloc : Malloc} {count resid : ℕ} {offset : Dlong} {r : Putting}
    (hblocks : ∀ code u, s.putBlocks malloc resid = .ok (code, u) →
      code = .success ∧ Short u.heap u.readblk c m)
    (hput : s.putExcess malloc count resid offset c = .ok r) :
    ∃ t : Stream, r = t.putFinish .success count offset (some c) ∧
      Short t.heap t.readblk c (m + resid) := by
  rw [Stream.putExcess, bind_eq_ok] at hput
  obtain ⟨⟨code, u⟩, hmore, hput⟩ := hput
  obtain ⟨rfl, hshort⟩ := hblocks code u hmore
  simp only [if_true, bind_eq_ok, pure_eq_ok] at hput
  obtain ⟨x, -, v, hcopy, y, hy, rfl⟩ := hput
  obtain ⟨hc, hheap⟩ := load_eq_ok hy
  cases hc
  have hlen : (x.2.read resid).length = resid := bytes_length _ _ _
  have hcopied := hshort.copyToBlks hcopy
  rw [hlen] at hcopied
  exact ⟨_, rfl, hcopied.put (n := 0) hheap rfl fun hne => absurd rfl hne⟩

end Short

namespace Held

variable {s : Stream} {front back l : List Cell} {p : Option Addr} {a c : Addr} {e : Cell}

theorem used_before (h : Held s front back) (p : Option Addr) :
    Io.used (before p front back) = s.qused := by
  rw [← contents_length, h.contents_before, contents_length, h.used]

structure Severed (s : Stream) (front back : List Cell) (p : Option Addr) (l : List Cell)
    (a : Addr) (e : Cell) : Prop where
  chain : Along next s.heap p l (some a)
  freed : s.heap a = none
  last : s.heap e.1 = some e.2
  apart : (keys (front ++ back ++ l)).Nodup
  outside : e.1 ∉ keys (front ++ back ++ l)

namespace Severed

section

variable (h : Held s front back) (hs : Severed s front back p l a e)

include h hs

theorem spliced_none (ha : s.heap c = none) : spliced s.heap p e back c = none := by
  have hback : c ∉ keys (front ++ back) := h.along.fresh ha
  rw [Chain.keys_append, mem_append, not_or] at hback
  refine (spliced_outside p ?_ hback.2).trans ha
  rintro rfl
  rw [hs.last] at ha
  cases ha

theorem along : Along next (spliced s.heap p e back) (if back = [] then p else s.readblk)
      (before p front back ++ l) (some a) := h.along_before hs.chain hs.outside hs.apart

theorem short (c : Addr) (m : ℕ) :
    Short (spliced s.heap p e back) (if back = [] then p else s.readblk) c m :=
  fun _ hl => absurd hl ((hs.along h).stuck (hs.spliced_none h hs.freed))

theorem short_alloc {g : Addr} {data : Mem} (hg : s.heap g = none) (hblk : s.blksize < 2 ^ 30)
    (hc : c ∉ keys (front ++ back ++ l)) (hcg : c ≠ g) {u f : ℕ} {t : Stream}
    (halloc : allocBlocks (fun _ => some (g, data)) 0 1
      (s.relink (spliced s.heap p e back) (if back = [] then p else s.readblk) (some e.1) u f) =
      .ok (.success, t)) : Short t.heap t.readblk c (s.qused + Io.used l) := by
  have hpath := hs.along h
  have hnone := hs.spliced_none h hg
  have hnot : e.1 ∉ keys (front ++ back) := fun hmem => hs.outside (by
    rw [Chain.keys_append]
    exact mem_append_left _ hmem)
  have hlast : spliced s.heap p e back e.1 = some (behind e back).2 := by
    apply spliced_self
    rw [Chain.keys_append, mem_append, not_or] at hnot
    exact hnot.2
  have hge : e.1 ≠ g := by
    rintro rfl
    rw [hnone] at hlast
    cases hlast
  have htail := h.spare_along p hnot
  have hkeys : keys (before p front back ++ l) ⊆ keys (front ++ back ++ l) := by
    have hbefore := h.keys_before p
    rw [Chain.keys_append] at hbefore
    rw [Chain.keys_append, Chain.keys_append _ l, ← hbefore]
    intro d hd
    rcases mem_append.mp hd with hd | hd
    · exact mem_append_left _ (mem_append_left _ hd)
    · exact mem_append_right _ hd
  obtain ⟨new, hnew⟩ : ∃ b, b = newBlock s.blksize data := ⟨_, rfl⟩
  have hsized : new.Sized s.blksize := hnew ▸ newBlock_sized hblk data
  have hcur : new.cursize = 0 := hsized.cursize_blank (hnew ▸ clear_blank _)
  simp only [allocBlocks, relink, ← hnew] at halloc
  rw [enqWblks_some s.blksize (put_self _ _ _) rfl ((put_ne _ hge).trans hlast) hge,
    ok_bind] at halloc
  obtain ⟨-, rfl⟩ := mk.inj (Except.ok.inj halloc)
  set heap := put (put (put (spliced s.heap p e back) g new) g
    { new with next := (behind e back).2.next }) e.1 { (behind e back).2 with next := some g }
    with hheap
  have hsame : ∀ d, d ≠ e.1 → d ≠ g → heap d = spliced s.heap p e back d := fun d hde hdg =>
    (put_ne _ hde).trans ((put_ne _ hdg).trans (put_ne _ hdg))
  have hpath' : Along next heap (if back = [] then p else s.readblk)
      (before p front back ++ l) (some a) := by
    refine hpath.congr fun d hd => hsame d ?_ ?_
    · rintro rfl
      exact hs.outside (hkeys hd)
    · rintro rfl
      exact hpath.fresh hnone hd
  intro l' hl'
  obtain ⟨tail, rfl, hrest⟩ := hpath'.rest hl'
  cases tail with
  | nil => cases hrest
  | cons y tail =>
    obtain ⟨hy, hnode, hrest⟩ := hrest
    cases hy
    have hya : y.1 ≠ e.1 := by
      intro heq
      rw [← heq, hs.spliced_none h hs.freed] at hlast
      cases hlast
    have hyg : y.1 = g := by
      by_contra hyg
      rw [hsame y.1 hya hyg, hs.spliced_none h hs.freed] at hnode
      cases hnode
    have hynew : { new with next := (behind e back).2.next } = y.2 := by
      rw [hyg, hheap, put_ne _ hge.symm, put_self] at hnode
      exact some.inj hnode
    have htail' : Along next heap y.2.next back.tail none := by
      rw [← hynew]
      refine htail.congr fun d hd => hsame d ?_ ?_
      · rintro rfl
        exact hnot (by
          rw [Chain.keys_append]
          exact mem_append_right _ (map_subset _ (tail_subset back) hd))
      · rintro rfl
        exact htail.fresh hnone hd
    obtain rfl := hrest.unique htail'
    have hspare : Io.used back.tail = 0 := by rw [← contents_length, h.contents_spare]; rfl
    have hycur : y.2.cursize = 0 := hynew ▸ hcur
    refine ⟨?_, ?_⟩
    · rw [Chain.keys_append, mem_append, not_or, Chain.keys_cons, mem_cons, not_or]
      refine ⟨fun hmem => hc (hkeys hmem), hyg ▸ hcg, fun hmem => hc ?_⟩
      rw [Chain.keys_append, mem_append, Chain.keys_append, mem_append]
      exact Or.inl (Or.inr (map_subset _ (tail_subset back) hmem))
    · rw [used_append, used_append, h.used_before, used_cons, hycur, hspare]
      omega

theorem short_blocks
    {malloc : Option (Addr × Mem)} {resid : ℕ} (hle : resid ≤ s.blksize) (hblk : s.blksize < 2 ^ 30)
    (hfresh : ∀ g ∈ malloc, s.heap g.1 = none) (hc : c ∉ keys (front ++ back ++ l))
    (hlive : s.heap c ≠ none) {u f : ℕ} (hsupply : f < resid → malloc ≠ none) {code : Code} {t : Stream}
    (hmore : (s.relink (spliced s.heap p e back) (if back = [] then p else s.readblk) (some e.1)
      u f).putBlocks (fun _ => malloc) resid = .ok (code, t)) :
    code = .success ∧ Short t.heap t.readblk c (s.qused + Io.used l) := by
  generalize hr : (if back = [] then p else s.readblk) = r at hmore
  rw [Stream.putBlocks] at hmore
  split_ifs at hmore with hlt <;> subst hr
  · change f < resid at hlt
    cases malloc with
    | none => exact absurd rfl (hsupply hlt)
    | some g =>
      have hcg : c ≠ g.1 := by
        rintro rfl
        exact hlive (hfresh g rfl)
      rw [getMoreBlocks_one] at hmore
      · have hcode : code = .success := by
          simp only [allocBlocks, bind_eq_ok, pure_eq_ok] at hmore
          obtain ⟨v, -, hmore⟩ := hmore
          exact (mk.inj hmore).1.symm
        rw [hcode] at hmore
        exact ⟨hcode, hs.short_alloc h (hfresh g rfl) hblk hc hcg hmore⟩
      · change 0 < resid - f
        omega
      · change resid - f ≤ s.blksize
        omega
      · exact hblk
  · obtain ⟨rfl, rfl⟩ := mk.inj (Except.ok.inj hmore)
    exact ⟨rfl, hs.short h _ _⟩

end

end Severed

end Held

namespace Takes

variable {s t : Stream} {q l : List Cell} {blk : Option Addr} {mode : UInt32} {ret : Taken}

theorem unchanged (h : Takes s q l blk mode (.ok (.returns ret t))) (hcode : ret.code ≠ .success) :
    t.heap = s.heap ∧ t.qused = s.qused := by
  cases h with
  | success hok => exact absurd hok hcode
  | error _ _ hsame =>
    have hheap := congrArg heap hsame
    have hused := congrArg qused hsame
    exact ⟨hheap, hused⟩

theorem grown (h : Takes s q l blk mode (.ok (.returns ret t))) (hcode : ret.code = .success) :
    ∃ l', Along next t.heap t.readblk l' none ∧ used l' = used q + ret.moved mode := by
  cases h with
  | success _ hheld happ =>
    refine ⟨_, hheld.along, ?_⟩
    have hlen := congrArg length happ.bytes
    have hshort := happ.short
    rw [length_append, length_take, contents_length, contents_length, contents_length] at hlen
    omega
  | error hfail => exact absurd hcode hfail

end Takes

theorem eq_zero_of_used {l : List Cell} (h : used l = 0) : ∀ x ∈ l, x.2.cursize = 0 := by
  induction l with
  | nil => simp
  | cons x l ih =>
    rw [used_cons] at h
    refine forall_mem_cons.mpr ⟨by omega, ih (by omega)⟩

theorem exists_empty_of_not_ordered {l : List Cell} (h : ¬Ordered l) : ∃ pre x post,
    l = pre ++ x :: post ∧ (∀ y ∈ pre, 0 < y.2.cursize) ∧ x.2.cursize = 0 ∧ 0 < used post := by
  induction l with
  | nil => exact absurd Pairwise.nil h
  | cons x l ih =>
    rcases Nat.eq_zero_or_pos x.2.cursize with hzero | hpos
    · refine ⟨[], x, l, rfl, by simp, hzero, Nat.pos_of_ne_zero fun hused => h ?_⟩
      have hall := eq_zero_of_used hused
      exact .cons (fun y hy _ => hall y hy)
        (pairwise_of_forall_mem_list fun y _ z hz _ => hall z hz)
    · have hrest : ¬Ordered l := fun hl => h (.cons (fun y _ hzero => by omega) hl)
      obtain ⟨pre, y, post, rfl, hpre, hy, hpost⟩ := ih hrest
      exact ⟨x :: pre, y, post, rfl, forall_mem_cons.mpr ⟨hpos, hpre⟩, hy, hpost⟩

theorem solid_append (l l' : List Cell) : solid (l ++ l') = solid l ++ solid l' :=
  filter_append _ _

theorem exists_last {l : List Cell} (h : 0 < used l) :
    ∃ e, (solid l).getLast? = some e ∧ e ∈ l ∧ 0 < e.2.cursize := by
  rcases eq_nil_or_concat (solid l) with hnil | ⟨ns, e, hlast⟩
  · rw [← used_solid, hnil, used_nil] at h
    omega
  · rw [concat_eq_append] at hlast
    have hmem : e ∈ solid l := by rw [hlast]; simp
    exact ⟨e, by rw [hlast, getLast?_concat], mem_of_mem_filter hmem, solid_pos l e hmem⟩

namespace Swept

variable {s : Stream} {front back l rest : List Cell} {p : Option Addr} {k : ℕ} {heap : Heap}

section

variable (hswept : Swept s.heap heap (passed k l)) (hc : Chained s.heap p l)
  (hsplit : l = passed k l ++ rest)

include hswept hc hsplit

theorem live : ∀ a ∈ keys rest, heap a ≠ none := by
  intro a ha
  obtain ⟨b, hb, rfl⟩ := mem_map.mp ha
  rw [hswept.kept b.1 fun y hy _ heq => ?_]
  · rw [hc.along.heap_eq b (by rw [hsplit]; exact mem_append_right _ hb)]
    exact some_ne_none _
  · have hnodup := hc.along.nodup
    rw [hsplit, Chain.keys_append, nodup_append] at hnodup
    exact hnodup.2.2 _ (mem_map_of_mem hy) b.1 ha heq

theorem severed (hapart : (keys (front ++ back ++ l)).Nodup)
    (hord : ¬Ordered (passed k l)) : ∃ pre x e, x ∈ passed k l ∧ x.2.cursize = 0 ∧
      used pre < used (passed k l) ∧ (solid (passed k l)).getLast? = some e ∧
      Held.Severed { s with heap := heap } front back p pre x.1 e ∧
      ∀ c ∈ keys rest, c ∉ keys (front ++ back ++ pre) := by
  obtain ⟨pre, x, post, hpassed, hpre, hx, hpost⟩ := exists_empty_of_not_ordered hord
  obtain ⟨e, hlast, he, hfull⟩ := exists_last hpost
  have hmem : ∀ y ∈ pre ++ x :: post, y ∈ passed k l := fun y hy => hpassed ▸ hy
  have hparts : (keys (front ++ back ++ pre)).Nodup ∧ e.1 ∉ keys (front ++ back ++ pre) ∧
      ∀ c ∈ keys rest, c ∉ keys (front ++ back ++ pre) := by
    rw [hsplit, hpassed, ← append_assoc, ← append_assoc, Chain.keys_append,
      nodup_append, Chain.keys_append, nodup_append] at hapart
    obtain ⟨⟨hfirst, -, hbehind⟩, -, hrest⟩ := hapart
    refine ⟨hfirst, fun hmem => ?_, fun c hcr hmem => ?_⟩
    · exact hbehind _ hmem e.1 (mem_map_of_mem (mem_cons_of_mem x he)) rfl
    · exact hrest c (mem_append_left _ hmem) c hcr rfl
  have hchain : Along next heap p pre (some x.1) := by
    have halong := hc.along
    rw [hsplit, hpassed, append_assoc] at halong
    obtain ⟨q, hfirst, hbehind⟩ := halong.split
    obtain rfl : q = some x.1 := hbehind.1
    refine hfirst.congr fun a ha => ?_
    obtain ⟨y, hy, rfl⟩ := mem_map.mp ha
    rw [hswept.solid_eq hc hsplit (hmem y (by simp [hy])) (hpre y hy)]
    exact (hfirst.heap_eq y hy).symm
  refine ⟨pre, x, e, hmem x (by simp), hx, ?_, ?_, ⟨hchain, hswept.freed x (hmem x (by simp)) hx,
    hswept.solid_eq hc hsplit (hmem e (by simp [he])) hfull, hparts.1, hparts.2.1⟩, hparts.2.2⟩
  · rw [hpassed, used_append, used_cons, hx]
    omega
  · rw [hpassed, append_cons, solid_append, getLast?_append, hlast]
    rfl

end

end Swept

namespace Held

variable {s : Stream} {front back l rest : List Cell} {p : Option Addr}
  {malloc : Option (Addr × Mem)} {mode : UInt32} {num k : ℕ} {heap : Heap}

theorem enqComplete_last (h : Held s front back) {e : Cell} (hlast : (solid l).getLast? = some e)
    (he : s.heap e.1 = some e.2) (hnot : e.1 ∉ keys (front ++ back)) (len : ℕ) :
    s.enqComplete p ((solid l).getLast?.map fst) len = .ok (s.relink
      (spliced s.heap p e back) (if back = [] then p else s.readblk) (some e.1)
      (add s.qused len) (freeBehind back l)) := by
  have hbehind : freeBehind back l = (e.2.freesize + room back.tail) % 2 ^ 32 := by
    rw [freeBehind, hlast]
  rw [hlast, hbehind]
  exact h.enqRblks_eq p he hnot len

section Scanned

variable (h : Held s front back) (hl : Limits s) (hq : s.qused ≤ s.qmax) (hc : Chained s.heap p l)
  (hapart : (keys (front ++ back ++ l)).Nodup) (hsplit : l = passed k l ++ rest)
  (hswept : Swept s.heap heap (passed k l)) (hk : k ≤ s.qmax - s.qused)

include h hl hq hc hapart hsplit hswept hk

theorem unsupplied_of_takes {b : Cell} (hresid : 0 < k - Io.used (passed k l))
    (hshort : freeBehind back (passed k l) < k - Io.used (passed k l))
    (ht : Takes s (front ++ back) l p mode (putScanned { s with heap := heap }
      (fun _ => none) p k (k - Io.used (passed k l)) (some b.1)
      ((solid (passed k l)).getLast?.map fst))) : passed k l = [] := by
  have hsize := hl.size
  have hbound := hl.bound
  have hheld := hswept.held h hsplit hapart
  have hneed : k - (k - Io.used (passed k l)) = Io.used (passed k l) := by omega
  rw [putScanned_excess _ _ _ hresid, hneed] at ht
  rcases Nat.eq_zero_or_pos (Io.used (passed k l)) with hzero | hpos
  · have hnil : solid (passed k l) = [] := by
      rw [solid, filter_eq_nil_iff]
      intro y hy
      simp [eq_zero_of_used hzero y hy]
    have hbehind : freeBehind back (passed k l) = s.qfree := by
      rw [freeBehind, hnil]
      exact h.free.symm
    rw [hbehind] at hshort
    rw [hnil] at ht
    change Takes s (front ++ back) l p mode
      (Stream.putExcess { s with heap := heap } (fun _ => none) k _ s.writeOffset b.1) at ht
    rw [Stream.putExcess_none { s with heap := heap } (show _ ≤ s.blksize by omega)
      (show s.blksize < 2 ^ 30 by omega) hshort] at ht
    obtain ⟨hsame, -⟩ := ht.unchanged (by simp)
    by_contra hne
    obtain ⟨x, hx⟩ := exists_mem_of_ne_nil _ hne
    exact hswept.changed hc hsplit hx (eq_zero_of_used hzero x hx) hsame
  · obtain ⟨e, hlast, he, hfull⟩ := exists_last hpos
    have hnot : e.1 ∉ keys (front ++ back) := by
      rw [Chain.keys_append, nodup_append] at hapart
      intro hmem
      refine hapart.2.2 _ hmem e.1 ?_ rfl
      rw [hsplit]
      exact mem_map_of_mem (mem_append_left _ he)
    rw [hheld.enqComplete_last hlast (hswept.solid_eq hc hsplit he hfull) hnot, ok_bind,
      Stream.putExcess_none] at ht
    · obtain ⟨-, hsame⟩ := ht.unchanged (by simp)
      have hadd : add s.qused (Io.used (passed k l)) = s.qused + Io.used (passed k l) :=
        add_of_lt (by omega)
      change add s.qused (Io.used (passed k l)) = s.qused at hsame
      omega
    · change _ ≤ s.blksize
      omega
    · change s.blksize < 2 ^ 30
      omega
    · exact hshort

theorem ordered_of_takes (hle : Io.used (passed k l) ≤ k) (hprobe : mode &&& iomProbe = 0)
    (hfresh : ∀ g ∈ malloc, s.heap g.1 = none ∨ ∃ x ∈ passed k l, x.2.cursize = 0 ∧ x.1 = g.1)
    (ht : Takes s (front ++ back) l p mode (putScanned { s with heap := heap }
      (fun _ => malloc) p k (k - Io.used (passed k l)) (rest.head?.map fst)
      ((solid (passed k l)).getLast?.map fst))) : Ordered (passed k l) := by
  by_contra hord
  obtain ⟨pre, x, e, hx, hzero, hless, hlast, hsevered, hfar⟩ :=
    hswept.severed hc hsplit hapart hord
  have hsize := hl.size
  have hbound := hl.bound
  have hheld := hswept.held h hsplit hapart
  have hnot : e.1 ∉ keys (front ++ back) := fun hmem => hsevered.outside (by
    rw [Chain.keys_append]
    exact mem_append_left _ hmem)
  have hqueue := h.used
  have henq (len : ℕ) := hheld.enqComplete_last (p := p) hlast hsevered.last hnot len
  rcases Nat.eq_zero_or_pos (k - Io.used (passed k l)) with hresid | hresid
  · rw [hresid, putScanned_whole, henq, ok_bind] at ht
    obtain ⟨l', hl', hused⟩ := ht.grown rfl
    have hshort := (hsevered.short hheld e.1 0 l' hl').2
    rw [Taken.moved, if_pos hprobe] at hused
    dsimp only at hused
    omega
  cases rest with
  | nil =>
    rw [head?_nil, map_none, putScanned_short _ _ _ hresid] at ht
    exact hswept.changed hc hsplit hx hzero (ht.unchanged (by simp)).1
  | cons b rest =>
    rw [head?_cons, map_some] at ht
    have hb : b.1 ∈ keys (b :: rest) := by simp
    have hsupply : freeBehind back (passed k l) < k - Io.used (passed k l) → malloc ≠ none := by
      rintro hshort rfl
      have hnil := h.unsupplied_of_takes hl hq hc hapart hsplit hswept hk hresid hshort ht
      rw [hnil] at hx
      cases hx
    have hneed : k - (k - Io.used (passed k l)) = Io.used (passed k l) := by omega
    rw [putScanned_excess _ _ _ hresid, henq, ok_bind, hneed] at ht
    generalize hput : Stream.putExcess _ _ _ _ _ _ = r at ht
    cases r with
    | error fault => cases ht
    | ok r =>
      obtain ⟨t, rfl, hshort⟩ := Short.putExcess (fun _ _ hmore => hsevered.short_blocks hheld
        (show _ ≤ s.blksize by omega) (show s.blksize < 2 ^ 30 by omega)
        (fun g hg => hswept.fresh hc hsplit (hfresh g hg)) (hfar b.1 hb)
        (hswept.live hc hsplit b.1 hb) hsupply hmore) hput
      obtain ⟨l', hl', hused⟩ := ht.grown rfl
      have hle := (hshort l' hl').2
      rw [Taken.moved, if_pos hprobe] at hused
      dsimp only at hused hle
      omega

end Scanned

theorem clean_of_takes (h : Held s front back) (hl : Limits s) (hq : s.qused ≤ s.qmax)
    (hc : Chained s.heap p l) (hapart : (keys (front ++ back ++ l)).Nodup)
    (hfresh : ∀ g ∈ malloc, s.heap g.1 = none ∨ ∃ x ∈ passed k l, x.2.cursize = 0 ∧ x.1 = g.1)
    (hprobe : mode &&& iomProbe = 0) (hk : min num (s.qmax - s.qused) = k)
    (ht : Takes s (front ++ back) l p mode (s.putReady (fun _ => malloc) mode p num)) :
    Clean back malloc k l := by
  obtain ⟨heap, rest, hsplit, hswept, hscan⟩ :=
    scanBlocks_eq k none hc.along hc.length_le
  obtain ⟨-, -, hle, -⟩ := passed_split k l
  have hrest : remaining k l = rest := remaining_eq hsplit
  have hk' : k ≤ s.qmax - s.qused := hk ▸ min_le_right _ _
  rw [putReady_eq hq hl.bound hprobe hk hscan, or_none] at ht
  refine ⟨h.ordered_of_takes hl hq hc hapart hsplit hswept hk' hle hprobe hfresh ht, ?_, ?_⟩
  · intro hshort hnil x hx
    rw [hrest] at hnil
    rw [hnil, head?_nil, map_none, putScanned_short _ _ _ (by omega)] at ht
    by_contra hzero
    exact hswept.changed hc hsplit hx (by omega) (ht.unchanged (by simp)).1
  · intro hshort hne hfree hnone
    rw [hrest] at hne
    obtain ⟨b, rest, rfl⟩ := exists_cons_of_ne_nil hne
    rw [hnone] at ht
    exact h.unsupplied_of_takes hl hq hc hapart hsplit hswept hk' (by omega) hfree ht

section Entries

variable (h : Held s front back) (hl : Limits s) (hq : s.qused ≤ s.qmax) (hc : Chained s.heap p l)
  (hapart : (keys (front ++ back ++ l)).Nodup)

theorem takes_denies (code : Code) (hcode : code ≠ .success) (n : ℕ) :
    Takes s (front ++ back) l p mode (pure (s.putDenies code n p)) := .error hcode rfl rfl

include h hl hq hc hapart

theorem takes_wait_iff (mode : UInt32) (hfresh : ∀ g ∈ malloc, s.heap g.1 = none ∨
      ∃ x ∈ passed (min num (s.qmax - s.qused)) l, x.2.cursize = 0 ∧ x.1 = g.1) :
    Takes s (front ++ back) l p mode (s.putWait (fun _ => malloc) mode p num) ↔
      (minimum mode num ≤ s.qmax - s.qused → mode &&& iomProbe = 0 →
        Clean back malloc (min num (s.qmax - s.qused)) l) := by
  have hbound := hl.bound
  have hsub : sub s.qmax s.qused = s.qmax - s.qused := sub_of_le hq (by omega)
  rw [putWait, hsub]
  split_ifs with hmin hallowed hwait
  · exact iff_of_true (takes_denies _ (by decide) _) fun hle => by omega
  · exact iff_of_true .wait fun hle => by omega
  · exact iff_of_true (takes_denies _ (by decide) _) fun hle => by omega
  · by_cases hprobe : mode &&& iomProbe ≠ 0
    · simp only [putReady, if_pos hprobe, hsub]
      refine iff_of_true (.success rfl h ⟨hc.along, hapart, ?_, ?_, ?_⟩) fun _ hno =>
        absurd hno hprobe
      · exact (if_neg hprobe).trans_le (Nat.zero_le _)
      · rw [Taken.moved, if_neg hprobe, take_zero, append_nil]
      · rw [Taken.moved, if_neg hprobe, drop_zero]
    · have hmove := not_not.mp hprobe
      exact ⟨fun ht _ _ => h.clean_of_takes hl hq hc hapart hfresh hmove rfl ht, fun hclean =>
        h.putReady_takes hl hq hc hapart hfresh hmove rfl (hclean (by omega) hmove)⟩

end Entries

end Held

theorem putbytes_appends_iff {s : Stream} {front back l : List Cell} (h : Held s front back)
    (hl : Limits s) (hq : s.qused ≤ s.qmax) {p : Option Addr} (hc : Chained s.heap p l)
    (hapart : (keys (front ++ back ++ l)).Nodup) {malloc : Option (Addr × Mem)} {num : ℕ}
    (hfresh : ∀ g ∈ malloc, s.heap g.1 = none ∨
      ∃ x ∈ passed (min num (s.qmax - s.qused)) l, x.2.cursize = 0 ∧ x.1 = g.1)
    (mode : UInt32) :
    (Takes s (front ++ back) l p mode (s.ioPutbytesSeq (fun _ => malloc) mode p num) ↔
      (¬invalidMode mode → s.writeStrategy &&& iosEnabled ≠ 0 →
        minimum mode num ≤ s.qmax - s.qused → mode &&& iomProbe = 0 →
        Clean back malloc (min num (s.qmax - s.qused)) l)) ∧
    ∀ interrupted : Bool,
      (Takes s (front ++ back) l p mode (s.putWoken (fun _ => malloc) mode p num interrupted) ↔
        (interrupted = false → s.writeStrategy &&& iosEnabled ≠ 0 →
          minimum mode num ≤ s.qmax - s.qused → mode &&& iomProbe = 0 →
          Clean back malloc (min num (s.qmax - s.qused)) l)) := by
  have hwait := h.takes_wait_iff hl hq hc hapart mode hfresh
  constructor
  · rw [ioPutbytesSeq]
    split_ifs with hmode henabled
    · exact iff_of_true (Held.takes_denies _ (by decide) _) fun hvalid => absurd hmode hvalid
    · exact iff_of_true (Held.takes_denies _ (by decide) _) fun _ hon => absurd henabled hon
    · rw [hwait]
      exact ⟨fun hcond _ _ => hcond, fun hcond => hcond hmode henabled⟩
  · intro interrupted
    rw [putWoken]
    split_ifs with hint henabled
    · exact iff_of_true (Held.takes_denies _ (by decide) _) fun hclear => by simp [hint] at hclear
    · exact iff_of_true (Held.takes_denies _ (by decide) _) fun _ hon => absurd henabled hon
    · rw [hwait]
      exact ⟨fun hcond _ _ => hcond, fun hcond => hcond (by simpa using hint) henabled⟩

theorem held_create (n : ℕ) (rs ws : UInt32) (heap : Heap) :
    Held { create n rs ws with heap := heap } [] [] :=
  (queue_nil rfl rfl rfl rfl).held (by simp [create]) (by simp [create])

theorem chained_single {a : Addr} (ha : a < 2 ^ 32) {b : Block} {n : ℕ} (hsized : b.Sized n)
    (hnext : b.next = none) (heap : Heap) : Chained (put heap a b) (some a) [(a, b)] where
  along := ⟨rfl, put_self _ _ _, hnext⟩
  sized := by
    intro x hx
    obtain rfl := mem_singleton.mp hx
    exact ⟨n, hsized⟩
  word := by simpa using ha

theorem putbytes_appends_whole : ∃ (s : Stream) (b : Block), b.contents = [7, 8, 9] ∧
    Takes s [] [(1, b)] (some 1) 0 (s.ioPutbytesSeq (fun _ => none) 0 (some 1) 3) := by
  have hsized := filled_sized 4 (by decide) (fun _ => 0) [7, 8, 9] (by decide)
  refine ⟨_, _, newBlock_contents 4 (fun _ => 0) (by decide),
    (putbytes_appends_iff (held_create 4 3 3 _) ⟨rfl, rfl, by decide⟩ (by decide)
      (chained_single (by decide) hsized rfl fun _ => none) (by simp) (by simp) 0).1.mpr
      fun _ _ _ _ => ⟨?_, ?_, ?_⟩⟩
  · exact pairwise_singleton _ _
  · intro hlt
    exact absurd hlt (by decide)
  · intro hlt
    exact absurd hlt (by decide)

theorem freed_block_queued : ∃ (s : Stream) (l : List Cell), Held s [] [] ∧
    Chained s.heap (some 1) l ∧ ¬Takes s [] l (some 1) 0
      (s.ioPutbytesSeq (fun _ => none) 0 (some 1) 3) := by
  have hempty := newBlock_sized (show 4 < 2 ^ 30 by decide) fun _ => 0
  have hfilled := filled_sized 4 (by decide) (fun _ => 0) [7, 8, 9] (by decide)
  have hc : Chained
      (put (put (fun _ => none) 2 ((newBlock 4 fun _ => 0).append [7, 8, 9])) 1
        { newBlock 4 fun _ => 0 with next := some 2 })
      (some 1) [(1, { newBlock 4 fun _ => 0 with next := some 2 }),
        (2, (newBlock 4 fun _ => 0).append [7, 8, 9])] := by
    refine ⟨⟨rfl, put_self _ _ _, rfl, ?_, rfl⟩, ?_, by simp⟩
    · exact (put_ne _ (by decide)).trans (put_self _ _ _)
    · intro x hx
      rcases mem_cons.mp hx with rfl | hx
      · exact ⟨4, hempty.link _⟩
      · obtain rfl := mem_singleton.mp hx
        exact ⟨4, hfilled⟩
  refine ⟨_, _, held_create 4 3 3 _, hc, fun ht => ?_⟩
  have hclean := (held_create 4 3 3 _).clean_of_takes (k := 3) ⟨rfl, rfl, by decide⟩ (by decide) hc
    (by simp) (by simp) rfl rfl ht
  have hord := pairwise_cons.mp hclean.ordered
  cases hord.1 _ (mem_singleton_self _) rfl

end MachUS.Io
