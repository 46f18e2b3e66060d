import MachUS.Records.RecordStream

namespace MachUS.Records

open Chain Function Outcome List RecordStream Record Nat
open Io (Addr Dlong iomProbe)

variable {ι : Type} {heap heap' : Heap ι} {p q : Option Addr}

abbrev Node (ι : Type) := Addr × Record ι

def contents (l : List (Node ι)) : List (Addr × Content ι) := l.map fun x => (x.1, x.2.toContent)

@[simp] theorem contents_nil : contents ([] : List (Node ι)) = [] := rfl

@[simp] theorem contents_cons (x : Node ι) (l : List (Node ι)) :
    contents (x :: l) = (x.1, x.2.toContent) :: contents l := rfl

@[simp] theorem contents_append (l l' : List (Node ι)) :
    contents (l ++ l') = contents l ++ contents l' := map_append

theorem contents_fst (l : List (Node ι)) : (contents l).map Prod.fst = keys l := by
  rw [contents, map_map]
  rfl

theorem contents_relink (l : List (Node ι)) (a : Addr) (r : Record ι) (p : Option Addr) :
    contents (l ++ [(a, { r with next := p })]) = contents (l ++ [(a, r)]) := by
  rw [contents_append, contents_append]
  rfl

theorem exists_cut {l : List (Node ι)} {k : ℕ} (hpos : 0 < k) (hk : k ≤ l.length) :
    ∃ l₁ a r l₂, l = l₁ ++ (a, r) :: l₂ ∧ k = l₁.length + 1 := by
  have hlt : k - 1 < l.length := by omega
  refine ⟨l.take (k - 1), l[k - 1].1, l[k - 1].2, l.drop k, ?_, ?_⟩
  · have hdrop := drop_eq_getElem_cons hlt
    rw [Nat.sub_add_cancel hpos] at hdrop
    rw [Prod.mk.eta, ← hdrop, take_append_drop]
  · rw [length_take]
    omega

theorem load_eq {a : Addr} {r : Record ι} (h : heap a = some r) :
    load heap (some a) = .ok (a, r) := by
  rw [load]
  simp only [h]

theorem setNext_eq {a : Addr} {r : Record ι} (h : heap a = some r) (p : Option Addr) :
    setNext heap (some a) p = .ok (update heap a (some { r with next := p })) := by
  rw [setNext, load_eq h]
  rfl

theorem walk_along {l : List (Node ι)} {a : Addr} {r : Record ι}
    (h : Along next heap p (l ++ [(a, r)]) q) (prvrec : Option Addr) :
    walk heap (l.length + 1) prvrec p = .ok (some (some a, q)) := by
  induction l generalizing p prvrec with
  | nil =>
    obtain ⟨rfl, hr, hq⟩ := h
    rw [length_nil, walk, load_eq hr, ok_bind]
    obtain rfl : r.next = q := hq
    rfl
  | cons x l ih =>
    obtain ⟨rfl, hx, htail⟩ := h
    rw [length_cons, walk, load_eq hx, ok_bind]
    exact ih htail _

theorem walk_short {l : List (Node ι)} (h : Along next heap p l none) {n : ℕ}
    (hn : l.length < n) (prvrec : Option Addr) : walk heap n prvrec p = .ok none := by
  induction l generalizing p n prvrec with
  | nil =>
    obtain rfl : p = none := h
    obtain ⟨n, rfl⟩ := exists_eq_succ_of_ne_zero hn.ne'
    rfl
  | cons x l ih =>
    obtain ⟨rfl, hx, htail⟩ := h
    obtain ⟨n, rfl⟩ := exists_eq_succ_of_ne_zero (ne_of_gt (zero_lt_of_lt hn))
    rw [walk, load_eq hx, ok_bind]
    exact ih htail (lt_of_succ_lt_succ hn) _

theorem gather_along {l : List (Node ι)} (h : Along next heap p l q) :
    gather heap l.length p = contents l := by
  induction l generalizing p with
  | nil => rfl
  | cons x l ih =>
    obtain ⟨rfl, hx, htail⟩ := h
    rw [length_cons, gather]
    simp only [hx]
    rw [ih htail]
    rfl

theorem freeLoop_along {l : List (Node ι)} (h : Along next heap p l none) :
    ∃ heap', freeLoop l.length heap p = .ok heap' ∧ ∀ a ∉ keys l, heap' a = heap a := by
  induction l generalizing p heap with
  | nil =>
    obtain rfl : p = none := h
    exact ⟨heap, rfl, fun _ _ => rfl⟩
  | cons x l ih =>
    have hx : x.1 ∉ keys l := (nodup_cons.mp h.nodup).1
    obtain ⟨rfl, hr, htail⟩ := h
    obtain ⟨heap', hloop, hframe⟩ := ih (htail.update hx)
    refine ⟨heap', ?_, fun a ha => ?_⟩
    · rw [length_cons, freeLoop, load_eq hr, ok_bind]
      exact hloop
    · rw [Chain.keys_cons, mem_cons, not_or] at ha
      rw [hframe a ha.2, update_of_ne ha.1]

theorem copyBlocks_true {blocks : List (List UInt8)} {resid resid' : ℕ} {buf buf' : List UInt8}
    (h : Content.copyBlocks blocks resid buf = (true, resid', buf')) :
    buf' = buf ++ blocks.flatten := by
  induction blocks generalizing resid buf with
  | nil =>
    rw [Content.copyBlocks] at h
    rw [flatten_nil, append_nil]
    exact (Prod.mk.inj (Prod.mk.inj h).2).2.symm
  | cons blk blocks ih =>
    rw [Content.copyBlocks] at h
    split_ifs at h
    · cases (Prod.mk.inj h).1
    · rw [ih h, flatten_cons, append_assoc]

theorem iorecRead_success {c : Content ι} {mode : UInt32} {len len' : ℕ} {buf : List UInt8}
    (hprobe : mode &&& iomProbe = 0) (h : c.iorecRead mode len = (.success, len', buf)) :
    buf = c.blocks.flatten := by
  rw [Content.iorecRead, if_neg (not_not.mpr hprobe)] at h
  split at h
  next => cases (Prod.mk.inj h).1
  next resid out hcopy =>
    rw [copyBlocks_true hcopy] at h
    exact (Prod.mk.inj (Prod.mk.inj h).2).2.symm

structure Queue (s : RecordStream ι) (l : List (Node ι)) : Prop where
  chain : Along next s.heap s.firstRecord l none
  last : s.lastRecord = (keys l).getLast?
  count : s.qused = l.length
  bound : s.qused ≤ s.qmax
  word : s.qmax < 2 ^ 32
  recnum : s.nextRecnum.value = (s.firstRecnum.value + s.qused) % 2 ^ 64

namespace Queue

variable {s : RecordStream ι} {l : List (Node ι)}

theorem congr (h : Queue s l) (hheap : ∀ a ∈ keys l, heap' a = s.heap a) (rs ws : UInt32) :
    Queue { s with heap := heap', readStrategy := rs, writeStrategy := ws } l :=
  ⟨h.chain.congr hheap, h.last, h.count, h.bound, h.word, h.recnum⟩

theorem last_drop {l₁ l₂ : List (Node ι)} (h : Queue s (l₁ ++ l₂)) {n : ℕ} (hn : n = l₂.length) :
    (if n = 0 then none else s.lastRecord) = (keys l₂).getLast? := by
  rcases eq_nil_or_concat l₂ with rfl | ⟨l₂, x, rfl⟩
  · rw [if_pos (hn.trans length_nil)]
    rfl
  · rw [if_neg (by rw [hn]; simp), h.last]
    simp

theorem recnum_drop {l₁ l₂ : List (Node ι)} (h : Queue s (l₁ ++ l₂)) :
    s.nextRecnum.value = ((s.firstRecnum.addLong l₁.length).value + l₂.length) % 2 ^ 64 := by
  have hcount := h.count
  have hbound := h.bound
  have hword := h.word
  have hrecnum := h.recnum
  rw [length_append] at hcount
  rw [Dlong.value_addLong _ (by omega)]
  omega

theorem sub_length {l₁ l₂ : List (Node ι)} (h : Queue s (l₁ ++ l₂)) :
    Word.sub s.qused l₁.length = l₂.length := by
  have hcount := h.count
  rw [length_append] at hcount
  rw [Word.sub_of_le (by omega) (h.bound.trans_lt h.word)]
  omega

theorem getReady {l₁ l₂ : List (Node ι)} {a : Addr} {r : Record ι}
    (h : Queue s (l₁ ++ (a, r) :: l₂)) {mode : UInt32} (hprobe : mode &&& iomProbe = 0) {count : ℕ}
    (hk : min count s.qused = l₁.length + 1) (stray : Option Addr) :
    ∃ s', s.getReady mode count stray = .ok (.returns
        { code := .success
          count := l₁.length + 1
          recnum := s.firstRecnum
          record := s.firstRecord } s') ∧
      Queue s' l₂ ∧ s'.heap = update s.heap a (some { r with next := none }) ∧
      Along next s'.heap s.firstRecord (l₁ ++ [(a, { r with next := none })]) none := by
  have hl : l₁ ++ (a, r) :: l₂ = (l₁ ++ [(a, r)]) ++ l₂ := append_cons _ _ _
  rw [hl] at h
  have hnodup := h.chain.nodup
  rw [Chain.keys_append, Chain.keys_append, nodup_append, nodup_append] at hnodup
  obtain ⟨⟨-, -, hfirst⟩, -, hrest⟩ := hnodup
  have ha₁ : a ∉ keys l₁ := fun hmem => hfirst a hmem a mem_cons_self rfl
  have ha₂ : a ∉ keys l₂ := fun hmem =>
    hrest a (mem_append_right _ mem_cons_self) a hmem rfl
  obtain ⟨q, hfront, hback⟩ := h.chain.split
  have hr : s.heap a = some r := hfront.heap_eq (a, r) (by simp)
  have hlen : l₁.length + 1 = (l₁ ++ [(a, r)]).length := by simp
  have hwalk := walk_along hfront stray
  rw [RecordStream.getReady]
  simp only [hk, hprobe, ne_eq, not_true, if_false, hwalk, ok_bind, setNext_eq hr]
  refine ⟨_, rfl, ⟨hback.update ha₂, ?_, ?_, ?_, h.word, ?_⟩, rfl, hfront.relink ha₁ rfl⟩
  · rw [hlen, h.sub_length]
    exact h.last_drop rfl
  · rw [hlen]
    exact h.sub_length
  · rw [hlen, h.sub_length]
    have hcount := h.count
    have hbound := h.bound
    rw [length_append] at hcount
    dsimp only
    omega
  · rw [hlen, h.sub_length]
    exact h.recnum_drop

theorem enqueue (h : Queue s l) {m : List (Node ι)} (hm : Along next s.heap p m q)
    (hapart : ∀ b ∈ keys m, b ∉ keys l) :
    ∃ heap' first recnum l', s.enqueue p s.nextRecnum = .ok
        { s with
          heap := heap'
          firstRecord := first
          firstRecnum := recnum } ∧
      Along next heap' first (l' ++ m) q ∧ contents l' = contents l ∧
      s.nextRecnum.value = (recnum.value + s.qused) % 2 ^ 64 ∧
      ∀ b ∉ keys l, heap' b = s.heap b := by
  have hcount := h.count
  rcases eq_nil_or_concat l with rfl | ⟨l, ⟨b, rb⟩, rfl⟩
  · have hlt := s.nextRecnum.value_lt
    rw [enqueue, if_neg (by rw [hcount]; simp)]
    refine ⟨_, _, _, [], rfl, hm, rfl, ?_, fun _ _ => rfl⟩
    rw [hcount, length_nil, add_zero, mod_eq_of_lt hlt]
  · rw [concat_eq_append] at *
    have hnodup := h.chain.nodup
    rw [Chain.keys_append, nodup_append] at hnodup
    have hb : b ∉ keys l := fun hmem => hnodup.2.2 b hmem b mem_cons_self rfl
    have hbm : b ∉ keys m := fun hmem => hapart b hmem (by simp)
    have hrb : s.heap b = some rb := h.chain.heap_eq (b, rb) (by simp)
    have hlast : s.lastRecord = some b := by rw [h.last]; simp
    rw [enqueue, if_pos (by rw [hcount]; simp), hlast, setNext_eq hrb]
    refine ⟨_, _, _, l ++ [(b, { rb with next := p })], rfl, ?_, contents_relink l b rb p, h.recnum,
      fun c hc => update_of_ne ?_ _ _⟩
    · exact (h.chain.relink hb rfl).append (hm.update hbm)
    · rintro rfl
      exact hc (by simp)

theorem putReady (h : Queue s l) {m₁ m₂ : List (Node ι)} {a : Addr} {r : Record ι}
    (hlist : Along next s.heap p (m₁ ++ (a, r) :: m₂) none)
    (hapart : ∀ b ∈ keys (m₁ ++ [(a, r)]), b ∉ keys l) {mode : UInt32}
    (hprobe : mode &&& iomProbe = 0) {count : ℕ}
    (hk : min count (s.qmax - s.qused) = m₁.length + 1) (stray : Option Addr) :
    ∃ nxtrec s' l', s.putReady mode p count stray = .ok (.returns
        { code := .success
          count := m₁.length + 1
          recnum := s.nextRecnum
          record := nxtrec } s') ∧
      Queue s' l' ∧ contents l' = contents l ++ contents (m₁ ++ [(a, r)]) ∧
      ∀ b ∉ keys l, b ∉ keys (m₁ ++ [(a, r)]) → s'.heap b = s.heap b := by
  have hcount := h.count
  have hbound := h.bound
  have hword := h.word
  have hnodup := hlist.nodup
  rw [Chain.keys_append, nodup_append] at hnodup
  have ha : a ∉ keys m₁ := fun hmem => hnodup.2.2 a hmem a mem_cons_self rfl
  rw [append_cons] at hlist
  obtain ⟨nxtrec, hfront, -⟩ := hlist.split
  have hwalk := walk_along hfront stray
  obtain ⟨heap', first, recnum, l', henq, hjoin, hcontents, hrecnum, hframe⟩ :=
    h.enqueue hfront hapart
  have hkeys : keys l' = keys l := by rw [← contents_fst, hcontents, contents_fst]
  have hal : a ∉ keys l := hapart a (by simp)
  have ha' : a ∉ keys (l' ++ m₁) := by
    rw [Chain.keys_append, hkeys, mem_append, not_or]
    exact ⟨hal, ha⟩
  have hr : heap' a = some r := (hframe a hal).trans (hfront.heap_eq (a, r) (by simp))
  rw [← append_assoc] at hjoin
  have hlen : l'.length = s.qused := by
    have hlength := congrArg length hcontents
    rw [contents, contents, length_map, length_map] at hlength
    rw [hlength, hcount]
  have hadd : Word.add s.qused (m₁.length + 1) = s.qused + (m₁.length + 1) :=
    Word.add_of_lt (by omega)
  rw [RecordStream.putReady, Word.sub_of_le hbound hword]
  simp only [hk, hprobe, ne_eq, not_true, if_false, hwalk, henq, ok_bind, setNext_eq hr]
  refine ⟨_, _, l' ++ m₁ ++ [(a, { r with next := none })], rfl,
    ⟨hjoin.relink ha' rfl, ?_, ?_, ?_, hword, ?_⟩, ?_, fun b hb hbm => ?_⟩
  · simp
  · simp only [hadd, length_append, length_singleton]
    omega
  · simp only [hadd]
    omega
  · simp only [hadd]
    rw [Dlong.value_addLong _ (by omega), hrecnum]
    omega
  · rw [contents_relink, append_assoc, contents_append, hcontents]
  · rw [Chain.keys_append, mem_append, not_or] at hbm
    dsimp only
    rw [update_of_ne (ne_of_not_mem_cons hbm.2), hframe b hb]

theorem readReady (ops : RecinfoOps ι) {a : Addr} {r : Record ι} (h : Queue s ((a, r) :: l))
    {mode : UInt32} {len len' : ℕ} {buf : List UInt8} (hprobe : mode &&& iomProbe = 0)
    (hread : r.iorecRead mode len = (.success, len', buf)) (recinfo : Option ι) :
    ∃ s', s.readReady ops mode len recinfo = .ok (.returns
        { code := .success
          recnum := s.firstRecnum
          len := len'
          buf := buf
          info := recinfo.map (ops.copy r.recinfo) } s') ∧
      Queue s' l ∧ s'.heap = update s.heap a none := by
  have ha : a ∉ keys l := (nodup_cons.mp h.chain.nodup).1
  obtain ⟨hfirst, hr, htail⟩ := h.chain
  have hsplit : Queue s ([(a, r)] ++ l) := h
  have hsub := hsplit.sub_length
  have hlast := hsplit.last_drop rfl
  have hrecnum := hsplit.recnum_drop
  have hcount := h.count
  have hbound := h.bound
  rw [length_singleton] at hsub hrecnum
  rw [length_cons] at hcount
  rw [RecordStream.readReady, hfirst, load_eq hr, ok_bind]
  simp only [hread, hprobe, ne_eq, not_true, if_false, RecordStream.free, hsub]
  refine ⟨_, rfl, ⟨htail.update ha, hlast, rfl, ?_, h.word, hrecnum⟩, rfl⟩
  dsimp only
  omega

theorem flush (h : Queue s l) : ∃ s', s.ioFlushStream = .ok (.success, s') ∧ Queue s' [] ∧
    ∀ a ∉ keys l, s'.heap a = s.heap a := by
  obtain ⟨heap', hloop, hframe⟩ := freeLoop_along h.chain
  have hlt := s.nextRecnum.value_lt
  rw [ioFlushStream, h.count, hloop]
  refine ⟨_, rfl, ⟨rfl, rfl, rfl, zero_le _, h.word, ?_⟩, hframe⟩
  simp only [add_zero]
  exact (mod_eq_of_lt hlt).symm

end Queue

end MachUS.Records
