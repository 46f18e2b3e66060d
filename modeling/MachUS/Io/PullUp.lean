import MachUS.Io.BlockRecords

namespace MachUS.Io

open Memory Chain Outcome List Nat Stream Scattered

section PullUp

variable (heap : Heap)

-- Bytes at or past maxOffset are not the block's own: what a copy destroys there is left out.
def pullLoop (newblk : Addr) : ℕ → Heap → Option Addr → Except Fault Heap
  | _, heap, none => pure heap
  | 0, _, some _ => .error .endlessLoop
  | n + 1, heap, some curblk => do
    let (_, b) ← load heap (some curblk)
    let heap := put heap curblk { b with next := none }
    let xlen := b.cursize
    let heap ← if xlen ≠ 0 then do
        let (_, nb) ← load heap (some newblk)
        pure (put heap newblk (nb.append (b.read xlen)))
      else pure heap
    pullLoop newblk n (free heap curblk) b.next

def ioPullupWholeRecord (n : ℕ) (rec : BlockRecord) (malloc : Option (Addr × Mem)) :
    Except Fault (Code × BlockRecord × Heap) :=
  if rec.lastBlock = rec.firstBlock then pure (.success, rec, heap)
  else do
    let len ← cursizeLoop heap n rec.firstBlock 0
    let (first, b) ← load heap rec.firstBlock
    if b.maxsize < len then
      match malloc with
      | none => pure (.resourceExhausted, rec, heap)
      | some (newblk, data) =>
        let heap := put heap newblk (newBlock len data)
        let heap ← pullLoop newblk n heap rec.firstBlock
        pure (.success, ⟨some newblk, some newblk⟩, heap)
    else do
      let heap ← pullLoop first n heap b.next
      pure (.success, ⟨some first, some first⟩, heap)

end PullUp

theorem free_ne {heap : Heap} {a c : Addr} (h : c ≠ a) : free heap a c = heap c :=
  Function.update_of_ne h _ _

def pulled (nb : Block) (cells : List Cell) : Block :=
  cells.foldl (fun nb x => if x.2.cursize ≠ 0 then nb.append x.2.contents else nb) nb

theorem pulled_next (nb : Block) (cells : List Cell) : (pulled nb cells).next = nb.next := by
  induction cells generalizing nb with
  | nil => rfl
  | cons x cells ih =>
    rw [pulled, foldl_cons]
    refine (ih _).trans ?_
    split_ifs <;> rfl

theorem pulled_sized {nb : Block} {m : ℕ} (h : nb.Sized m) (cells : List Cell)
    (hroom : used cells ≤ nb.freesize) :
    (pulled nb cells).Sized m ∧ (pulled nb cells).contents = nb.contents ++ contents cells := by
  induction cells generalizing nb with
  | nil => exact ⟨h, (append_nil _).symm⟩
  | cons x cells ih =>
    rw [used_cons] at hroom
    have hfits : x.2.contents.length ≤ nb.freesize := by
      rw [Block.contents_length]
      omega
    rw [pulled, foldl_cons, contents_cons, ← append_assoc]
    split_ifs with hne
    · rw [← h.contents_append hfits]
      refine ih (h.append hfits) ?_
      rw [h.freesize_append hfits, Block.contents_length]
      omega
    · have hnil : x.2.contents = [] :=
        eq_nil_of_length_eq_zero (x.2.contents_length.trans (not_not.mp hne))
      rw [hnil, append_nil]
      exact ih h (by omega)

theorem pullLoop_pass {heap : Heap} {newblk curblk : Addr} {n : ℕ} {b nb : Block}
    (hb : heap curblk = some b) (hnb : heap newblk = some nb) (hne : newblk ≠ curblk) :
    ∃ heap', pullLoop newblk (n + 1) heap (some curblk) = pullLoop newblk n heap' b.next ∧
      heap' newblk = some (if b.cursize ≠ 0 then nb.append b.contents else nb) ∧
      heap' curblk = none ∧ ∀ a, a ≠ newblk → a ≠ curblk → heap' a = heap a := by
  have hload : load (put heap curblk { b with next := none }) (some newblk) = .ok (newblk, nb) :=
    load_some ((put_ne _ hne).trans hnb)
  rw [pullLoop, load_some hb, ok_bind]
  dsimp only
  split_ifs with hcur
  · refine ⟨free (put (put heap curblk { b with next := none }) newblk (nb.append b.contents))
      curblk,
      by rw [hload]; rfl, ?_, Function.update_self _ _ _, fun a hnew hold => ?_⟩
    · rw [free_ne hne, put_self]
    · rw [free_ne hold, put_ne _ hnew, put_ne _ hold]
  · refine ⟨free (put heap curblk { b with next := none }) curblk, rfl, ?_,
      Function.update_self _ _ _, fun a _ hold => ?_⟩
    · rw [free_ne hne, put_ne _ hne, hnb]
    · rw [free_ne hold, put_ne _ hold]

theorem pullLoop_eq {heap : Heap} {p : Option Addr} {cells : List Cell} {n : ℕ} {newblk : Addr}
    {nb : Block} (h : Along Block.next heap p cells none) (hn : cells.length ≤ n)
    (hnew : newblk ∉ keys cells) (hnb : heap newblk = some nb) :
    ∃ heap', pullLoop newblk n heap p = .ok heap' ∧ heap' newblk = some (pulled nb cells) ∧
      (∀ a ∈ keys cells, heap' a = none) ∧
      ∀ a, a ≠ newblk → a ∉ keys cells → heap' a = heap a := by
  induction cells generalizing heap p n nb with
  | nil =>
    obtain rfl : p = none := h
    exact ⟨heap, by rw [pullLoop]; rfl, hnb, by simp, fun _ _ _ => rfl⟩
  | cons x cells ih =>
    have hnodup := h.nodup
    obtain ⟨rfl, hx, hrest⟩ := h
    obtain ⟨n, rfl⟩ := exists_eq_add_one.mpr (zero_lt_of_lt hn)
    rw [Chain.keys_cons, mem_cons, not_or] at hnew
    rw [Chain.keys_cons, nodup_cons] at hnodup
    obtain ⟨heap₁, hpass, hnb₁, hfree₁, hframe₁⟩ := pullLoop_pass (n := n) hx hnb hnew.1
    have hrest₁ : Along Block.next heap₁ x.2.next cells none := hrest.congr fun a ha => by
      refine hframe₁ a ?_ ?_
      · rintro rfl
        exact hnew.2 ha
      · rintro rfl
        exact hnodup.1 ha
    obtain ⟨heap', hrun, hnew', hfreed, hframe⟩ :=
      ih hrest₁ (le_of_succ_le_succ hn) hnew.2 hnb₁
    refine ⟨heap', hpass.trans hrun, hnew', ?_, ?_⟩
    · intro a ha
      rcases mem_cons.mp ha with rfl | ha
      · rw [hframe x.1 (Ne.symm hnew.1) hnodup.1]
        exact hfree₁
      · exact hfreed a ha
    · intro a hnewblk ha
      rw [Chain.keys_cons, mem_cons, not_or] at ha
      rw [hframe a hnewblk ha.2]
      exact hframe₁ a hnewblk ha.1

theorem newBlock_sized_of_lt {n : ℕ} (hn : headerSize + n < 2 ^ 32) (data : Mem) :
    (newBlock n data).Sized n := by
  have hmax : Word.add headerSize n = headerSize + n := Word.add_of_lt hn
  refine ⟨le_refl _, le_refl _, ?_, hmax, ?_⟩
  · simp only [newBlock, Block.clear, hmax]
    exact le_add_right _ _
  · simp only [newBlock, Block.clear, hmax]
    exact hn

def PullsUp (heap : Heap) (n : ℕ) (rec : BlockRecord) (cells : List Cell)
    (malloc : Option (Addr × Mem)) : Prop :=
  ∃ code rec' heap', ioPullupWholeRecord heap n rec malloc = .ok (code, rec', heap') ∧
    (code = .success → ∃ x : Cell, rec'.Holds heap' [x] ∧ x.2.contents = contents cells) ∧
    (code ≠ .success → rec' = rec ∧ heap' = heap)

section WholeRecord

variable {heap : Heap} {n : ℕ} {rec : BlockRecord} {cells rest : List Cell} {x : Cell}
  {malloc : Option (Addr × Mem)}

theorem BlockRecord.Holds.first (h : rec.Holds heap (x :: rest)) : rec.firstBlock = some x.1 :=
  h.along.1

theorem BlockRecord.Holds.last_ne (h : rec.Holds heap (x :: rest)) (hrest : rest ≠ []) :
    rec.lastBlock ≠ rec.firstBlock := by
  have hnodup := h.along.nodup
  rw [Chain.keys_cons, nodup_cons] at hnodup
  rw [h.last, h.first, getLast?_eq_some_getLast (cons_ne_nil _ _),
    getLast_cons hrest, Option.map_some]
  intro hlast
  rw [← Option.some.inj hlast] at hnodup
  exact hnodup.1 (mem_map_of_mem (getLast_mem hrest))

theorem pullup_at_once (hlast : rec.lastBlock = rec.firstBlock) :
    ioPullupWholeRecord heap n rec malloc = .ok (.success, rec, heap) := by
  rw [ioPullupWholeRecord, if_pos hlast]
  rfl

variable (h : rec.Holds heap (x :: rest)) (hn : (x :: rest).length ≤ n) (hrest : rest ≠ [])

include h hn hrest

theorem pullup_into_first (malloc : Option (Addr × Mem)) (hfits : used (x :: rest) ≤ x.2.maxsize) :
    ∃ heap', ioPullupWholeRecord heap n rec malloc = .ok (.success, ⟨some x.1, some x.1⟩, heap') ∧
      heap' x.1 = some (pulled x.2 rest) ∧ ∀ a ∈ keys rest, heap' a = none := by
  have hnodup := h.along.nodup
  rw [Chain.keys_cons, nodup_cons] at hnodup
  obtain ⟨hfirst, hx, halong⟩ := h.along
  obtain ⟨heap', hrun, hnew, hfree, -⟩ :=
    pullLoop_eq halong ((le_succ _).trans hn) hnodup.1 hx
  refine ⟨heap', ?_, hnew, hfree⟩
  have hlen := cursizeLoop_eq h.along hn 0 (by rw [zero_add]; exact h.used_lt)
  rw [zero_add] at hlen
  rw [ioPullupWholeRecord, if_neg (h.last_ne hrest), hlen, ok_bind, hfirst, load_some hx, ok_bind]
  dsimp only
  rw [if_neg (not_lt.mpr hfits), hrun]
  rfl

theorem not_pullsUp_of_fits (hfits : used (x :: rest) ≤ x.2.maxsize) :
    ¬PullsUp heap n rec (x :: rest) malloc := by
  rintro ⟨code, rec', heap', hrun, hsuccess, -⟩
  obtain ⟨heap₁, hrun₁, hx, -⟩ := pullup_into_first h hn hrest malloc hfits
  obtain ⟨rfl, rfl, rfl⟩ : .success = code ∧ ⟨some x.1, some x.1⟩ = rec' ∧ heap₁ = heap' := by
    simpa using hrun₁.symm.trans hrun
  obtain ⟨y, hy, -⟩ := hsuccess rfl
  obtain ⟨hkey, hblock, hend⟩ := hy.along
  have hnext : (pulled x.2 rest).next = none := by
    rw [← Option.some.inj hkey, hx] at hblock
    rw [Option.some.inj hblock]
    exact hend
  rw [pulled_next] at hnext
  exact hrest ((Along.eq_none h.along.2.2).mp hnext)

theorem pullup_refused (hlarge : x.2.maxsize < used (x :: rest)) :
    ioPullupWholeRecord heap n rec none = .ok (.resourceExhausted, rec, heap) := by
  have hlen := cursizeLoop_eq h.along hn 0 (by rw [zero_add]; exact h.used_lt)
  rw [zero_add] at hlen
  rw [ioPullupWholeRecord, if_neg (h.last_ne hrest), hlen, ok_bind, h.first,
    load_some h.along.2.1, ok_bind]
  dsimp only
  rw [if_pos hlarge]
  rfl

theorem pullup_into_new (hlarge : x.2.maxsize < used (x :: rest)) {a : Addr} (data : Mem)
    (hfresh : heap a = none) :
    ∃ heap' b, ioPullupWholeRecord heap n rec (some (a, data)) =
        .ok (.success, ⟨some a, some a⟩, heap') ∧
      BlockRecord.Holds ⟨some a, some a⟩ heap' [(a, b)] ∧ b.contents = contents (x :: rest) := by
  have hlen := cursizeLoop_eq h.along hn 0 (by rw [zero_add]; exact h.used_lt)
  rw [zero_add] at hlen
  have hroom := h.room
  rw [length_cons, mul_succ] at hroom
  have hnew : a ∉ keys (x :: rest) := h.along.fresh hfresh
  have hsized := newBlock_sized_of_lt (n := used (x :: rest)) (by omega) data
  obtain ⟨hpulled, hcontents⟩ := pulled_sized hsized (x :: rest)
    (hsized.freesize_blank ⟨rfl, rfl⟩).ge
  rw [hsized.contents_blank ⟨rfl, rfl⟩, nil_append] at hcontents
  obtain ⟨heap', hloop, hb, -, -⟩ :=
    pullLoop_eq (h.along.update (b := some (newBlock (used (x :: rest)) data)) hnew) hn hnew
      (Function.update_self _ _ _)
  have hloop' : pullLoop a n (put heap a (newBlock (used (x :: rest)) data)) (some x.1) =
      .ok heap' := by
    rw [← h.first]
    exact hloop
  refine ⟨heap', pulled (newBlock (used (x :: rest)) data) (x :: rest), ?_,
    ⟨?_, rfl, ?_, ?_⟩, hcontents⟩
  · rw [ioPullupWholeRecord, if_neg (h.last_ne hrest), hlen, ok_bind, h.first,
      load_some h.along.2.1, ok_bind]
    dsimp only
    rw [if_pos hlarge, hloop']
    rfl
  · exact ⟨rfl, hb, (pulled_next _ _).trans rfl⟩
  · intro y hy
    obtain rfl := mem_singleton.mp hy
    exact ⟨_, hpulled⟩
  · have hused : (pulled (newBlock (used (x :: rest)) data) (x :: rest)).cursize =
        used (x :: rest) := by
      rw [← Block.contents_length, hcontents, contents_length]
    change headerSize * 1 + ((pulled _ _).cursize + 0) < 2 ^ 32
    rw [hused]
    omega

end WholeRecord

theorem pullup_preserves_iff {heap : Heap} {n : ℕ} {rec : BlockRecord} {cells : List Cell}
    {malloc : Option (Addr × Mem)} (h : rec.Holds heap cells) (hn : cells.length ≤ n)
    (hmalloc : ∀ a data, malloc = some (a, data) → heap a = none) :
    PullsUp heap n rec cells malloc ↔
      ∃ x rest, cells = x :: rest ∧ (rest = [] ∨ x.2.maxsize < (contents cells).length) := by
  rw [contents_length]
  constructor
  · intro hpulls
    cases cells with
    | nil =>
      obtain ⟨code, rec', heap', hrun, hsuccess, -⟩ := hpulls
      have hfirst : rec.firstBlock = none := h.along
      have hlast : rec.lastBlock = rec.firstBlock := h.last.trans hfirst.symm
      obtain ⟨rfl, rfl, rfl⟩ : .success = code ∧ rec = rec' ∧ heap = heap' := by
        simpa using (pullup_at_once hlast).symm.trans hrun
      obtain ⟨y, hy, -⟩ := hsuccess rfl
      cases hfirst.symm.trans hy.first
    | cons x rest =>
      refine ⟨x, rest, rfl, or_iff_not_imp_left.mpr fun hrest => ?_⟩
      by_contra hle
      exact not_pullsUp_of_fits h hn hrest (not_lt.mp hle) hpulls
  · rintro ⟨x, rest, rfl, hcond⟩
    by_cases hrest : rest = []
    · subst hrest
      refine ⟨_, _, _, pullup_at_once (h.last.trans h.first.symm), fun _ => ⟨x, h, ?_⟩,
        fun _ => ⟨rfl, rfl⟩⟩
      rw [contents_cons, contents_nil, append_nil]
    have hlarge := hcond.resolve_left hrest
    cases malloc with
    | none =>
      refine ⟨_, _, _, pullup_refused h hn hrest hlarge, fun hcode => ?_, fun _ => ⟨rfl, rfl⟩⟩
      cases hcode
    | some block =>
      obtain ⟨heap', b, hrun, hholds, hcontents⟩ :=
        pullup_into_new h hn hrest hlarge block.2 (hmalloc _ _ rfl)
      exact ⟨_, _, _, hrun, fun _ => ⟨_, hholds, hcontents⟩, fun hcode => absurd rfl hcode⟩

theorem pullup_preserves_iff_scattered :
    PullsUp heap 3 record Scattered.cells (some (256, fun _ => 0)) ↔
      ∃ x rest, Scattered.cells = x :: rest ∧
        (rest = [] ∨ x.2.maxsize < (contents Scattered.cells).length) := by
  refine pullup_preserves_iff record_holds (le_refl 3) fun a data hblock => ?_
  cases hblock
  decide

theorem pullup_leaves_freed_block : record.Holds heap Scattered.cells ∧
    ¬PullsUp heap 3 record Scattered.cells none :=
  ⟨record_holds, not_pullsUp_of_fits record_holds (le_refl 3) (cons_ne_nil _ _) (by decide)⟩

end MachUS.Io
