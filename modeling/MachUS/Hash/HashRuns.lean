import MachUS.Foundation.Transition
import MachUS.Hash.HashMap

namespace MachUS.Hash

open Chain Transition Outcome Option List HashTable EntryRef AList

section Init

variable {h : Entries} {size : UInt32} {junk : ℕ → HashEntry} {is : List ℕ} {r : EntryRef}

theorem mem_foldl_insert : r ∈ is.foldl (fun h (i : ℕ) => h.insert (.table i) (junk i)) h ↔
    r ∈ h ∨ ∃ i ∈ is, r = .table (i : ℤ) := by
  induction is generalizing h with
  | nil => simp
  | cons i is ih =>
    rw [foldl_cons, ih, mem_insert]
    constructor
    · rintro ((rfl | hr) | ⟨j, hj, rfl⟩)
      · exact Or.inr ⟨i, mem_cons_self, rfl⟩
      · exact Or.inl hr
      · exact Or.inr ⟨j, mem_cons_of_mem _ hj, rfl⟩
    · rintro (hr | ⟨j, hj, rfl⟩)
      · exact Or.inl (Or.inr hr)
      · rcases mem_cons.mp hj with rfl | hj
        · exact Or.inl (Or.inl rfl)
        · exact Or.inr ⟨j, hj, rfl⟩

theorem mem_allocated : r ∈ allocated size junk ↔ ∃ i < size.toNat % 2 ^ 28, r = .table (i : ℤ) := by
  have hbytes : (tableBytes size).toNat / 16 = size.toNat % 2 ^ 28 := by
    have hmul : (tableBytes size).toNat = size.toNat * 16 % 2 ^ 32 := rfl
    omega
  rw [allocated, hbytes, mem_foldl_insert]
  simp only [mem_range, notMem_empty, false_or]

def Cleared (h : Entries) (i : ℕ) : Prop := ∃ e, h.lookup (.table i) = some e ∧ e.next = none

theorem clearHeader_eq {i : ℕ} (hi : table i ∈ h) : ∃ h', clearHeader h i = .ok h' ∧
    (∀ r, r ∈ h' ↔ r ∈ h) ∧ Cleared h' i ∧ ∀ j, Cleared h j → Cleared h' j := by
  obtain ⟨e, he⟩ := isSome_iff_exists.mp (lookup_isSome.mpr hi)
  have he' : (h.insert (.table i) { e with next := none }).lookup (.table i) =
      some { e with next := none } := lookup_insert h
  refine ⟨(h.insert (.table i) { e with next := none }).insert (.table i)
    { e with next := none, key := hashInvalid }, ?_, fun r => ?_, ?_, fun j hj => ?_⟩
  · rw [clearHeader, Entries.write_of_lookup he, ok_bind, Entries.write_of_lookup he']
  · rw [mem_insert, mem_insert]
    constructor
    · rintro (rfl | rfl | hr)
      · exact hi
      · exact hi
      · exact hr
    · exact fun hr => Or.inr (Or.inr hr)
  · exact ⟨_, lookup_insert _, rfl⟩
  · obtain ⟨e', hlookup, hnext⟩ := hj
    by_cases hji : j = i
    · subst hji
      exact ⟨_, lookup_insert _, rfl⟩
    · have hne : table (j : ℤ) ≠ .table i := fun heq =>
        hji (Int.ofNat_inj.mp (table.inj heq))
      refine ⟨e', ?_, hnext⟩
      rw [lookup_insert_ne hne, lookup_insert_ne hne, hlookup]

theorem clearHeaders_eq (his : ∀ i ∈ is, table (i : ℤ) ∈ h) :
    ∃ h', clearHeaders h is = .ok h' ∧ (∀ r, r ∈ h' ↔ r ∈ h) ∧
      (∀ i ∈ is, Cleared h' i) ∧ ∀ j, Cleared h j → Cleared h' j := by
  induction is generalizing h with
  | nil => exact ⟨h, rfl, fun _ => Iff.rfl, by simp, fun _ hj => hj⟩
  | cons i is ih =>
    obtain ⟨h₁, heq, hmem, hcleared, hkeep⟩ := clearHeader_eq (his i mem_cons_self)
    obtain ⟨h₂, heq', hmem', hcleared', hkeep'⟩ :=
      ih fun j hj => (hmem _).mpr (his j (mem_cons_of_mem _ hj))
    refine ⟨h₂, by rw [clearHeaders, heq, ok_bind, heq'], fun r => ?_, fun j hj => ?_,
      fun j hj => hkeep' j (hkeep j hj)⟩
    · rw [hmem', hmem]
    · rcases mem_cons.mp hj with rfl | hj
      · exact hkeep' j hcleared
      · exact hcleared' j hj

theorem clearHeaders_ok {h' : Entries} (hok : clearHeaders h is = .ok h') :
    ∀ i ∈ is, table (i : ℤ) ∈ h := by
  induction is generalizing h with
  | nil => simp
  | cons i is ih =>
    rw [clearHeaders] at hok
    obtain ⟨h₁, heq, hok⟩ := bind_eq_ok.mp hok
    have hi : table (i : ℤ) ∈ h := by
      obtain ⟨h₀, hwrite, -⟩ := bind_eq_ok.mp heq
      obtain ⟨e, he, -⟩ := bind_eq_ok.mp hwrite
      rw [← lookup_isSome, Entries.deref_eq_ok.mp he, isSome_some]
    obtain ⟨h₂, heq₂, hmem, -⟩ := clearHeader_eq hi
    obtain rfl : h₁ = h₂ := Except.ok.inj (heq.symm.trans heq₂)
    intro j hj
    rcases mem_cons.mp hj with rfl | hj
    · exact hi
    · exact (hmem _).mp (ih hok j hj)

end Init

section Granting

variable {hashfun : Option (HashKey → Int32)} {comparefun : Option (HashKey → HashKey → Bool)}
  {size : UInt32} {b : Blocks} {ht : HashTable}

def Granted (b : Blocks) (size : UInt32) : Prop :=
  b.table = true ∧ (size ≠ 0 → b.headers.isSome = true) ∧ size.toNat < 2 ^ 28

theorem hashInit_ok (h : hashInit b hashfun comparefun size = .ok ht) : Granted b size := by
  rw [hashInit] at h
  split_ifs at h with htable
  obtain ⟨h', hclear, -⟩ := bind_eq_ok.mp h
  have hall (i : ℕ) (hi : i < size.toNat) := clearHeaders_ok hclear i (mem_range.mpr hi)
  refine ⟨htable, fun hsize => ?_, ?_⟩
  · cases hheaders : b.headers with
    | some junk => rfl
    | none =>
      have hpos : 0 < size.toNat := Nat.pos_of_ne_zero fun hzero => hsize (UInt32.toNat_inj.mp hzero)
      have hmem := hall 0 hpos
      rw [hheaders] at hmem
      exact absurd hmem (notMem_empty _)
  · by_contra hlarge
    have hmem := hall (size.toNat % 2 ^ 28) (by omega)
    cases hheaders : b.headers with
    | none =>
      rw [hheaders] at hmem
      exact notMem_empty _ hmem
    | some junk =>
      rw [hheaders, map_some, getD_some, mem_allocated] at hmem
      obtain ⟨i, hi, heq⟩ := hmem
      have hsame := Int.ofNat_inj.mp (table.inj heq)
      omega

theorem hashInit_eq (hgranted : Granted b size) : ∃ entries full,
    hashInit b hashfun comparefun size = .ok ⟨hashfun, comparefun, (size - 1).toInt32, entries⟩ ∧
    Rows ⟨hashfun, comparefun, (size - 1).toInt32, entries⟩ size.toNat full ∧
    ∀ i, pairs (full i) = [] := by
  obtain ⟨htable, hheaders, hsmall⟩ := hgranted
  have hmem (r : EntryRef) : r ∈ (b.headers.map (allocated size)).getD ∅ ↔
      ∃ i < size.toNat, r = .table (i : ℤ) := by
    cases hb : b.headers with
    | some junk => rw [map_some, getD_some, mem_allocated, Nat.mod_eq_of_lt hsmall]
    | none =>
      have hzero : size = 0 := by
        by_contra hne
        have hsome := hheaders hne
        rw [hb] at hsome
        cases hsome
      rw [hzero]
      simp
  have hall : ∀ i ∈ range size.toNat,
      table (i : ℤ) ∈ (b.headers.map (allocated size)).getD ∅ := fun i hi =>
    (hmem _).mpr ⟨i, mem_range.mp hi, rfl⟩
  obtain ⟨entries, hclear, hkeys, hcleared, -⟩ := clearHeaders_eq hall
  refine ⟨entries, fun i => [(.table i, (entries.lookup (.table i)).getD ⟨0, 0, none, none⟩)],
    ?_, ⟨⟨?_, hsmall⟩, fun i hi => ?_, fun i hi => ?_, ?_, ?_, ?_⟩, fun i => rfl⟩
  · rw [hashInit, if_pos htable, hclear]
    rfl
  · exact size_sub_one hsmall
  · obtain ⟨j, hj, heq⟩ := (hmem _).mp ((hkeys _).mp hi)
    have hij := table.inj heq
    omega
  · obtain ⟨e, he, hnext⟩ := hcleared i (mem_range.mpr hi)
    refine ⟨⟨rfl, ?_, ?_⟩, isChain_singleton _⟩
    · rw [he]
      exact he
    · rw [he]
      exact hnext
  · intro i hi r hr
    cases hr
  · intro i hi x hx
    cases hx
  · intro i hi
    exact Pairwise.nil

end Granting

inductive HashOp where
  | enter (key : HashKey) (value : HashValue)
  | remove (key : HashKey)
  | lookup (key : HashKey)
  | apply

inductive Answer where
  | flag (b : Bool)
  | value (v : HashValue)
  | values (vs : List HashValue)

def Answer.Agrees : Answer → Answer → Prop
  | .values vs, .values ws => vs.Perm ws
  | a, a' => a = a'

def HashTable.perform (m : Malloc) (ht : HashTable) : HashOp → Outcome (Answer × HashTable)
  | .enter key value => do
    let (b, ht) ← ht.hashEnter m key value
    .ok (.flag b, ht)
  | .remove key => do
    let (b, ht) ← ht.hashRemove key
    .ok (.flag b, ht)
  | .lookup key => do
    let v ← ht.hashLookup key
    .ok (.value v, ht)
  | .apply => do
    let vs ← ht.hashApply
    .ok (.values vs, ht)

def play (ht : HashTable) (live : Pairs) : HashOp → Answer × Pairs
  | .enter key value =>
    match held ht key live with
    | some _ => (.flag false, live)
    | none => (.flag true, (key, value) :: live)
  | .remove key =>
    (.flag (held ht key live).isSome, live.filter fun x => !ht.compare x.1 key)
  | .lookup key => (.value (((held ht key live).map Prod.snd).getD 0), live)
  | .apply => (.values (live.map Prod.snd), live)

structure HashState where
  table : HashTable
  live : Pairs
  answers : List (Answer × Answer)

namespace HashState

variable {s t : HashState} {m : Malloc} {op : HashOp} {n : ℕ}

def next (s : HashState) : Malloc × HashOp → Option HashState
  | (m, op) =>
    match s.table.perform m op with
    | .error _ => none
    | .ok (a, ht) =>
      some ⟨ht, (play s.table s.live op).2, (a, (play s.table s.live op).1) :: s.answers⟩

def buckets (s : HashState) : ℕ := (s.table.length + 1).toInt.toNat

def Fair (s : HashState) : Malloc × HashOp → Prop
  | (m, .enter key _) => Hashed s.table.hashfun s.buckets key ∧
      (held s.table key s.live = none → (m.entry s.table.entries).isSome = true)
  | (_, .remove key) => Hashed s.table.hashfun s.buckets key
  | (_, .lookup key) => Hashed s.table.hashfun s.buckets key
  | (_, .apply) => True

structure Good (s : HashState) : Prop where
  maps : ∀ key, Hashed s.table.hashfun s.buckets key →
    s.table.hashLookup key = .ok (((held s.table key s.live).map Prod.snd).getD 0)
  inside : ∀ key, Hashed s.table.hashfun s.buckets key →
    ∃ i < s.buckets, s.table.index key = .ok (i : ℤ)
  linked : ∀ i < s.buckets, ∃ l, Doubly HashEntry.next HashEntry.prev s.table.entries.lookup
    (some (.table i)) l
  answered : ∀ p ∈ s.answers, p.1.Agrees p.2

structure Kept (s : HashState) (n : ℕ) : Prop where
  holds : ∃ full, Holds s.table n full s.live
  answered : ∀ p ∈ s.answers, p.1.Agrees p.2

section

variable (h : s.Kept n)

include h

theorem Kept.buckets_eq : s.buckets = n := by
  obtain ⟨full, hholds⟩ := h.holds
  rw [buckets, hholds.sized.succ_toInt, Int.toNat_natCast]

theorem Kept.good : s.Good := by
  obtain ⟨full, hholds⟩ := h.holds
  have hinside (key : HashKey) (hkey : Hashed s.table.hashfun s.buckets key) :
      ∃ i < n, s.table.index key = .ok (i : ℤ) := by
    rw [h.buckets_eq] at hkey
    exact hholds.sized.index_mem_iff.mpr hkey
  refine ⟨fun key hkey => ?_, ?_, ?_, h.answered⟩
  · obtain ⟨i, hi, hindex⟩ := hinside key hkey
    exact hholds.hashLookup_eq hi hindex
  · rw [h.buckets_eq] at hinside ⊢
    exact hinside
  · rw [h.buckets_eq]
    exact fun i hi => ⟨full i, hholds.doubly i hi⟩

theorem Kept.answer {ht : HashTable} {a : Answer} (hrun : s.table.perform m op = .ok (a, ht))
    (hholds : ∃ full, Holds ht n full (play s.table s.live op).2)
    (hagrees : a.Agrees (play s.table s.live op).1) : ∃ t, s.next (m, op) = some t ∧ t.Kept n := by
  refine ⟨_, by rw [next, hrun], hholds, fun p hp => ?_⟩
  rcases mem_cons.mp hp with rfl | hp
  · exact hagrees
  · exact h.answered p hp

theorem Kept.next (hfair : s.Fair (m, op)) : ∃ t, s.next (m, op) = some t ∧ t.Kept n := by
  obtain ⟨full, hholds⟩ := h.holds
  have hinside (key : HashKey) (hkey : Hashed s.table.hashfun s.buckets key) :
      ∃ i < n, s.table.index key = .ok (i : ℤ) := by
    rw [h.buckets_eq] at hkey
    exact hholds.sized.index_mem_iff.mpr hkey
  cases op with
  | enter key value =>
    obtain ⟨i, hi, hindex⟩ := hinside key hfair.1
    cases hheld : held s.table key s.live with
    | some x =>
      have hrun : s.table.hashEnter m key value = .ok (false, s.table) :=
        hholds.hashEnter_present hi hindex hheld
      have hplay : play s.table s.live (.enter key value) = (.flag false, s.live) := by
        rw [play, hheld]
      refine h.answer (a := .flag false) (by rw [perform, hrun]; rfl) ?_ ?_
      · rw [hplay]
        exact ⟨full, hholds⟩
      · rw [hplay]
        rfl
    | none =>
      obtain ⟨⟨a, junk⟩, hm⟩ := isSome_iff_exists.mp (hfair.2 hheld)
      obtain ⟨entries, full', hrun, hholds'⟩ : ∃ entries full', s.table.hashEnter m key value =
          .ok (true, { s.table with entries := entries }) ∧ _ :=
        hholds.hashEnter_absent hi hindex hheld hm
      have hplay : play s.table s.live (.enter key value) =
          (.flag true, (key, value) :: s.live) := by
        rw [play, hheld]
      refine h.answer (a := .flag true) (by rw [perform, hrun]; rfl) ?_ ?_
      · rw [hplay]
        exact ⟨full', hholds'⟩
      · rw [hplay]
        rfl
  | remove key =>
    obtain ⟨i, hi, hindex⟩ := hinside key hfair
    cases hheld : held s.table key s.live with
    | some x =>
      obtain ⟨entries, full', hrun, hholds'⟩ := hholds.hashRemove_present hi hindex hheld
      refine h.answer (a := .flag true) (by rw [perform, hrun]; rfl) ⟨full', hholds'⟩ ?_
      rw [play, hheld]
      rfl
    | none =>
      have hrun := hholds.hashRemove_absent hi hindex hheld
      have hall : (s.live.filter fun x => !s.table.compare x.1 key) = s.live := by
        refine filter_eq_self.mpr fun x hx => ?_
        have hnot := find?_eq_none.mp hheld x hx
        rw [Bool.eq_false_iff.mpr hnot, Bool.not_false]
      refine h.answer (a := .flag false) (by rw [perform, hrun]; rfl) ?_ ?_
      · rw [play, hall]
        exact ⟨full, hholds⟩
      · rw [play, hheld]
        rfl
  | lookup key =>
    obtain ⟨i, hi, hindex⟩ := hinside key hfair
    have hrun := hholds.hashLookup_eq hi hindex
    refine h.answer (by rw [perform, hrun]; rfl) ⟨full, hholds⟩ ?_
    rw [play]
    rfl
  | apply =>
    obtain ⟨vs, hrun, hperm⟩ := hholds.hashApply_perm
    exact h.answer (a := .values vs) (by rw [perform, hrun]; rfl) ⟨full, hholds⟩ hperm

theorem Kept.hashed {key : HashKey} {x : EntryRef × Bool}
    (hfind : s.table.find key = .ok x) : Hashed s.table.hashfun s.buckets key := by
  obtain ⟨full, hholds⟩ := h.holds
  rw [h.buckets_eq, ← hholds.sized.index_mem_iff]
  exact hholds.index_of_find hfind

theorem Kept.fair (hnext : s.next (m, op) = some t) : s.Fair (m, op) := by
  have hrun : ∃ r, s.table.perform m op = .ok r := by
    rw [HashState.next] at hnext
    cases hperform : s.table.perform m op with
    | error e =>
      rw [hperform] at hnext
      cases hnext
    | ok r => exact ⟨r, rfl⟩
  obtain ⟨r, hrun⟩ := hrun
  cases op with
  | enter key value =>
    obtain ⟨p, henter, -⟩ := bind_eq_ok.mp hrun
    obtain ⟨x, hfind, henter⟩ := bind_eq_ok.mp henter
    have hhashed := h.hashed hfind
    refine ⟨hhashed, fun hheld => ?_⟩
    obtain ⟨full, hholds⟩ := h.holds
    rw [h.buckets_eq, ← hholds.sized.index_mem_iff] at hhashed
    obtain ⟨i, hi, hindex⟩ := hhashed
    rcases hholds.held_cases hi hindex with ⟨y, -, -, hsome⟩ | ⟨-, hnone⟩
    · rw [hheld] at hsome
      cases hsome
    · obtain ⟨L, r', b, -, hfind'⟩ := hholds.find_absent hi hindex hnone
      obtain rfl : x = (r', false) := Except.ok.inj (hfind.symm.trans hfind')
      cases hm : m.entry s.table.entries with
      | some a => rfl
      | none =>
        rw [hm] at henter
        cases henter
  | remove key =>
    obtain ⟨p, hremove, -⟩ := bind_eq_ok.mp hrun
    obtain ⟨x, hfind, -⟩ := bind_eq_ok.mp hremove
    exact h.hashed hfind
  | lookup key =>
    obtain ⟨v, hlookup, -⟩ := bind_eq_ok.mp hrun
    obtain ⟨x, hfind, -⟩ := bind_eq_ok.mp hlookup
    exact h.hashed hfind
  | apply => trivial

theorem Kept.admits {es : List (Malloc × HashOp)} (hrun : exec HashState.next s es = some t) :
    Admits HashState.next Fair s es := by
  induction es generalizing s with
  | nil => trivial
  | cons e es ih =>
    obtain ⟨m, op⟩ := e
    obtain ⟨u, hu, hrun⟩ := bind_eq_some_iff.mp hrun
    have hfair := h.fair hu
    obtain ⟨u', hu', hkept⟩ := h.next hfair
    obtain rfl : u = u' := some.inj (hu.symm.trans hu')
    refine ⟨hfair, fun v hv => ?_⟩
    obtain rfl : u = v := some.inj (hu.symm.trans hv)
    exact ih hkept hrun

theorem Kept.run {es : List (Malloc × HashOp)} (hfair : Admits HashState.next Fair s es) :
    ∃ t, exec HashState.next s es = some t ∧ t.Kept n := by
  induction es generalizing s with
  | nil => exact ⟨s, rfl, h⟩
  | cons e es ih =>
    obtain ⟨m, op⟩ := e
    obtain ⟨u, hu, hkept⟩ := h.next hfair.1
    obtain ⟨t, ht, hlast⟩ := ih hkept (hfair.2 u hu)
    exact ⟨t, by rw [exec, hu, bind_some, ht], hlast⟩

end

variable {hashfun : Option (HashKey → Int32)} {comparefun : Option (HashKey → HashKey → Bool)}
  {size : UInt32} {b : Blocks}

def runFrom (b : Blocks) (hashfun : Option (HashKey → Int32))
    (comparefun : Option (HashKey → HashKey → Bool)) (size : UInt32)
    (es : List (Malloc × HashOp)) : Option HashState :=
  match hashInit b hashfun comparefun size with
  | .error _ => none
  | .ok ht => exec next ⟨ht, [], []⟩ es

def FairFrom (b : Blocks) (hashfun : Option (HashKey → Int32))
    (comparefun : Option (HashKey → HashKey → Bool)) (size : UInt32)
    (es : List (Malloc × HashOp)) : Prop :=
  Granted b size ∧
    ∀ ht, hashInit b hashfun comparefun size = .ok ht → Admits next Fair ⟨ht, [], []⟩ es

/-- The callbacks of a table: the comparison is an equivalence, and what chooses the bucket is the
same for equivalent keys. -/
structure Callbacks (hashfun : Option (HashKey → Int32))
    (comparefun : Option (HashKey → HashKey → Bool)) (size : UInt32) : Prop where
  equiv : ∀ compare, comparefun = some compare → Equivalence fun a b => compare a b = true
  hash : ∀ compare, comparefun = some compare → ∀ hash, hashfun = some hash →
    ∀ a b, compare a b = true → hash a = hash b
  mask : ∀ compare, comparefun = some compare → hashfun = none →
    ∀ a b, compare a b = true → a &&& (size - 1).toInt32 = b &&& (size - 1).toInt32

theorem Callbacks.lawful (h : Callbacks hashfun comparefun size) (entries : Entries) :
    Lawful ⟨hashfun, comparefun, (size - 1).toInt32, entries⟩ := by
  cases hcompare : comparefun with
  | none =>
    refine ⟨⟨fun a => decide_eq_true rfl, fun {a b} hab => ?_, fun {a b c} hab hbc => ?_⟩,
      fun a b hab => ?_⟩
    · exact decide_eq_true (of_decide_eq_true hab).symm
    · exact decide_eq_true ((of_decide_eq_true hab).trans (of_decide_eq_true hbc))
    · rw [show a = b from of_decide_eq_true hab]
  | some compare =>
    refine ⟨h.equiv compare hcompare, fun a b hab => ?_⟩
    cases hhash : hashfun with
    | none =>
      have hmask := h.mask compare hcompare hhash a b hab
      simp only [index, hmask]
    | some hash =>
      have heq := h.hash compare hcompare hash hhash a b hab
      simp only [index, heq]

theorem kept_hashInit (hcallbacks : Callbacks hashfun comparefun size) (hgranted : Granted b size) :
    ∃ entries, hashInit b hashfun comparefun size =
        .ok ⟨hashfun, comparefun, (size - 1).toInt32, entries⟩ ∧
      Kept ⟨⟨hashfun, comparefun, (size - 1).toInt32, entries⟩, [], []⟩ size.toNat := by
  obtain ⟨entries, full, hinit, hrows, hempty⟩ : ∃ entries full,
      hashInit b hashfun comparefun size =
        .ok ⟨hashfun, comparefun, (size - 1).toInt32, entries⟩ ∧ _ := hashInit_eq hgranted
  refine ⟨entries, hinit, ⟨full, hrows, hcallbacks.lawful entries, fun x => ?_,
    Pairwise.nil⟩, fun p hp => ?_⟩
  · refine iff_of_false not_mem_nil ?_
    rintro ⟨i, -, hx⟩
    rw [hempty] at hx
    cases hx
  · cases hp

theorem fair_of_runFrom (hcallbacks : Callbacks hashfun comparefun size)
    {es : List (Malloc × HashOp)} (hrun : runFrom b hashfun comparefun size es = some s) :
    FairFrom b hashfun comparefun size es := by
  rw [runFrom] at hrun
  cases hok : hashInit b hashfun comparefun size with
  | error e =>
    rw [hok] at hrun
    cases hrun
  | ok ht =>
    have hgranted := hashInit_ok hok
    obtain ⟨entries, hinit, hkept⟩ := kept_hashInit hcallbacks hgranted
    refine ⟨hgranted, fun ht' hht' => ?_⟩
    cases hinit.symm.trans hht'
    rw [hinit] at hrun
    exact hkept.admits hrun

/-- The table is a finite map, its buckets are inside it and their links agree in both directions,
after a run exactly if every key of the run has a bucket and malloc refused nothing. -/
theorem hash_table_runs_iff (hcallbacks : Callbacks hashfun comparefun size)
    (es : List (Malloc × HashOp)) :
    (∃ s, runFrom b hashfun comparefun size es = some s ∧ s.Good) ↔
      FairFrom b hashfun comparefun size es := by
  constructor
  · rintro ⟨s, hrun, -⟩
    exact fair_of_runFrom hcallbacks hrun
  · rintro ⟨hgranted, hfair⟩
    obtain ⟨entries, hinit, hkept⟩ := kept_hashInit hcallbacks hgranted
    obtain ⟨t, ht, hlast⟩ := hkept.run (hfair _ hinit)
    exact ⟨t, by rw [runFrom, hinit]; exact ht, hlast.good⟩

end HashState

theorem hashed_accessTableHash_iff {id : HashKey} : Hashed (some accessTableHash) 128 id ↔
    0 ≤ id.toInt ∨ (128 : ℤ) ∣ (accessTableHash id).toInt := by
  have hsign : 0 ≤ (accessTableHash id).toInt ↔ 0 ≤ id.toInt := by
    rw [← Int32.toInt_toBitVec, ← Int32.toInt_toBitVec, accessTableHash, Int32.toBitVec_xor]
    have hmsb (x : BitVec 32) : 0 ≤ x.toInt ↔ x.msb = false := by
      rw [BitVec.msb_eq_toInt, decide_eq_false_iff_not, Int.not_lt]
    have hmask : (accessTableTableSize - 1).toInt32.toBitVec.msb = false := rfl
    rw [hmsb, hmsb, BitVec.msb_xor, hmask, Bool.xor_false]
  constructor
  · rintro ⟨-, h⟩
    exact (h accessTableHash rfl).imp_left hsign.mp
  · intro h
    refine ⟨by omega, fun hash heq => ?_⟩
    cases heq
    exact h.imp_left hsign.mpr

namespace Sample

def nodeAddr : EntryRef → Addr
  | .node a => a
  | .table _ => 0

def highest (h : Entries) : Addr := (h.keys.map nodeAddr).foldr max 0

theorem notMem_of_highest_lt (h : Entries) (a : Addr) (e : HashEntry)
    (ha : some (highest h + 1, (⟨0, 0, none, none⟩ : HashEntry)) = some (a, e)) :
    node a ∉ h := by
  intro hmem
  have hle (l : List EntryRef) (hl : .node a ∈ l) : a ≤ (l.map nodeAddr).foldr max 0 := by
    induction l with
    | nil => cases hl
    | cons r l ih =>
      rw [map_cons, foldr_cons]
      rcases mem_cons.mp hl with rfl | hl
      · exact le_max_left _ _
      · exact (ih hl).trans (le_max_right _ _)
  have hmax : a ≤ highest h := hle h.keys (mem_keys.mpr hmem)
  obtain rfl : highest h + 1 = a := congrArg Prod.fst (some.inj ha)
  exact Nat.not_succ_le_self _ hmax

def malloc : Malloc where
  entry h := some (highest h + 1, ⟨0, 0, none, none⟩)
  fresh := notMem_of_highest_lt

def blocks : Blocks := ⟨true, some fun _ => ⟨7, 7, none, none⟩⟩

theorem granted_blocks {size : UInt32} (h : size.toNat < 2 ^ 28) : Granted blocks size :=
  ⟨rfl, fun _ => rfl, h⟩

end Sample

namespace HashState

theorem callbacks_accessTable : Callbacks (some accessTableHash) (some accessTableCompare)
    accessTableTableSize := by
  have hequiv : Equivalence fun a b => accessTableCompare a b = true := by
    refine ⟨fun a => decide_eq_true rfl, fun {a b} hab => ?_, fun {a b c} hab hbc => ?_⟩
    · exact decide_eq_true (of_decide_eq_true hab).symm
    · exact decide_eq_true ((of_decide_eq_true hab).trans (of_decide_eq_true hbc))
  refine ⟨fun compare hcompare => ?_, fun compare hcompare hash _ a b hab => ?_,
    fun _ _ hnone => ?_⟩
  · cases hcompare
    exact hequiv
  · cases hcompare
    rw [show a = b from of_decide_eq_true hab]
  · cases hnone

theorem hash_table_runs_two : ∃ s, runFrom Sample.blocks none none 2
    [(Sample.malloc, .enter 5 9), (Sample.malloc, .lookup 5)] = some s ∧ s.Good := by
  have hcallbacks : Callbacks none none 2 := by
    constructor <;> simp
  refine (hash_table_runs_iff hcallbacks _).mpr ⟨Sample.granted_blocks (by decide), fun ht hinit => ?_⟩
  cases hinit
  refine ⟨⟨⟨by decide, by simp⟩, fun _ => rfl⟩, fun s hs => ?_⟩
  cases hs
  exact ⟨⟨by decide, by simp⟩, fun _ _ => trivial⟩

theorem negative_hash_outside :
    Callbacks (some accessTableHash) (some accessTableCompare) accessTableTableSize ∧
    Granted Sample.blocks accessTableTableSize ∧
    runFrom Sample.blocks (some accessTableHash) (some accessTableCompare) accessTableTableSize
      [(Sample.malloc, .lookup (-2))] = none := by
  refine ⟨callbacks_accessTable, Sample.granted_blocks (by decide), ?_⟩
  rw [eq_none_iff_forall_ne_some]
  intro s hrun
  have hfair := fair_of_runFrom callbacks_accessTable hrun
  obtain ⟨entries, hinit, -⟩ : ∃ entries, hashInit Sample.blocks (some accessTableHash)
      (some accessTableCompare) accessTableTableSize = .ok ⟨_, _, _, entries⟩ ∧ _ :=
    kept_hashInit callbacks_accessTable hfair.1
  have hhashed : Hashed (some accessTableHash) 128 (-2) := (hfair.2 _ hinit).1
  rw [hashed_accessTableHash_iff] at hhashed
  revert hhashed
  decide

end HashState

end MachUS.Hash
