import MachUS.Hash.HashRuns

namespace MachUS.Hash

open Outcome List HashTable Bool

variable {ht : HashTable} {n i : ℕ} {full : ℕ → Row} {key : HashKey} {value : HashValue}
  {es : Pairs} {m : Malloc} {l : Row} {r : EntryRef}

theorem seekIn_eq (same : HashKey → Bool) : seekIn same r l =
    match l.find? fun x => same x.2.key with
    | some x => (x.1, true)
    | none => ((r :: l.map Prod.fst).getLast (cons_ne_nil _ _), false) := by
  induction l generalizing r with
  | nil => rfl
  | cons x l ih =>
    rw [seekIn, find?_cons]
    cases hx : same x.2.key with
    | true => rfl
    | false =>
      rw [if_neg Bool.false_ne_true, ih]
      rfl

theorem find?_pairs : (pairs l).find? (fun x => ht.compare x.1 key) =
    (l.tail.find? fun x => ht.compare x.2.key key).map kv := by
  rw [pairs, ← map_tail, find?_map]
  rfl

theorem Rows.hashLookup_first (h : Rows ht n full) (hi : i < n)
    (hindex : ht.index key = .ok (i : ℤ)) : ht.hashLookup key =
      .ok ((((pairs (full i)).find? fun x => ht.compare x.1 key).map Prod.snd).getD 0) := by
  rw [hashLookup, h.find_eq hi hindex, ok_bind, seekIn_eq, find?_pairs]
  cases hfind : (full i).tail.find? fun x => ht.compare x.2.key key with
  | none => rfl
  | some x =>
    have hx : x ∈ full i := mem_of_mem_tail (mem_of_find?_eq_some hfind)
    have hlook := (h.doubly i hi).along.heap_eq x hx
    simp only [if_true, Entries.deref_of_lookup hlook, ok_bind]
    rfl

def HashTable.takes (ht : HashTable) (i : ℕ) (key : HashKey) (x : HashKey × HashValue) : Bool :=
  decide (ht.index x.1 = .ok (i : ℤ)) && ht.compare x.1 key

/-- After the entries were entered in this order, each key finds the first of its bucket that the
table's comparison takes for it. -/
structure Filed (ht : HashTable) (n : ℕ) (es : Pairs) : Prop where
  trans : ∀ a b c, ht.compare a b = true → ht.compare b c = true → ht.compare a c = true
  rows : ∃ full, Rows ht n full ∧ ∀ i < n, ∀ key, ht.index key = .ok (i : ℤ) →
    (pairs (full i)).find? (fun x => ht.compare x.1 key) = es.find? (ht.takes i key)

namespace Filed

section

variable (h : Filed ht n es)

include h

theorem hashLookup_eq (hi : i < n) (hindex : ht.index key = .ok (i : ℤ)) :
    ht.hashLookup key = .ok (((es.find? (ht.takes i key)).map Prod.snd).getD 0) := by
  obtain ⟨full, hrows, hfirst⟩ := h.rows
  rw [hrows.hashLookup_first hi hindex, hfirst i hi key hindex]

theorem takes_key (hindex : ht.index key = .ok (i : ℤ))
    {x : HashKey × HashValue} (hx : ht.takes i key x = true) {j : ℕ} {key' : HashKey}
    (hkey : ht.takes j key' (key, value) = true) : ht.takes j key' x = true := by
  simp only [takes, and_eq_true, decide_eq_true_eq] at hx hkey ⊢
  exact ⟨hx.1.trans (hindex.symm.trans hkey.1), h.trans _ _ _ hx.2 hkey.2⟩

theorem hashEnter_eq (value : HashValue) (hi : i < n) (hindex : ht.index key = .ok (i : ℤ))
    (hm : es.find? (ht.takes i key) = none → (m.entry ht.entries).isSome = true) : ∃ entries,
    ht.hashEnter m key value =
        .ok ((es.find? (ht.takes i key)).isNone, { ht with entries := entries }) ∧
      Filed { ht with entries := entries } n (es ++ [(key, value)]) := by
  obtain ⟨full, hrows, hfirst⟩ := h.rows
  have hkey := hfirst i hi key hindex
  cases hfind : es.find? (ht.takes i key) with
  | some x =>
    rw [hfind, find?_pairs, Option.map_eq_some_iff] at hkey
    obtain ⟨y, hy, rfl⟩ := hkey
    refine ⟨ht.entries, ?_, h.trans, full, hrows, fun j hj key' hindex' => ?_⟩
    · rw [hashEnter, hrows.find_eq hi hindex, ok_bind, seekIn_eq, hy]
      rfl
    · rw [hfirst j hj key' hindex', find?_append]
      cases hother : es.find? (ht.takes j key') with
      | some z => rfl
      | none =>
        have hlast : ht.takes j key' (key, value) = false := eq_false_iff.mpr fun hlast =>
          find?_eq_none.mp hother _ (mem_of_find?_eq_some hfind)
            (h.takes_key hindex (find?_some hfind) hlast)
        exact (find?_singleton.trans (if_neg (eq_false_iff.mp hlast))).symm
  | none =>
    rw [hfind] at hkey
    obtain ⟨⟨a, junk⟩, ha⟩ := Option.isSome_iff_exists.mp (hm hfind)
    have hnone : ∀ x ∈ pairs (full i), ht.compare x.1 key = false := by
      intro x hx
      exact eq_false_iff.mpr (find?_eq_none.mp hkey x hx)
    obtain ⟨L, r, b, hsplit, hseek⟩ := hrows.find_absent hi hindex hnone
    obtain ⟨entries, full', happend, hrows', hpairs, hsame⟩ : ∃ entries full',
        ht.entries.append r a junk key value = .ok entries ∧
          Rows { ht with entries := entries } n full' ∧ _ :=
      hrows.append hi hsplit (m.fresh _ _ _ ha) hindex hnone
    refine ⟨entries, ?_, h.trans, full', hrows', fun j hj key' hindex' => ?_⟩
    · rw [hashEnter, hseek, ok_bind]
      simp only [false_eq_true, if_false, ha, happend, ok_bind]
      rfl
    · have hold := hfirst j hj key' hindex'
      rw [find?_append]
      rcases eq_or_ne j i with rfl | hji
      · have hlast : ht.takes j key' (key, value) = ht.compare key key' := by
          simp [takes, hindex]
        rw [hpairs, find?_append]
        refine congrArg₂ Option.or hold ?_
        refine find?_singleton.trans (Eq.trans ?_ find?_singleton.symm)
        exact congrArg (fun b : Bool => if b = true then some (key, value) else none) hlast.symm
      · have hlast : ht.takes j key' (key, value) = false := by
          have hne : (Except.ok (i : ℤ) : Outcome ℤ) ≠ .ok (j : ℤ) := fun heq =>
            hji (Int.ofNat_inj.mp (Except.ok.inj heq)).symm
          rw [takes, hindex, decide_eq_false hne, Bool.false_and]
        rw [hsame j hji]
        refine hold.trans (Option.or_none.symm.trans (congrArg _ ?_))
        exact (find?_singleton.trans (if_neg (eq_false_iff.mp hlast))).symm

theorem hashEnter_ok {b : Bool} {ht' : HashTable}
    (hok : ht.hashEnter m key value = .ok (b, ht')) : ∃ i < n, ht.index key = .ok (i : ℤ) ∧
    b = (es.find? (ht.takes i key)).isNone ∧ (∃ entries, ht' = { ht with entries := entries }) ∧
    Filed ht' n (es ++ [(key, value)]) := by
  obtain ⟨full, hrows, hfirst⟩ := h.rows
  obtain ⟨x, hfind, hrest⟩ := bind_eq_ok.mp hok
  obtain ⟨i, hi, hindex⟩ := hrows.index_of_find hfind
  have hm (hnone : es.find? (ht.takes i key) = none) : (m.entry ht.entries).isSome = true := by
    have hbucket := (hfirst i hi key hindex).trans hnone
    obtain ⟨L, r, b, -, hseek⟩ := hrows.find_absent hi hindex fun x hx =>
      eq_false_iff.mpr (find?_eq_none.mp hbucket x hx)
    cases hfind.symm.trans hseek
    cases ha : m.entry ht.entries with
    | some a => rfl
    | none =>
      rw [ha] at hrest
      cases hrest
  obtain ⟨entries, henter, hfiled⟩ := h.hashEnter_eq value hi hindex hm
  cases Except.ok.inj (hok.symm.trans henter)
  exact ⟨i, hi, hindex, rfl, ⟨entries, rfl⟩, hfiled⟩

theorem congr {es' : Pairs} (hes : ∀ p, es.find? p = es'.find? p) : Filed ht n es' := by
  obtain ⟨full, hrows, hfirst⟩ := h.rows
  exact ⟨h.trans, full, hrows, fun i hi key hindex => (hfirst i hi key hindex).trans (hes _)⟩

end

theorem init {b : Blocks} {size : UInt32} {hashfun : Option (HashKey → Int32)}
    {comparefun : Option (HashKey → HashKey → Bool)}
    (htrans : ∀ ht : HashTable, ht.hashcompare = comparefun → ∀ a b c,
      ht.compare a b = true → ht.compare b c = true → ht.compare a c = true)
    (hinit : hashInit b hashfun comparefun size = .ok ht) : ht.hashfun = hashfun ∧
      ht.hashcompare = comparefun ∧ ht.length = (size - 1).toInt32 ∧ Filed ht size.toNat [] := by
  obtain ⟨entries, full, heq, hrows, hempty⟩ : ∃ entries full,
      hashInit b hashfun comparefun size =
        .ok ⟨hashfun, comparefun, (size - 1).toInt32, entries⟩ ∧ _ := hashInit_eq (hashInit_ok hinit)
  cases hinit.symm.trans heq
  refine ⟨rfl, rfl, rfl, htrans _ rfl, full, hrows, fun i hi key hindex => ?_⟩
  rw [hempty]
  rfl

end Filed

end MachUS.Hash
