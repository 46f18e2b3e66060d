import MachUS.Hash.Buckets

namespace MachUS.Hash

open Outcome List HashTable Bool

abbrev Pairs := List (HashKey × HashValue)

namespace HashTable

structure Lawful (ht : HashTable) : Prop where
  equiv : Equivalence fun a b => ht.compare a b = true
  respects : ∀ a b, ht.compare a b = true → ht.index a = ht.index b

def Apart (ht : HashTable) (x y : HashKey × HashValue) : Prop := ht.compare x.1 y.1 = false

theorem Lawful.apart_symm {ht : HashTable} (h : ht.Lawful) {x y : HashKey × HashValue}
    (hxy : ht.Apart x y) : ht.Apart y x := by
  refine eq_false_iff.mpr fun hyx => ?_
  exact false_ne_true (hxy.symm.trans (h.equiv.symm hyx))

end HashTable

variable {ht : HashTable} {n i : ℕ} {full : ℕ → Row} {key : HashKey} {value : HashValue}
  {live : Pairs} {x : HashKey × HashValue} {m : Malloc}

def held (ht : HashTable) (key : HashKey) (live : Pairs) : Option (HashKey × HashValue) :=
  live.find? fun x => ht.compare x.1 key

structure Holds (ht : HashTable) (n : ℕ) (full : ℕ → Row) (live : Pairs) : Prop extends
    Rows ht n full where
  lawful : ht.Lawful
  mem_iff : ∀ x, x ∈ live ↔ ∃ i < n, x ∈ pairs (full i)
  apart : live.Pairwise ht.Apart

namespace Holds

section

variable (h : Holds ht n full live)

include h

theorem mem_bucket_iff (hi : i < n) (hindex : ht.index key = .ok (i : ℤ))
    (hsame : ht.compare x.1 key = true) : x ∈ live ↔ x ∈ pairs (full i) := by
  rw [h.mem_iff]
  refine ⟨fun hex => ?_, fun hx => ⟨i, hi, hx⟩⟩
  obtain ⟨j, hj, hx⟩ := hex
  have hhome := h.home j hj x hx
  rw [h.lawful.respects _ _ hsame, hindex] at hhome
  obtain rfl : i = j := Int.ofNat_inj.mp (Except.ok.inj hhome)
  exact hx

theorem held_eq (hx : x ∈ live) (hsame : ht.compare x.1 key = true) :
    held ht key live = some x := by
  cases hfind : held ht key live with
  | none => exact absurd hsame (find?_eq_none.mp hfind x hx)
  | some y =>
    have hy : y ∈ live := mem_of_find?_eq_some hfind
    have hykey : ht.compare y.1 key = true := (find?_eq_some_iff_append.mp hfind).1
    by_contra hne
    have hyx : y ≠ x := fun heq => hne (congrArg some heq)
    have : Std.Symm ht.Apart := ⟨fun _ _ => h.lawful.apart_symm⟩
    have happart := h.apart.forall hy hx hyx
    have htrue := h.lawful.equiv.trans hykey (h.lawful.equiv.symm hsame)
    exact false_ne_true (happart.symm.trans htrue)

theorem held_cases (hi : i < n) (hindex : ht.index key = .ok (i : ℤ)) :
    (∃ x ∈ pairs (full i), ht.compare x.1 key = true ∧ held ht key live = some x) ∨
      (held ht key live = none ∧ ∀ x ∈ pairs (full i), ht.compare x.1 key = false) := by
  by_cases hex : ∃ x ∈ pairs (full i), ht.compare x.1 key = true
  · obtain ⟨x, hx, hsame⟩ := hex
    have hlive := (h.mem_bucket_iff hi hindex hsame).mpr hx
    exact Or.inl ⟨x, hx, hsame, h.held_eq hlive hsame⟩
  · refine Or.inr ⟨find?_eq_none.mpr fun x hx hsame => hex ?_, fun x hx => ?_⟩
    · exact ⟨x, (h.mem_bucket_iff hi hindex hsame).mp hx, hsame⟩
    · exact eq_false_iff.mpr fun hsame => hex ⟨x, hx, hsame⟩

theorem hashLookup_eq (hi : i < n) (hindex : ht.index key = .ok (i : ℤ)) :
    ht.hashLookup key = .ok (((held ht key live).map Prod.snd).getD 0) := by
  rcases h.held_cases hi hindex with ⟨x, hx, hsame, hheld⟩ | ⟨hheld, hnone⟩
  · obtain ⟨L, r, b, c, e, M, hsplit, rfl, hfind⟩ :=
      h.find_found hi hindex h.lawful.equiv hx hsame
    have hc : ht.entries.lookup c = some e :=
      (h.doubly i hi).along.heap_eq (c, e) (by simp [hsplit])
    rw [hashLookup, hfind, ok_bind, hheld]
    simp only [if_true, Entries.deref_of_lookup hc, ok_bind]
    rfl
  · obtain ⟨L, r, b, hsplit, hfind⟩ := h.find_absent hi hindex hnone
    rw [hashLookup, hfind, ok_bind, hheld]
    rfl

theorem hashEnter_present (hi : i < n)
    (hindex : ht.index key = .ok (i : ℤ)) (hheld : held ht key live = some x) :
    ht.hashEnter m key value = .ok (false, ht) := by
  rcases h.held_cases hi hindex with ⟨y, hy, hsame, -⟩ | ⟨hnone, -⟩
  · obtain ⟨L, r, b, c, e, M, -, -, hfind⟩ := h.find_found hi hindex h.lawful.equiv hy hsame
    rw [hashEnter, hfind]
    rfl
  · rw [hnone] at hheld
    cases hheld

theorem hashEnter_absent (hi : i < n)
    (hindex : ht.index key = .ok (i : ℤ)) (hheld : held ht key live = none) {a : Addr}
    {junk : HashEntry} (hm : m.entry ht.entries = some (a, junk)) : ∃ entries full',
    ht.hashEnter m key value = .ok (true, { ht with entries := entries }) ∧
      Holds { ht with entries := entries } n full' ((key, value) :: live) := by
  have hnone : ∀ x ∈ pairs (full i), ht.compare x.1 key = false := by
    rcases h.held_cases hi hindex with ⟨x, -, -, hsome⟩ | ⟨-, hnone⟩
    · rw [hheld] at hsome
      cases hsome
    · exact hnone
  obtain ⟨L, r, b, hsplit, hfind⟩ := h.find_absent hi hindex hnone
  obtain ⟨entries, full', heq, hrows, hpairs, hother⟩ : ∃ entries full',
      ht.entries.append r a junk key value = .ok entries ∧ _ :=
    h.append hi hsplit (m.fresh _ _ _ hm) hindex hnone
  refine ⟨entries, full', ?_, ⟨hrows, ⟨h.lawful.equiv, h.lawful.respects⟩, fun x => ?_, ?_⟩⟩
  · rw [hashEnter, hfind]
    simp only [ok_bind, hm, heq, false_eq_true, if_false]
  · rw [mem_cons, h.mem_iff]
    constructor
    · rintro (rfl | ⟨j, hj, hx⟩)
      · exact ⟨i, hi, by simp [hpairs]⟩
      · refine ⟨j, hj, ?_⟩
        by_cases hji : j = i
        · subst hji
          exact hpairs ▸ mem_append_left _ hx
        · rwa [hother j hji]
    · rintro ⟨j, hj, hx⟩
      by_cases hji : j = i
      · subst hji
        rw [hpairs, mem_append, mem_singleton] at hx
        exact hx.symm.imp_right fun hx => ⟨j, hj, hx⟩
      · rw [hother j hji] at hx
        exact Or.inr ⟨j, hj, hx⟩
  · refine pairwise_cons.mpr ⟨fun y hy => ?_, h.apart⟩
    have hy' := find?_eq_none.mp hheld y hy
    exact h.lawful.apart_symm (eq_false_iff.mpr hy')

theorem hashRemove_absent (hi : i < n)
    (hindex : ht.index key = .ok (i : ℤ)) (hheld : held ht key live = none) :
    ht.hashRemove key = .ok (false, ht) := by
  rcases h.held_cases hi hindex with ⟨x, -, -, hsome⟩ | ⟨-, hnone⟩
  · rw [hheld] at hsome
    cases hsome
  · obtain ⟨L, r, b, hsplit, hfind⟩ := h.find_absent hi hindex hnone
    rw [hashRemove, hfind]
    rfl

theorem hashRemove_present (hi : i < n)
    (hindex : ht.index key = .ok (i : ℤ)) (hheld : held ht key live = some x) :
    ∃ entries full', ht.hashRemove key = .ok (true, { ht with entries := entries }) ∧
      Holds { ht with entries := entries } n full' (live.filter fun y => !ht.compare y.1 key) := by
  obtain ⟨hx, hsame⟩ : x ∈ pairs (full i) ∧ ht.compare x.1 key = true := by
    rcases h.held_cases hi hindex with ⟨y, hy, hsame, hsome⟩ | ⟨hnone, -⟩
    · obtain rfl : x = y := Option.some.inj (hheld.symm.trans hsome)
      exact ⟨hy, hsame⟩
    · rw [hnone] at hheld
      cases hheld
  obtain ⟨L, r, b, c, e, M, hsplit, rfl, hfind⟩ := h.find_found hi hindex h.lawful.equiv hx hsame
  obtain ⟨entries, full', heq, hrows, ⟨A, B, hold, hnew⟩, hother⟩ := h.unlink hi hsplit
  have hdistinct : (pairs (full i)).Pairwise ht.Apart := h.distinct i hi
  rw [hold, pairwise_middle h.lawful.apart_symm, pairwise_cons] at hdistinct
  have hapart (y : HashKey × HashValue) (hy : y ∈ A ++ B) : ht.compare y.1 key = false := by
    refine eq_false_iff.mpr fun hykey => ?_
    have htrue := h.lawful.equiv.trans hsame (h.lawful.equiv.symm hykey)
    exact false_ne_true ((hdistinct.1 y hy).symm.trans htrue)
  refine ⟨entries, full', ?_, ⟨hrows, ⟨h.lawful.equiv, h.lawful.respects⟩, fun y => ?_,
    h.apart.sublist filter_sublist⟩⟩
  · rw [hashRemove, hfind]
    simp only [ok_bind, heq, if_true]
  · rw [mem_filter, h.mem_iff, not_eq_true']
    constructor
    · rintro ⟨⟨j, hj, hy⟩, hykey⟩
      refine ⟨j, hj, ?_⟩
      by_cases hji : j = i
      · subst hji
        rw [hold, mem_append, mem_cons] at hy
        rw [hnew, mem_append]
        rcases hy with hy | rfl | hy
        · exact Or.inl hy
        · rw [hsame] at hykey
          cases hykey
        · exact Or.inr hy
      · rwa [hother j hji]
    · rintro ⟨j, hj, hy⟩
      by_cases hji : j = i
      · subst hji
        rw [hnew] at hy
        refine ⟨⟨j, hj, ?_⟩, hapart y hy⟩
        rw [hold]
        exact ((sublist_cons_self _ _).append_left A).subset hy
      · rw [hother j hji] at hy
        refine ⟨⟨j, hj, hy⟩, eq_false_iff.mpr fun hykey => hji ?_⟩
        have hhome := h.home j hj y hy
        rw [h.lawful.respects _ _ hykey, hindex] at hhome
        exact (Int.ofNat_inj.mp (Except.ok.inj hhome)).symm

theorem applyFrom_eq {is : List ℕ} (his : ∀ i ∈ is, i < n) :
    ht.applyFrom is = .ok (is.flatMap fun i => (pairs (full i)).map Prod.snd) := by
  induction is with
  | nil => rfl
  | cons i is ih =>
    have hi := his i mem_cons_self
    obtain ⟨b, l, hl⟩ := h.exists_head hi
    have halong := (h.doubly i hi).along
    have hlen := Entries.length_le halong
    rw [hl] at halong hlen
    rw [length_cons] at hlen
    have hvalues : ht.entries.values ht.entries.keys.length b.next =
        .ok (l.map fun x => x.2.value) := Entries.values_eq halong.2.2 (by omega)
    have hpairs : (pairs (full i)).map Prod.snd = l.map fun x => x.2.value := by
      rw [hl, pairs, map_cons, tail_cons, map_map]
      rfl
    rw [applyFrom, Entries.deref_of_lookup halong.2.1, ok_bind, hvalues,
      ok_bind, ih fun j hj => his j (mem_cons_of_mem _ hj), ok_bind,
      flatMap_cons, hpairs]

theorem hashApply_perm : ∃ vs, ht.hashApply = .ok vs ∧ vs.Perm (live.map Prod.snd) := by
  have hall : ∀ i ∈ range n, i < n := fun i hi => mem_range.mp hi
  have hself (x : HashKey × HashValue) : ¬ht.Apart x x := fun hx =>
    false_ne_true (hx.symm.trans (h.lawful.equiv.refl x.1))
  have hnodup {l : Pairs} (hl : l.Pairwise ht.Apart) : l.Nodup := by
    refine hl.imp fun {x y} hxy => ?_
    rintro rfl
    exact hself _ hxy
  have hbuckets : ((range n).flatMap fun i => pairs (full i)).Nodup := by
    refine nodup_flatMap.mpr ⟨fun i hi => hnodup (h.distinct i (hall i hi)), ?_⟩
    refine nodup_range.imp_of_mem fun {i j} hi hj hij x hxi hxj => hij ?_
    have hhome := h.home i (hall i hi) x hxi
    rw [h.home j (hall j hj) x hxj] at hhome
    exact (Int.ofNat_inj.mp (Except.ok.inj hhome)).symm
  have hperm : ((range n).flatMap fun i => pairs (full i)).Perm live := by
    refine (perm_ext_iff_of_nodup hbuckets (hnodup h.apart)).mpr fun x => ?_
    rw [h.mem_iff, mem_flatMap]
    exact exists_congr fun i => and_congr_left fun _ => mem_range
  refine ⟨(range n).flatMap fun i => (pairs (full i)).map Prod.snd, ?_, ?_⟩
  · rw [hashApply, h.sized.succ_toInt, Int.toNat_natCast]
    exact h.applyFrom_eq hall
  · rw [← map_flatMap]
    exact hperm.map Prod.snd

end

end Holds

end MachUS.Hash
