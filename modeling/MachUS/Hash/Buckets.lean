import MachUS.Foundation.Program
import MachUS.Hash.HashTable
import Mathlib.Algebra.Group.Nat.Defs
import Mathlib.Data.List.Perm.Subperm

namespace MachUS.Hash

open Chain Function Outcome HashEntry Entries EntryRef Option Nat Int

abbrev Row := List (EntryRef × HashEntry)

section Links

variable {h : Entries} {r c : EntryRef} {e : HashEntry} {l l₁ l₂ : Row} {p : Option EntryRef}
  {same : HashKey → Bool} {fuel n : ℕ} {key : HashKey} {value : HashValue}

namespace Entries

theorem deref_of_lookup (he : h.lookup r = some e) : h.deref r = .ok e := by
  rw [deref, he]

theorem deref_eq_ok : h.deref r = .ok e ↔ h.lookup r = some e := by
  rw [deref]
  cases h.lookup r <;> simp

theorem write_of_lookup (he : h.lookup r = some e) (f : HashEntry → HashEntry) :
    h.write r f = .ok (h.insert r (f e)) := by
  rw [write, deref_of_lookup he]
  rfl

theorem lookup_insert (h : Entries) (r : EntryRef) (e : HashEntry) :
    (h.insert r e).lookup = update h.lookup r (some e) := by
  funext r'
  by_cases hr : r' = r
  · subst hr
    rw [AList.lookup_insert, update_self]
  · rw [AList.lookup_insert_ne hr, update_of_ne hr]

theorem lookup_erase (h : Entries) (r : EntryRef) :
    (h.erase r).lookup = update h.lookup r none := by
  funext r'
  by_cases hr : r' = r
  · subst hr
    rw [AList.lookup_erase, update_self]
  · rw [AList.lookup_erase_ne hr, update_of_ne hr]

theorem length_le (hl : Along next h.lookup p l none) : l.length ≤ h.keys.length := by
  have hsub : keys l ⊆ h.keys := by
    intro r hr
    obtain ⟨x, hx, rfl⟩ := List.mem_map.mp hr
    have hsome := hl.heap_eq x hx
    rw [← AList.mem_keys, ← AList.lookup_isSome, hsome, isSome_some]
  have hlen := (List.subperm_of_subset hl.nodup hsub).length_le
  rwa [keys, List.length_map] at hlen

end Entries

def seekIn (same : HashKey → Bool) : EntryRef → Row → EntryRef × Bool
  | r, [] => (r, false)
  | _, x :: l => if same x.2.key then (x.1, true) else seekIn same x.1 l

theorem Entries.seek_eq (hl : Along next h.lookup (some r) ((r, e) :: l) none)
    (hfuel : l.length < fuel) : h.seek same fuel r = .ok (seekIn same r l) := by
  induction l generalizing fuel r e with
  | nil =>
    obtain ⟨fuel, rfl⟩ := Nat.exists_eq_add_of_lt hfuel
    have hnext : e.next = none := hl.2.2
    rw [seek, deref_of_lookup hl.2.1, ok_bind, hnext]
    rfl
  | cons x l ih =>
    obtain ⟨fuel, rfl⟩ : ∃ k, fuel = k + 1 := exists_eq_add_one.mpr (zero_lt_of_lt hfuel)
    have hnext : e.next = some x.1 := hl.2.2.1
    have htail : Along next h.lookup (some x.1) ((x.1, x.2) :: l) none :=
      ⟨rfl, hl.2.2.2⟩
    have hrest := ih htail (lt_of_succ_lt_succ hfuel)
    rw [seek, deref_of_lookup hl.2.1, ok_bind, hnext]
    simp only [deref_of_lookup htail.2.1, ok_bind, seekIn, hrest]
    split_ifs <;> rfl

theorem seekIn_found {x : EntryRef × HashEntry} (hl : ∀ y ∈ l₁, same y.2.key = false)
    (hx : same x.2.key = true) : seekIn same r (l₁ ++ x :: l₂) = (x.1, true) := by
  induction l₁ generalizing r with
  | nil => rw [List.nil_append, seekIn, if_pos hx]
  | cons y l₁ ih =>
    have hy := hl y List.mem_cons_self
    rw [List.cons_append, seekIn, hy, if_neg Bool.false_ne_true]
    exact ih fun z hz => hl z (List.mem_cons_of_mem _ hz)

theorem seekIn_absent (hl : ∀ y ∈ l, same y.2.key = false) :
    ∃ L b, (r, e) :: l = L ++ [((seekIn same r l).1, b)] ∧ (seekIn same r l).2 = false := by
  induction l generalizing r e with
  | nil => exact ⟨[], e, rfl, rfl⟩
  | cons y l ih =>
    have hy := hl y List.mem_cons_self
    obtain ⟨L, b, heq, hnot⟩ :=
      ih (r := y.1) (e := y.2) fun z hz => hl z (List.mem_cons_of_mem _ hz)
    rw [seekIn, hy, if_neg Bool.false_ne_true]
    exact ⟨(r, e) :: L, b, by rw [List.cons_append, ← heq], hnot⟩

theorem Entries.values_eq (hl : Along next h.lookup p l none) (hfuel : l.length ≤ fuel) :
    h.values fuel p = .ok (l.map fun x => x.2.value) := by
  induction l generalizing fuel p with
  | nil =>
    obtain rfl : p = none := hl
    cases fuel <;> rfl
  | cons x l ih =>
    obtain ⟨fuel, rfl⟩ : ∃ k, fuel = k + 1 := exists_eq_add_one.mpr (zero_lt_of_lt hfuel)
    obtain ⟨rfl, hx, hl⟩ := hl
    rw [values, deref_of_lookup hx, ok_bind, ih hl (le_of_succ_le_succ hfuel)]
    rfl

end Links

theorem and_toInt {a b : Int32} (hb : 0 ≤ b.toInt) :
    0 ≤ (a &&& b).toInt ∧ (a &&& b).toInt ≤ b.toInt := by
  rw [← Int32.toInt_toBitVec] at hb
  rw [← Int32.toInt_toBitVec, ← Int32.toInt_toBitVec, Int32.toBitVec_and]
  have hmsb : b.toBitVec.msb = false := by
    rw [BitVec.msb_eq_toInt]
    exact decide_eq_false (Int.not_lt.mpr hb)
  have hand : (a.toBitVec &&& b.toBitVec).msb = false := by
    rw [BitVec.msb_and, hmsb, Bool.and_false]
  rw [BitVec.toInt_eq_toNat_of_msb hmsb, BitVec.toInt_eq_toNat_of_msb hand, BitVec.toNat_and]
  have hle : a.toBitVec.toNat &&& b.toBitVec.toNat ≤ b.toBitVec.toNat := and_le_right
  omega

theorem size_sub_one {size : UInt32} (h : size.toNat < 2 ^ 28) :
    (size - 1).toInt32.toInt = size.toNat - 1 := by
  have hsize : size.toBitVec.toInt = size.toNat := by
    rw [BitVec.toInt_eq_toNat_of_lt]
    · rfl
    · show 2 * size.toNat < 2 ^ 32
      omega
  have hsub : (size - 1).toInt32.toInt = (size.toBitVec - 1).toInt := rfl
  have hone : (1 : BitVec 32).toInt = 1 := rfl
  rw [hsub, BitVec.toInt_sub, hsize, hone]
  apply bmod_eq_of_le
  · omega
  · omega

def Hashed (hashfun : Option (HashKey → Int32)) (n : ℕ) (key : HashKey) : Prop :=
  0 < n ∧ ∀ hash, hashfun = some hash → 0 ≤ (hash key).toInt ∨ (n : ℤ) ∣ (hash key).toInt

theorem tmod_nonneg_iff {a : ℤ} {n : ℕ} : 0 ≤ a.tmod n ↔ 0 ≤ a ∨ (n : ℤ) ∣ a := by
  constructor
  · intro h
    by_cases ha : 0 ≤ a
    · exact Or.inl ha
    · have hneg : (-a).tmod n = -a.tmod n := neg_tmod a n
      have hpos : 0 ≤ (-a).tmod n := tmod_nonneg n (by omega)
      exact Or.inr (Int.dvd_iff_tmod_eq_zero.mpr (by omega))
  · rintro (ha | hdvd)
    · exact tmod_nonneg n ha
    · exact Int.le_of_eq (Int.dvd_iff_tmod_eq_zero.mp hdvd).symm

namespace HashTable

variable {ht : HashTable} {key : HashKey} {n : ℕ}

def Sized (ht : HashTable) (n : ℕ) : Prop := ht.length.toInt = n - 1 ∧ n < 2 ^ 28

theorem Sized.succ_toInt (h : ht.Sized n) : (ht.length + 1).toInt = n := by
  obtain ⟨hlen, hn⟩ := h
  have hone : (1 : Int32).toInt = 1 := rfl
  rw [Int32.toInt_add, hlen, hone, Int.sub_add_cancel]
  apply bmod_eq_of_le
  · omega
  · omega

theorem Sized.succ_eq_zero (h : ht.Sized n) : ht.length + 1 = 0 ↔ n = 0 := by
  have hzero : (0 : Int32).toInt = 0 := rfl
  rw [← Int32.toInt_inj, h.succ_toInt, hzero]
  exact natCast_eq_zero

theorem Sized.index_mem_iff (h : ht.Sized n) :
    (∃ i < n, ht.index key = .ok (i : ℤ)) ↔ Hashed ht.hashfun n key := by
  rw [index, Hashed]
  cases hfun : ht.hashfun with
  | none =>
    simp only [Except.ok.injEq, reduceCtorEq, false_implies, implies_true, and_true]
    constructor
    · rintro ⟨i, hi, -⟩
      exact zero_lt_of_lt hi
    · intro hn
      have hlen := h.1
      have hle := and_toInt (a := key) (b := ht.length) (by omega)
      exact ⟨(key &&& ht.length).toInt.toNat, by omega, by omega⟩
  | some hash =>
    simp only [some.injEq, forall_eq']
    by_cases hn : n = 0
    · simp [hn]
    · rw [if_neg (mt h.succ_eq_zero.mp hn), h.succ_toInt, ← tmod_nonneg_iff]
      simp only [Except.ok.injEq]
      have hlt := tmod_lt_of_pos (hash key).toInt (b := n) (by omega)
      constructor
      · rintro ⟨i, -, heq⟩
        exact ⟨Nat.pos_of_ne_zero hn, by omega⟩
      · rintro ⟨-, hle⟩
        exact ⟨((hash key).toInt.tmod n).toNat, by omega, by omega⟩

end HashTable

variable {ht : HashTable} {n i : ℕ} {full : ℕ → Row} {key : HashKey} {value : HashValue}
  {L M : Row} {r : EntryRef} {b : HashEntry}

def kv (x : EntryRef × HashEntry) : HashKey × HashValue := (x.2.key, x.2.value)

def pairs (l : Row) : List (HashKey × HashValue) := (l.map kv).tail

theorem pairs_append (L : Row) (r : EntryRef) (b : HashEntry) (M : Row) :
    pairs (L ++ (r, b) :: M) = pairs (L ++ [(r, b)]) ++ M.map kv := by
  rw [pairs, pairs, ← List.tail_append_of_ne_nil, ← List.map_append, List.append_assoc]
  · rfl
  · simp

theorem mem_pairs {x : HashKey × HashValue} {l : Row} : x ∈ pairs l ↔ ∃ y ∈ l.tail, kv y = x := by
  rw [pairs, ← List.map_tail, List.mem_map]

structure Rows (ht : HashTable) (n : ℕ) (full : ℕ → Row) : Prop where
  sized : ht.Sized n
  bounded : ∀ i : ℤ, .table i ∈ ht.entries → 0 ≤ i ∧ i < n
  doubly : ∀ i < n, Doubly next prev ht.entries.lookup (some (.table i)) (full i)
  nodes : ∀ i < n, ∀ r ∈ (keys (full i)).tail, ∃ a, r = .node a
  home : ∀ i < n, ∀ x ∈ pairs (full i), ht.index x.1 = .ok (i : ℤ)
  distinct : ∀ i < n, (pairs (full i)).Pairwise fun x y => ht.compare x.1 y.1 = false

namespace Rows

section

variable (h : Rows ht n full)

include h

theorem exists_head (hi : i < n) :
    ∃ b l, full i = (.table i, b) :: l := (h.doubly i hi).along.nonempty

theorem apart {j : ℕ} (hi : i < n) (hj : j < n) (hij : i ≠ j) :
    ∀ r ∈ keys (full i), r ∉ keys (full j) := by
  intro r hri hrj
  obtain ⟨b, l, hl⟩ := h.exists_head hi
  obtain ⟨c, m, hm⟩ := h.exists_head hj
  have hnodes := h.nodes i hi
  have hnodes' := h.nodes j hj
  rw [hl, keys_cons, List.tail_cons] at hnodes
  rw [hm, keys_cons, List.tail_cons] at hnodes'
  rw [hl, keys_cons, List.mem_cons] at hri
  rw [hm, keys_cons, List.mem_cons] at hrj
  rcases hri with rfl | hri
  · rcases hrj with hrj | hrj
    · have heq : (i : ℤ) = j := table.inj hrj
      exact hij (ofNat_inj.mp heq)
    · obtain ⟨a, ha⟩ := hnodes' _ hrj
      cases ha
  · rcases hrj with rfl | hrj
    · obtain ⟨a, ha⟩ := hnodes _ hri
      cases ha
    · obtain ⟨x, hx, rfl⟩ := List.mem_map.mp hri
      obtain ⟨y, hy, hxy⟩ := List.mem_map.mp hrj
      have hxl : x ∈ full i := by
        rw [hl]
        exact List.mem_cons_of_mem _ hx
      have hym : y ∈ full j := by
        rw [hm]
        exact List.mem_cons_of_mem _ hy
      have hsome := (h.doubly i hi).along.heap_eq x hxl
      have hsome' := (h.doubly j hj).along.heap_eq y hym
      rw [hxy, hsome] at hsome'
      have hkey : kv x = kv y := by
        rw [kv, kv, some.inj hsome']
      have hxi := h.home i hi (kv x) (mem_pairs.mpr ⟨x, by rwa [hl], rfl⟩)
      have hyj := h.home j hj (kv x) (mem_pairs.mpr ⟨y, by rwa [hm], hkey.symm⟩)
      rw [hxi] at hyj
      exact hij (ofNat_inj.mp (Except.ok.inj hyj))

theorem mem_entries (hi : i < n) (hr : r ∈ keys (full i)) : r ∈ ht.entries := by
  obtain ⟨x, hx, rfl⟩ := List.mem_map.mp hr
  have hsome := (h.doubly i hi).along.heap_eq x hx
  rw [← AList.lookup_isSome, hsome, isSome_some]

theorem replace (hi : i < n) {entries : Entries} {l : Row}
    (hdoubly : Doubly next prev entries.lookup (some (.table i)) l)
    (hframe : ∀ r ∈ ht.entries, r ∉ keys (full i) → entries.lookup r = ht.entries.lookup r)
    (hbounded : ∀ j : ℤ, .table j ∈ entries → .table j ∈ ht.entries)
    (hnodes : ∀ r ∈ (keys l).tail, ∃ a, r = .node a)
    (hhome : ∀ x ∈ pairs l, ht.index x.1 = .ok (i : ℤ))
    (hdistinct : (pairs l).Pairwise fun x y => ht.compare x.1 y.1 = false) :
    Rows { ht with entries := entries } n (update full i l) where
  sized := h.sized
  bounded j hj := h.bounded j (hbounded j hj)
  doubly j hj := by
    by_cases hij : j = i
    · subst hij
      rw [update_self]
      exact hdoubly
    · rw [update_of_ne hij]
      refine (h.doubly j hj).congr fun r hr => ?_
      exact hframe r (h.mem_entries hj hr) (h.apart hj hi hij r hr)
  nodes j hj := by
    by_cases hij : j = i
    · subst hij
      rw [update_self]
      exact hnodes
    · rw [update_of_ne hij]
      exact h.nodes j hj
  home j hj := by
    by_cases hij : j = i
    · subst hij
      rw [update_self]
      exact hhome
    · rw [update_of_ne hij]
      exact h.home j hj
  distinct j hj := by
    by_cases hij : j = i
    · subst hij
      rw [update_self]
      exact hdistinct
    · rw [update_of_ne hij]
      exact h.distinct j hj

theorem find_eq (hi : i < n) (hindex : ht.index key = .ok (i : ℤ)) :
    ht.find key = .ok (seekIn (fun key' => ht.compare key' key) (.table i) (full i).tail) := by
  obtain ⟨b, l, hl⟩ := h.exists_head hi
  have halong := (h.doubly i hi).along
  have hlen := length_le halong
  rw [hl] at halong hlen ⊢
  rw [HashTable.find, hindex, ok_bind]
  rw [List.length_cons] at hlen
  exact seek_eq halong (by rw [List.tail_cons]; omega)

theorem index_of_find {x : EntryRef × Bool} (hfind : ht.find key = .ok x) :
    ∃ i < n, ht.index key = .ok (i : ℤ) := by
  rw [HashTable.find] at hfind
  obtain ⟨i, hindex, hseek⟩ := bind_eq_ok.mp hfind
  rw [seek] at hseek
  obtain ⟨e, he, -⟩ := bind_eq_ok.mp hseek
  have hmem : table i ∈ ht.entries := by
    rw [← AList.lookup_isSome, deref_eq_ok.mp he, isSome_some]
  have hrange := h.bounded i hmem
  refine ⟨i.toNat, by omega, ?_⟩
  rw [hindex, toNat_of_nonneg hrange.1]

theorem find_absent (hi : i < n) (hindex : ht.index key = .ok (i : ℤ))
    (hnone : ∀ x ∈ pairs (full i), ht.compare x.1 key = false) :
    ∃ L r b, full i = L ++ [(r, b)] ∧ ht.find key = .ok (r, false) := by
  obtain ⟨b, l, hl⟩ := h.exists_head hi
  have hnot : ∀ y ∈ l, (fun key' => ht.compare key' key) y.2.key = false := by
    intro y hy
    exact hnone (kv y) (mem_pairs.mpr ⟨y, by rwa [hl], rfl⟩)
  obtain ⟨L, c, heq, hsnd⟩ : ∃ L c, (table i, b) :: l =
      L ++ [((seekIn (fun key' => ht.compare key' key) (.table i) l).1, c)] ∧
      (seekIn (fun key' => ht.compare key' key) (.table i) l).2 = false := seekIn_absent hnot
  refine ⟨L, _, c, by rw [hl, heq], ?_⟩
  rw [h.find_eq hi hindex, hl, List.tail_cons, ← hsnd]

theorem find_found (hi : i < n) (hindex : ht.index key = .ok (i : ℤ))
    (hequiv : Equivalence fun a b => ht.compare a b = true) {x : HashKey × HashValue}
    (hx : x ∈ pairs (full i)) (hsame : ht.compare x.1 key = true) :
    ∃ L r b c e M, full i = L ++ (r, b) :: (c, e) :: M ∧ kv (c, e) = x ∧
      ht.find key = .ok (c, true) := by
  obtain ⟨b, l, hl⟩ := h.exists_head hi
  obtain ⟨y, hy, rfl⟩ := mem_pairs.mp hx
  rw [hl, List.tail_cons] at hy
  obtain ⟨l₁, l₂, rfl⟩ := List.append_of_mem hy
  have hdistinct := h.distinct i hi
  rw [hl, pairs, List.map_cons, List.tail_cons, List.map_append, List.map_cons,
    List.pairwise_append] at hdistinct
  have hnot : ∀ z ∈ l₁, (fun key' => ht.compare key' key) z.2.key = false := by
    intro z hz
    have hzy := hdistinct.2.2 (kv z) (List.mem_map_of_mem hz) (kv y) List.mem_cons_self
    refine Bool.eq_false_iff.mpr fun hzk => ?_
    have htrue := hequiv.trans hzk (hequiv.symm hsame)
    exact Bool.false_ne_true (hzy.symm.trans htrue)
  have hfind : ht.find key = .ok (y.1, true) := by
    rw [h.find_eq hi hindex, hl, List.tail_cons]
    exact congrArg Except.ok (seekIn_found hnot hsame)
  obtain hnil | ⟨L, ⟨r, c⟩, hL⟩ := List.eq_nil_or_concat ((.table i, b) :: l₁ : Row)
  · cases hnil
  · refine ⟨L, r, c, y.1, y.2, l₂, ?_, rfl, hfind⟩
    rw [hl, ← List.cons_append, hL, List.concat_eq_append, List.append_assoc]
    rfl

end

end Rows

variable {L M : Row} {r c f : EntryRef} {a : Addr} {b e g junk : HashEntry} {m : Malloc}

namespace Entries

variable {h : Entries}

theorem append_eq (hr : h.lookup r = some b) (hfresh : node a ∉ h) :
    ∃ h', h.append r a junk key value = .ok h' ∧
      h'.lookup = update (update h.lookup r (some { b with next := some (.node a) })) (.node a)
        (some ⟨key, value, none, some r⟩) := by
  have hra : r ≠ .node a := by
    rintro rfl
    rw [AList.lookup_eq_none.mpr hfresh] at hr
    cases hr
  have hr' : (h.insert (.node a) junk).lookup r = some b := by
    rw [AList.lookup_insert_ne hra, hr]
  have hself (h : Entries) (e : HashEntry) : (h.insert (.node a) e).lookup (.node a) = some e :=
    AList.lookup_insert h
  have hnode (b' : HashEntry) : ((h.insert (.node a) junk).insert r b').lookup (.node a) =
      some junk := by
    rw [AList.lookup_insert_ne hra.symm, hself]
  refine ⟨((((((h.insert (.node a) junk).insert r { b with next := some (.node a) }).insert (.node a)
    { junk with prev := some r }).insert (.node a) { junk with prev := some r, next := none }).insert
    (.node a) ⟨key, value, none, some r⟩)), ?_, ?_⟩
  · rw [append, write_of_lookup hr', ok_bind, write_of_lookup (hnode _), ok_bind,
      write_of_lookup (hself _ _), ok_bind, write_of_lookup (hself _ _)]
  · simp only [lookup_insert, update_idem]
    rw [update_comm hra, update_idem, update_comm hra.symm]

theorem unlink_last_eq (hc : h.lookup c = some e) (hr : h.lookup r = some b) (hrc : r ≠ c)
    (hprev : e.prev = some r) (hnext : e.next = none) :
    ∃ h', h.unlink c = .ok h' ∧
      h'.lookup = update (update h.lookup r (some { b with next := none })) c none := by
  have hc' : (h.insert r { b with next := e.next }).lookup c = some e := by
    rw [AList.lookup_insert_ne hrc.symm, hc]
  refine ⟨(h.insert r { b with next := e.next }).erase c, ?_, ?_⟩
  · rw [unlink, deref_of_lookup hc, ok_bind, hprev, relink, write_of_lookup hr,
      ok_bind, deref_of_lookup hc', ok_bind, hnext]
    rfl
  · rw [lookup_erase, lookup_insert, hnext]

theorem unlink_eq (hc : h.lookup c = some e) (hr : h.lookup r = some b) (hf : h.lookup f = some g)
    (hrc : r ≠ c) (hrf : r ≠ f) (hprev : e.prev = some r) (hnext : e.next = some f) :
    ∃ h', h.unlink c = .ok h' ∧
      h'.lookup = update (update (update h.lookup r (some { b with next := some f })) f
        (some { g with prev := some r })) c none := by
  have hc' : (h.insert r { b with next := e.next }).lookup c = some e := by
    rw [AList.lookup_insert_ne hrc.symm, hc]
  have hf' : (h.insert r { b with next := e.next }).lookup f = some g := by
    rw [AList.lookup_insert_ne hrf.symm, hf]
  refine ⟨((h.insert r { b with next := e.next }).insert f { g with prev := e.prev }).erase c,
    ?_, ?_⟩
  · rw [unlink, deref_of_lookup hc, ok_bind, hprev, relink, write_of_lookup hr,
      ok_bind, deref_of_lookup hc', ok_bind, hnext, relink, ← hnext,
      write_of_lookup hf', hprev]
    rfl
  · rw [lookup_erase, lookup_insert, lookup_insert, hnext, hprev]

end Entries

namespace Rows

variable (h : Rows ht n full) (hi : i < n)

include h hi

theorem lookup_of_split (hsplit : full i = L ++ (r, b) :: M) : ht.entries.lookup r = some b :=
  (h.doubly i hi).along.heap_eq (r, b) (by simp [hsplit])

theorem unlink_eq (hsplit : full i = L ++ (r, b) :: (c, e) :: M) : ∃ entries b' M',
    ht.entries.unlink c = .ok entries ∧ kv (r, b') = kv (r, b) ∧ M'.map kv = M.map kv ∧
    keys M' = keys M ∧
    Doubly next prev entries.lookup (some (.table i)) (L ++ (r, b') :: M') ∧
    ∀ r' ∉ keys (full i), entries.lookup r' = ht.entries.lookup r' := by
  have hdoubly := h.doubly i hi
  have hr := h.lookup_of_split hi hsplit
  have hc : ht.entries.lookup c = some e :=
    h.lookup_of_split hi (L := L ++ [(r, b)]) (M := M) (by rw [hsplit, List.append_assoc]; rfl)
  rw [hsplit] at hdoubly ⊢
  have hrest := hdoubly.notMem.2
  rw [keys_cons, List.mem_cons, not_or] at hrest
  have hprev := hdoubly.prev_eq
  cases M with
  | nil =>
    have hnext : e.next = none := by
      have htail := hdoubly.tail
      exact htail.2.2
    obtain ⟨h', heq, hlook⟩ := unlink_last_eq hc hr hrest.1 hprev hnext
    refine ⟨h', { b with next := none }, [], heq, rfl, rfl, rfl, ?_, fun r' hr' => ?_⟩
    · rw [hlook]
      exact hdoubly.unlink_last rfl rfl
    · simp only [keys_append, keys_cons, keys_nil, List.mem_append, List.mem_cons, not_or] at hr'
      refine (congrFun hlook r').trans ?_
      rw [update_of_ne hr'.2.2.1, update_of_ne hr'.2.1]
  | cons x M =>
    obtain ⟨f, g⟩ := x
    rw [keys_cons, List.mem_cons, not_or] at hrest
    have hnext : e.next = some f := by
      have htail := hdoubly.tail
      exact htail.2.2.1
    have hf : ht.entries.lookup f = some g :=
      h.lookup_of_split hi (L := L ++ [(r, b), (c, e)]) (M := M)
        (by rw [hsplit, List.append_assoc]; rfl)
    obtain ⟨h', heq, hlook⟩ := unlink_eq hc hr hf hrest.1 hrest.2.1 hprev hnext
    refine ⟨h', { b with next := some f }, (f, { g with prev := some r }) :: M, heq, rfl, rfl, rfl,
      ?_, fun r' hr' => ?_⟩
    · rw [hlook]
      exact hdoubly.unlink rfl rfl rfl rfl
    · simp only [keys_append, keys_cons, List.mem_append, List.mem_cons, not_or] at hr'
      refine (congrFun hlook r').trans ?_
      rw [update_of_ne hr'.2.2.1, update_of_ne hr'.2.2.2.1, update_of_ne hr'.2.1]

theorem unlink (hsplit : full i = L ++ (r, b) :: (c, e) :: M) : ∃ entries full',
    ht.entries.unlink c = .ok entries ∧ Rows { ht with entries := entries } n full' ∧
    (∃ A B, pairs (full i) = A ++ kv (c, e) :: B ∧ pairs (full' i) = A ++ B) ∧
    ∀ j, j ≠ i → full' j = full j := by
  obtain ⟨entries, b', M', heq, hkv, hM, hkeys, hdoubly, hframe⟩ := h.unlink_eq hi hsplit
  have hmap : (L ++ [(r, b')]).map kv = (L ++ [(r, b)]).map kv := by
    rw [List.map_append, List.map_append, List.map_singleton, List.map_singleton, hkv]
  have hold : pairs (full i) = pairs (L ++ [(r, b)]) ++ kv (c, e) :: M.map kv := by
    rw [hsplit, pairs_append]
    rfl
  have hnew : pairs (L ++ (r, b') :: M') = pairs (L ++ [(r, b)]) ++ M.map kv := by
    rw [pairs_append, hM, pairs, hmap, pairs]
  have hsub : (pairs (L ++ (r, b') :: M')).Sublist (pairs (full i)) := by
    rw [hold, hnew]
    exact (List.Sublist.refl _).append (List.sublist_cons_self _ _)
  have hkeysub : (keys (L ++ (r, b') :: M')).Sublist (keys (full i)) := by
    rw [hsplit, keys_append, keys_append, keys_cons, keys_cons, keys_cons, hkeys]
    exact (List.Sublist.refl _).append ((List.sublist_cons_self _ _).cons_cons _)
  refine ⟨entries, update full i (L ++ (r, b') :: M'), heq, ?_, ⟨_, _, hold, ?_⟩,
    fun j hj => update_of_ne hj _ _⟩
  · refine h.replace hi hdoubly (fun r' _ hr' => hframe r' hr') (fun j hj => ?_)
      (fun r' hr' => h.nodes i hi r' (hkeysub.tail.subset hr'))
      (fun x hx => h.home i hi x (hsub.subset hx)) ((h.distinct i hi).sublist hsub)
    by_cases hmem : table j ∈ keys (full i)
    · exact h.mem_entries hi hmem
    · rw [← AList.lookup_isSome] at hj ⊢
      rwa [hframe _ hmem] at hj
  · rw [update_self, hnew]

theorem append (hsplit : full i = L ++ [(r, b)]) (hfresh : node a ∉ ht.entries)
    (hindex : ht.index key = .ok (i : ℤ))
    (hnone : ∀ x ∈ pairs (full i), ht.compare x.1 key = false) : ∃ entries full',
    ht.entries.append r a junk key value = .ok entries ∧
    Rows { ht with entries := entries } n full' ∧
    pairs (full' i) = pairs (full i) ++ [(key, value)] ∧ ∀ j, j ≠ i → full' j = full j := by
  have hr := h.lookup_of_split hi hsplit
  have hdoubly := h.doubly i hi
  rw [hsplit] at hdoubly
  obtain ⟨entries, heq, hlook⟩ : ∃ h', ht.entries.append r a junk key value = .ok h' ∧ _ :=
    append_eq hr hfresh
  obtain ⟨l, hl⟩ : ∃ l : Row, l = L ++ [(r, { b with next := some (.node a) }),
    (.node a, ⟨key, value, none, some r⟩)] := ⟨_, rfl⟩
  have hpairs : pairs l = pairs (full i) ++ [(key, value)] := by
    rw [hl, pairs_append, hsplit, pairs, pairs, List.map_append, List.map_append]
    rfl
  have hkeys : (keys l).tail = (keys (full i)).tail ++ [.node a] := by
    rw [hl, hsplit, ← List.tail_append_of_ne_nil]
    · simp
    · simp
  refine ⟨entries, update full i l, heq, ?_, by rw [update_self, hpairs],
    fun j hj => update_of_ne hj _ _⟩
  refine h.replace hi ?_ (fun r' hr' hout => ?_) (fun j hj => ?_) (fun r' hr' => ?_)
    (fun x hx => ?_) ?_
  · rw [hl, hlook]
    exact hdoubly.snoc (AList.lookup_eq_none.mpr hfresh) rfl rfl rfl rfl
  · refine (congrFun hlook r').trans ?_
    rw [update_of_ne (ne_of_mem_of_not_mem hr' hfresh), update_of_ne]
    rintro rfl
    exact hout (by simp [hsplit])
  · rw [← AList.lookup_isSome] at hj ⊢
    have hj' := congrFun hlook (.table j)
    by_cases hjr : table j = r
    · rw [hjr, hr, isSome_some]
    · rw [update_of_ne (by simp), update_of_ne hjr] at hj'
      rwa [← hj']
  · rw [hkeys, List.mem_append] at hr'
    rcases hr' with hr' | hr'
    · exact h.nodes i hi r' hr'
    · exact ⟨a, List.mem_singleton.mp hr'⟩
  · rw [hpairs, List.mem_append] at hx
    rcases hx with hx | hx
    · exact h.home i hi x hx
    · rwa [List.mem_singleton.mp hx]
  · rw [hpairs, List.pairwise_append]
    refine ⟨h.distinct i hi, List.pairwise_singleton _ _, fun x hx y hy => ?_⟩
    rw [List.mem_singleton.mp hy]
    exact hnone x hx

end Rows

end MachUS.Hash
