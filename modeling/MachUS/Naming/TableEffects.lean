import MachUS.Naming.PrefixTable
import Mathlib.Tactic.Abel

namespace MachUS.Naming

open Program List StdName PfxEntry

variable {W : Type}

def held : Option Obj → Obj → ℤ
  | none, _ => 0
  | some x, o => if x = o then 1 else 0

@[simp] theorem held_none : held none = 0 := rfl

def Happening.loss : Happening → Obj → ℤ
  | .unreleased o => held (some o)
  | .releasedAgain o => -held (some o)
  | _ => 0

namespace StdName

def tableRefs (s : StdName W) : Obj → ℤ :=
  ((s.nullPrefix :: s.pfxTable).map fun e => held (e.bind target)).sum

def lost (s : StdName W) : Obj → ℤ := (s.log.map Happening.loss).sum

def ledger (s : StdName W) : Obj → ℤ := s.refs - s.tableRefs - s.lost

structure Sound (s : StdName W) : Prop where
  size : s.pfxTable.length = pfxTableSize
  last : s.lastIndex < pfxTableSize

end StdName

def Slot.Valid : Slot → Prop
  | .null => True
  | .index i => i < pfxTableSize

structure Stable (R : StdName W → StdName W → Prop) : Prop where
  refl : ∀ s, R s s
  trans : ∀ {s t u}, R s t → R t u → R s u
  quiet : ∀ {s s'}, s'.pfxTable = s.pfxTable → s'.nullPrefix = s.nullPrefix →
    s'.lastIndex = s.lastIndex → s'.identityVersion = s.identityVersion → s.log <+: s'.log → R s s'

def Holds (R : StdName W → StdName W → Prop) {α : Type} (before : Obj → ℤ) (m : Run W α)
    (after : α → Obj → ℤ) : Prop :=
  ∀ s a s', s.Sound → Returns m s a s' →
    s'.Sound ∧ R s s' ∧ s'.ledger + before = s.ledger + after a

namespace StdName

variable (s : StdName W)

section

variable (n : ℤ) (o : Option Obj)

include n o

@[simp] theorem count_pfxTable : (s.count n o).pfxTable = s.pfxTable := by
  cases o <;> rfl

@[simp] theorem count_nullPrefix : (s.count n o).nullPrefix = s.nullPrefix := by
  cases o <;> rfl

@[simp] theorem count_lastIndex : (s.count n o).lastIndex = s.lastIndex := by
  cases o <;> rfl

@[simp] theorem count_identityVersion : (s.count n o).identityVersion = s.identityVersion := by
  cases o <;> rfl

@[simp] theorem count_log : (s.count n o).log = s.log := by
  cases o <;> rfl

@[simp] theorem count_entry (slot : Slot) : (s.count n o).entry slot = s.entry slot := by
  cases o <;> rfl

theorem count_refs : (s.count n o).refs = s.refs + n • held o := by
  cases o with
  | none => simp [count, zsmul_zero]
  | some x =>
    funext y
    by_cases hxy : x = y
    · subst hxy
      simp [count, held]
    · simp [count, held, hxy, Function.update_of_ne (Ne.symm hxy)]

theorem count_ledger : (s.count n o).ledger = s.ledger + n • held o := by
  simp only [ledger, tableRefs, lost, count_refs, count_pfxTable, count_nullPrefix, count_log]
  rw [add_sub_right_comm, add_sub_right_comm]

end

variable {s}

theorem Sound.count (h : s.Sound) (n : ℤ) (o : Option Obj) : (s.count n o).Sound :=
  ⟨by simpa using h.size, by simpa using h.last⟩

section

variable (h : s.Sound) (e : PfxEntry)

include h e

theorem Sound.store (slot : Slot) : (s.store e slot).Sound := by
  cases slot with
  | null => exact ⟨h.size, h.last⟩
  | index i => exact ⟨by simpa [StdName.store] using h.size, h.last⟩

theorem store_tableRefs {slot : Slot} (hslot : slot.Valid) :
    (s.store e slot).tableRefs + held ((s.entry slot).bind target) =
      s.tableRefs + held e.target := by
  cases slot with
  | null =>
    simp only [store, tableRefs, entry, map_cons, sum_cons, Option.bind_some]
    abel
  | index i =>
    have hi : i < s.pfxTable.length := by rw [h.size]; exact hslot
    simp only [store, tableRefs, entry, map_cons, sum_cons, map_set,
      sum_set', length_map, hi, dif_pos, getElem_map, Option.bind_some,
      getElem?_eq_getElem hi, Option.join_some]
    abel

theorem store_ledger {slot : Slot} (hslot : slot.Valid) : (s.store e slot).ledger + held e.target =
      s.ledger + held ((s.entry slot).bind target) := by
  have htable := store_tableRefs h e hslot
  have hrefs : (s.store e slot).refs = s.refs := by cases slot <;> rfl
  have hlost : (s.store e slot).lost = s.lost := by cases slot <;> rfl
  rw [ledger, ledger, hrefs, hlost, eq_sub_of_add_eq htable]
  abel

@[simp] theorem store_entry {slot : Slot} (hslot : slot.Valid) :
    (s.store e slot).entry slot = some e := by
  cases slot with
  | null => rfl
  | index i =>
    have hi : i < s.pfxTable.length := by rw [h.size]; exact hslot
    simp [store, entry, hi]

end

end StdName

section Rules

variable {R : StdName W → StdName W → Prop} {α β : Type} {before : Obj → ℤ} {m : Run W α}

theorem Holds.bind_yields {k : α → Run W β} {middle : α → Obj → ℤ}
    {after : β → Obj → ℤ} {P : α → Prop} (hR : Stable R) (hm : Holds R before m middle)
    (hP : Yields m P) (hk : ∀ a, P a → Holds R (middle a) (k a) after) :
    Holds R before (m >>= k) after := by
  intro s b s'' hs h
  obtain ⟨a, s', hm', hk'⟩ := returns_bind.mp h
  obtain ⟨hs', hr, hl⟩ := hm s a s' hs hm'
  obtain ⟨hs'', hr', hl'⟩ := hk a (hP s a s' hm') s' b s'' hs' hk'
  refine ⟨hs'', hR.trans hr hr', ?_⟩
  calc s''.ledger + before = s''.ledger + middle a - middle a + before := by abel
    _ = s'.ledger + after b - middle a + before := by rw [hl']
    _ = s'.ledger + before + after b - middle a := by abel
    _ = s.ledger + middle a + after b - middle a := by rw [hl]
    _ = s.ledger + after b := by abel

theorem Holds.bind {k : α → Run W β} {middle : α → Obj → ℤ} {after : β → Obj → ℤ}
    (hR : Stable R) (hm : Holds R before m middle) (hk : ∀ a, Holds R (middle a) (k a) after) :
    Holds R before (m >>= k) after :=
  Holds.bind_yields (P := fun _ => True) hR hm (fun _ _ _ _ => trivial) fun a _ => hk a

variable {after : α → Obj → ℤ}

theorem Holds.frame (h : Holds R before m after)
    (x : Obj → ℤ) : Holds R (before + x) m fun a => after a + x := by
  intro s a s' hs hm
  obtain ⟨hs', hr, hl⟩ := h s a s' hs hm
  exact ⟨hs', hr, by rw [← add_assoc, hl, add_assoc]⟩

theorem Holds.of_eq {before' : Obj → ℤ} {after after' : α → Obj → ℤ}
    (h : Holds R before m after) (hb : before = before') (ha : ∀ a, after a = after' a) :
    Holds R before' m after' := by
  intro s a s' hs hm
  obtain ⟨hs', hr, hl⟩ := h s a s' hs hm
  exact ⟨hs', hr, by rw [← hb, ← ha]; exact hl⟩

theorem Holds.pure (hR : Stable R) {a : α} (h : before = after a) :
    Holds R before (Pure.pure a : Run W α) after := by
  intro s b s' hs hm
  obtain ⟨rfl, rfl⟩ := returns_pure.mp hm
  exact ⟨hs, hR.refl s, by rw [h]⟩

theorem Holds.orFault (hR : Stable R) (x : Except Fault α) :
    Holds R before (Naming.orFault x : Run W α) fun _ => before := by
  intro s a s' hs hm
  obtain ⟨-, rfl⟩ := returns_lift.mp hm
  exact ⟨hs, hR.refl s, rfl⟩

theorem Holds.fault (e : Fault) : Holds R before (Naming.orFault (.error e) : Run W α) after := by
  intro s a s' hs hm
  cases (returns_lift.mp hm).1

section

variable (hR : Stable R)

include hR

theorem Holds.modify_count (n : ℤ) (o : Option Obj) :
    Holds R before (modify (fun s => s.count n o) : Run W Unit) fun _ => before + n • held o := by
  intro s a s' hs hm
  obtain rfl := returns_modify.mp hm
  refine ⟨hs.count n o, hR.quiet (by simp) (by simp) (by simp) (by simp) (by simp), ?_⟩
  rw [count_ledger, add_assoc, add_comm before]

theorem Holds.reference (o : Option Obj) :
    Holds R before (Naming.reference o : Run W Unit) fun _ => before + held o :=
  (Holds.modify_count hR 1 o).of_eq rfl fun _ => by rw [one_zsmul]

theorem Holds.dereference (o : Option Obj) :
    Holds R before (Naming.dereference o : Run W Unit) fun _ => before - held o :=
  (Holds.modify_count hR (-1) o).of_eq rfl fun _ => by rw [neg_one_zsmul, ← sub_eq_add_neg]

theorem Holds.record (h : Happening) :
    Holds R before (Naming.record h : Run W Unit) fun _ => before - h.loss := by
  intro s a s' hs hm
  obtain rfl := returns_modify.mp hm
  refine ⟨⟨hs.size, hs.last⟩, hR.quiet rfl rfl rfl rfl (prefix_append _ _), ?_⟩
  simp only [ledger, lost, tableRefs, map_append, sum_append, map_cons, map_nil, sum_cons, sum_nil]
  abel

theorem Holds.unreleased (o : Option Obj) :
    Holds R before (recordObj .unreleased o : Run W Unit) fun _ => before - held o := by
  cases o with
  | none => exact Holds.pure hR (by simp)
  | some o => exact Holds.record hR _

theorem Holds.releasedAgain (o : Option Obj) :
    Holds R before (recordObj .releasedAgain o : Run W Unit) fun _ => before + held o := by
  cases o with
  | none => exact Holds.pure hR (by simp)
  | some o => exact (Holds.record hR _).of_eq rfl fun _ => by simp [Happening.loss]

end

end Rules

variable {W : Type}

def Serves (path : Path) (e : PfxEntry) : Prop := e.type ≠ .invalid ∧ e.prefixPath = path

def Spare (e : PfxEntry) : Prop := e.type = .invalid ∨ e.type = .cache

theorem mem_scanOrder {last i : ℕ} (hlast : last < pfxTableSize) :
    i ∈ scanOrder last ↔ i < pfxTableSize := by
  simp only [scanOrder, pfxTableSize, mem_map, mem_range] at hlast ⊢
  constructor
  · rintro ⟨k, -, rfl⟩
    exact Nat.mod_lt _ (by decide)
  · intro hi
    exact ⟨(i + 19 - last) % 10, by omega, by omega⟩

theorem scanTable_found {table : List (Option PfxEntry)} {path : Path} {is : List ℕ}
    {newindex : Option ℕ} {i : ℕ} (h : scanTable table path is newindex = .found i) :
    i ∈ is ∧ ∃ e, (table[i]?).join = some e ∧ Serves path e := by
  induction is generalizing newindex with
  | nil => cases h
  | cons j is ih =>
    simp only [scanTable] at h
    split at h
    · obtain ⟨hi, hrest⟩ := ih h
      exact ⟨mem_cons_of_mem _ hi, hrest⟩
    · next e he =>
      split_ifs at h with hinvalid hpath hcache
      · obtain ⟨hi, hrest⟩ := ih h
        exact ⟨mem_cons_of_mem _ hi, hrest⟩
      · cases h
        exact ⟨mem_cons_self, e, he, hinvalid, hpath⟩
      · obtain ⟨hi, hrest⟩ := ih h
        exact ⟨mem_cons_of_mem _ hi, hrest⟩
      · obtain ⟨hi, hrest⟩ := ih h
        exact ⟨mem_cons_of_mem _ hi, hrest⟩

theorem scanTable_missing {table : List (Option PfxEntry)} {path : Path} {is : List ℕ}
    {newindex result : Option ℕ} (h : scanTable table path is newindex = .missing result) :
    (∀ i ∈ is, ∀ e, (table[i]?).join = some e → ¬Serves path e) ∧
      ∀ i ∈ result, newindex = some i ∨ i ∈ is ∧ ∀ e, (table[i]?).join = some e → Spare e := by
  induction is generalizing newindex with
  | nil =>
    cases h
    exact ⟨by simp, fun i hi => Or.inl hi⟩
  | cons j is ih =>
    have hcons {P : ℕ → Prop} (hj : P j) (his : ∀ i ∈ is, P i) : ∀ i ∈ j :: is, P i :=
      forall_mem_cons.mpr ⟨hj, his⟩
    have hcand {i : ℕ} (hspare : ∀ e, (table[j]?).join = some e → Spare e)
        (hi : (some j : Option ℕ) = some i ∨ i ∈ is ∧ ∀ e, (table[i]?).join = some e → Spare e) :
        newindex = some i ∨ i ∈ j :: is ∧ ∀ e, (table[i]?).join = some e → Spare e := by
      rcases hi with hi | ⟨hi, hs⟩
      · cases hi
        exact Or.inr ⟨mem_cons_self, hspare⟩
      · exact Or.inr ⟨mem_cons_of_mem _ hi, hs⟩
    simp only [scanTable] at h
    split at h
    · next hnone =>
      obtain ⟨hno, hres⟩ := ih h
      exact ⟨hcons (by simp [hnone]) hno, fun i hi => hcand (by simp [hnone]) (hres i hi)⟩
    · next e he =>
      split_ifs at h with hinvalid hpath hcache
      · obtain ⟨hno, hres⟩ := ih h
        refine ⟨hcons ?_ hno, fun i hi => hcand ?_ (hres i hi)⟩
        · rintro e' he' ⟨hne, -⟩
          cases he.symm.trans he'
          exact hne hinvalid
        · rintro e' he'
          cases he.symm.trans he'
          exact Or.inl hinvalid
      · obtain ⟨hno, hres⟩ := ih h
        refine ⟨hcons ?_ hno, fun i hi => hcand ?_ (hres i hi)⟩
        · rintro e' he' ⟨-, hp⟩
          cases he.symm.trans he'
          exact hpath hp
        · rintro e' he'
          cases he.symm.trans he'
          exact Or.inr hcache.2
      · obtain ⟨hno, hres⟩ := ih h
        refine ⟨hcons ?_ hno, fun i hi => ?_⟩
        · rintro e' he' ⟨-, hp⟩
          cases he.symm.trans he'
          exact hpath hp
        · rcases hres i hi with hi | ⟨hi, hs⟩
          · exact Or.inl hi
          · exact Or.inr ⟨mem_cons_of_mem _ hi, hs⟩

namespace StdName

def evict (s : StdName W) (path : Path) (i : ℕ) : StdName W :=
  { (s.count (-1) ((s.entry (.index i)).bind target)).store (.blank path) (.index i) with
    lastIndex := i }

end StdName

inductive Entered (s : StdName W) (path : Path) (okcreate : Bool) :
    Option Slot → StdName W → Prop where
  | null {e : PfxEntry} (hpath : path = []) (he : s.nullPrefix = some e) :
    Entered s path okcreate (some .null) s
  | newNull (hpath : path = []) (he : s.nullPrefix = none) :
    Entered s path okcreate (some .null) (s.store (.blank []) .null)
  | found {i : ℕ} {e : PfxEntry} (hpath : path ≠ []) (hi : i < pfxTableSize)
    (he : s.entry (.index i) = some e) (hserves : Serves path e) :
    Entered s path okcreate (some (.index i)) s
  | evicted {i : ℕ} (hpath : path ≠ []) (hcreate : okcreate = true) (hi : i < pfxTableSize)
    (hnone : ∀ j < pfxTableSize, ∀ e, s.entry (.index j) = some e → ¬Serves path e)
    (hspare : ∀ e, s.entry (.index i) = some e → Spare e) :
    Entered s path okcreate (some (.index i)) (s.evict path i)
  | missing (hpath : path ≠ [])
    (hnone : ∀ j < pfxTableSize, ∀ e, s.entry (.index j) = some e → ¬Serves path e) :
    Entered s path okcreate none s

theorem entered {s s' : StdName W} {path : Path} {okcreate : Bool} {r : Option Slot}
    (hs : s.Sound) (h : Returns (nsGetPrefixEntry path okcreate) s r s') :
    Entered s path okcreate r s' := by
  simp only [nsGetPrefixEntry, returns_bind, returns_get] at h
  obtain ⟨t, t', ⟨rfl, rfl⟩, h⟩ := h
  split at h
  · next hpath =>
    split at h
    · next e he =>
      obtain ⟨rfl, rfl⟩ := returns_pure.mp h
      exact .null hpath he
    · next he =>
      obtain ⟨-, t, rfl, rfl, rfl⟩ := h
      exact .newNull hpath he
  · next hpath =>
    split at h
    · next i hscan =>
      obtain ⟨hi, e, he, hserves⟩ := scanTable_found hscan
      obtain ⟨rfl, rfl⟩ := returns_pure.mp h
      exact .found hpath ((mem_scanOrder hs.last).mp hi) he hserves
    · next newindex hscan =>
      obtain ⟨hno, hnew⟩ := scanTable_missing hscan
      have hnone : ∀ j < pfxTableSize, ∀ e, s.entry (.index j) = some e → ¬Serves path e :=
        fun j hj e he => hno j ((mem_scanOrder hs.last).mpr hj) e he
      cases newindex with
      | none =>
        obtain ⟨rfl, rfl⟩ : none = r ∧ s = s' := by cases okcreate <;> exact returns_pure.mp h
        exact .missing hpath hnone
      | some i =>
        cases okcreate with
        | false =>
          obtain ⟨rfl, rfl⟩ := returns_pure.mp h
          exact .missing hpath hnone
        | true =>
          simp only [orFault, Naming.dereference, storeEntry, returns_bind, returns_modify,
            returns_lift, returns_pure] at h
          obtain ⟨_, _, ⟨_, rfl⟩, _, _, rfl, _, _, rfl, _, _, rfl, rfl, rfl⟩ := h
          rcases hnew i rfl with hi | ⟨hi, hspare⟩
          · cases hi
          · exact .evicted hpath rfl ((mem_scanOrder hs.last).mp hi) hnone hspare

namespace Entered

variable {s s' : StdName W} {path : Path} {okcreate : Bool} {r : Option Slot}

section

variable (h : Entered s path okcreate r s') (hs : s.Sound)

include h hs

theorem sound : s'.Sound := by
  cases h with
  | null hpath he => exact hs
  | newNull hpath he => exact hs.store _ _
  | found hpath hi he hserves => exact hs
  | evicted hpath hcreate hi hnone hspare => exact ⟨((hs.count _ _).store _ _).size, hi⟩
  | missing hpath hnone => exact hs

theorem entry {slot : Slot} (hr : r = some slot) : slot.Valid ∧ ∃ e, s'.entry slot = some e := by
  cases h with
  | null hpath he =>
    cases hr
    exact ⟨trivial, _, he⟩
  | newNull hpath he =>
    cases hr
    exact ⟨trivial, _, rfl⟩
  | found hpath hi he hserves =>
    cases hr
    exact ⟨hi, _, he⟩
  | evicted hpath hcreate hi hnone hspare =>
    cases hr
    exact ⟨hi, _, store_entry (hs.count _ _) _ (show (Slot.index _).Valid from hi)⟩
  | missing hpath hnone => cases hr

theorem ledger : s'.ledger = s.ledger := by
  cases h with
  | null hpath he => rfl
  | newNull hpath he =>
    have hstore := StdName.store_ledger hs (.blank []) (show Slot.null.Valid from trivial)
    simpa [blank, StdName.entry, he] using hstore
  | found hpath hi he hserves => rfl
  | @evicted i hpath hcreate hi hnone hspare =>
    have hstore := StdName.store_ledger
      (hs.count (-1) ((s.entry (.index i)).bind target)) (.blank path)
      (show (Slot.index i).Valid from hi)
    rw [count_ledger, count_entry, neg_one_zsmul, neg_add_cancel_right] at hstore
    exact (add_zero _).symm.trans hstore
  | missing hpath hnone => rfl

end

end Entered

end MachUS.Naming
