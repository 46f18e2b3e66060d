import MachUS.Auth.NameTable
import Mathlib.Data.List.GetD

namespace MachUS.Auth

open Text Outcome Option Except Nat List

theorem count_set_none {slots : List (Option Addr)} {i : ℕ} {a : Addr} (hi : i < slots.length)
    (h : slots.getD i none = none) (b : Addr) :
    (slots.set i (some a)).count (some b) = slots.count (some b) + if b = a then 1 else 0 := by
  rw [getD_eq_getElem _ _ hi] at h
  rw [count_set hi, h]
  by_cases hba : b = a
  · simp [hba]
  · simp [hba, Ne.symm hba]

theorem count_set_some {slots : List (Option Addr)} {i : ℕ} {a : Addr}
    (h : slots.getD i none = some a) (b : Addr) :
    (slots.set i none).count (some b) + (if b = a then 1 else 0) = slots.count (some b) := by
  have hi : i < slots.length := by
    by_contra hlt
    rw [getD_eq_default _ _ (not_lt.mp hlt)] at h
    cases h
  rw [getD_eq_getElem _ _ hi] at h
  have hmem : some a ∈ slots := h ▸ getElem_mem hi
  rw [count_set hi, h]
  by_cases hba : b = a
  · subst hba
    have hpos : 0 < slots.count (some b) := count_pos_iff.mpr hmem
    simp
    omega
  · simp [hba, Ne.symm hba]

namespace Groups

variable {slots : List (Option Addr)}

theorem emptyFrom_spec {original fuel index i : ℕ}
    (h : emptyFrom slots original fuel index = some i) (hindex : index < slots.length) :
    i < slots.length ∧ slots.getD i none = none := by
  induction fuel generalizing index with
  | zero => cases h
  | succ fuel ih =>
    rw [emptyFrom] at h
    split at h
    · rename_i hnone
      cases h
      exact ⟨hindex, hnone⟩
    · simp only at h
      split_ifs at h
      exact ih h (mod_lt _ (by omega))

variable {name : Bytes}

theorem hashIndex_lt {size index : ℕ} (hsize : 0 < size)
    (h : hashIndex size name = .ok index) : index < size := by
  rw [hashIndex] at h
  split_ifs at h with hneg
  cases h
  have hlt : (hashName size name).natAbs < size := by
    rw [hashName, Int.natAbs_tmod]
    exact mod_lt _ hsize
  omega

theorem emptySlot_spec {index i : ℕ}
    (hslots : 0 < slots.length) (hindex : hashIndex slots.length name = .ok index)
    (h : emptySlot slots index = some i) : i < slots.length ∧ slots.getD i none = none :=
  emptyFrom_spec h (hashIndex_lt hslots hindex)

theorem emptyFrom_eq_none {original fuel d : ℕ}
    (h : emptyFrom slots original fuel ((original + d) % slots.length) = none)
    (hfuel : fuel + d = slots.length) (horiginal : original < slots.length) {e : ℕ} (hd : d ≤ e)
    (he : e < slots.length) : slots.getD ((original + e) % slots.length) none ≠ none := by
  induction fuel generalizing d with
  | zero => omega
  | succ fuel ih =>
    rw [emptyFrom] at h
    split at h
    · cases h
    · rename_i a ha
      rcases eq_or_lt_of_le hd with rfl | hlt
      · rw [ha]
        exact some_ne_none a
      · have hnext : ((original + d) % slots.length + 1) % slots.length =
            (original + (d + 1)) % slots.length := by
          rw [mod_add_mod, add_assoc]
        have hne : (original + (d + 1)) % slots.length ≠ original := by
          intro heq
          have hmod : (original + (d + 1)) % slots.length = original % slots.length := by
            rw [heq, mod_eq_of_lt horiginal]
          have hdvd : slots.length ∣ d + 1 := by
            have := (modEq_iff_dvd' (by omega)).mp (show ModEq slots.length original _ from
              hmod.symm)
            simpa using this
          have := le_of_dvd (by omega) hdvd
          omega
        simp only [hnext, if_neg hne] at h
        exact ih h (by omega) hlt

theorem emptySlot_isSome {index : ℕ} (hindex : index < slots.length)
    (hnone : none ∈ slots) : ∃ i, emptySlot slots index = some i := by
  rw [← isSome_iff_exists, isSome_iff_ne_none]
  intro h
  obtain ⟨i, hi, hslot⟩ := getElem_of_mem hnone
  have h₀ : emptyFrom slots index slots.length ((index + 0) % slots.length) = none := by
    rwa [add_zero, mod_eq_of_lt hindex]
  refine emptyFrom_eq_none h₀ rfl hindex (zero_le _)
    (mod_lt (i + (slots.length - index)) (by omega)) ?_
  have heq : (index + (i + (slots.length - index)) % slots.length) % slots.length = i := by
    rw [add_mod_mod, show index + (i + (slots.length - index)) = i + slots.length by omega,
      add_mod_right, mod_eq_of_lt hi]
  rw [heq, getD_eq_getElem _ _ hi, hslot]

structure Entries (g g' : Groups) (extra : Addr → ℕ) : Prop where
  length : g.names.slots.length ∣ g'.names.slots.length
  slots : 0 < g'.names.slots.length
  count : ∀ b, g'.names.slots.count (some b) = g.names.slots.count (some b) + extra b

theorem rehash_count {g : Groups} {old slots slots' : List (Option Addr)}
    (hslots : 0 < slots.length) (h : g.rehash old slots = .ok slots') :
    slots'.length = slots.length ∧
      ∀ b, slots'.count (some b) = slots.count (some b) + old.count (some b) := by
  induction old generalizing slots with
  | nil =>
    cases h
    simp
  | cons e old ih =>
    cases e with
    | none => cases h
    | some a =>
      obtain ⟨r, -, h⟩ := bind_eq_ok.mp h
      obtain ⟨index, hindex, h⟩ := bind_eq_ok.mp h
      split at h
      · cases h
      · rename_i i hi
        obtain ⟨hlt, hnone⟩ := emptySlot_spec hslots hindex hi
        obtain ⟨hlen, hcount⟩ := ih (by simpa using hslots) h
        refine ⟨by simpa using hlen, fun b => ?_⟩
        rw [hcount b, count_set_none hlt hnone, count_cons]
        by_cases hba : b = a
        · simp [hba]
          omega
        · simp [hba, Ne.symm hba]

variable {g g' : Groups} {k : Kernel}

theorem grow_entries (hg : 0 < g.names.slots.length)
    (h : g.growNameHashTable k = .ok g') : g.Entries g' fun _ => 0 := by
  rw [growNameHashTable] at h
  split_ifs at h
  · obtain ⟨slots, hslots, h⟩ := bind_eq_ok.mp h
    cases h
    obtain ⟨hlen, hcount⟩ := rehash_count (by simpa using hg) hslots
    refine ⟨?_, ?_, fun b => ?_⟩
    · simp [hlen]
    · simpa [hlen] using hg
    · simp [hcount b, count_replicate]
  · cases h
    exact ⟨dvd_refl _, hg, fun _ => rfl⟩

theorem growIfOver_entries (hg : 0 < g.names.slots.length)
    (h : g.growIfOver k = .ok g') : g.Entries g' fun _ => 0 := by
  rw [growIfOver] at h
  split_ifs at h
  · exact grow_entries hg h
  · cases h
    exact ⟨dvd_refl _, hg, fun _ => rfl⟩

variable {a : Addr}

theorem enterNameFrom_entries {fuel : ℕ}
    (hg : 0 < g.names.slots.length) (h : enterNameFrom k fuel g a = .ok g') :
    g.Entries g' fun b => if b = a then 1 else 0 := by
  induction fuel generalizing g with
  | zero => cases h
  | succ fuel ih =>
    obtain ⟨g₁, h₁, h⟩ := bind_eq_ok.mp h
    obtain ⟨r, -, h⟩ := bind_eq_ok.mp h
    obtain ⟨index, hindex, h⟩ := bind_eq_ok.mp h
    have he₁ : g.Entries g₁ fun _ => 0 := by
      have he := growIfOver_entries (g := g.countEntry) hg h₁
      exact ⟨he.length, he.slots, he.count⟩
    split at h
    · rename_i i hi
      cases h
      obtain ⟨hlt, hnone⟩ := emptySlot_spec he₁.slots hindex hi
      refine ⟨by simpa [setEntry] using he₁.length, by simpa [setEntry] using he₁.slots,
        fun b => ?_⟩
      simpa [setEntry, he₁.count b] using count_set_none hlt hnone b
    · obtain ⟨g₂, h₂, h⟩ := bind_eq_ok.mp h
      have he₂ := grow_entries he₁.slots h₂
      have he₃ := ih he₂.slots h
      refine ⟨he₁.length.trans (he₂.length.trans he₃.length), he₃.slots, fun b => ?_⟩
      rw [he₃.count, he₂.count, he₁.count]
      simp

theorem enterName_entries (hg : 0 < g.names.slots.length) (h : g.enterName k a = .ok g') :
    g.Entries g' fun b => if b = a then 1 else 0 := enterNameFrom_entries hg h

theorem rehashAfter_entries {fuel : ℕ} {index : ℕ}
    (hg : 0 < g.names.slots.length) (h : rehashAfter k fuel g index = .ok g') :
    g.Entries g' fun _ => 0 := by
  induction fuel generalizing g index with
  | zero => cases h
  | succ fuel ih =>
    rw [rehashAfter] at h
    split at h
    · cases h
      exact ⟨dvd_refl _, hg, fun _ => rfl⟩
    · rename_i a ha
      obtain ⟨g₁, h₁, h⟩ := bind_eq_ok.mp h
      have hlen : (g.setEntry index none).names.slots.length = g.names.slots.length := by
        simp [setEntry]
      have he₁ := enterName_entries (by rw [hlen]; exact hg) h₁
      have he₂ := ih he₁.slots h
      refine ⟨(hlen ▸ he₁.length).trans he₂.length, he₂.slots, fun b => ?_⟩
      rw [he₂.count, he₁.count, add_zero]
      exact count_set_some ha b

theorem findName_spec {original fuel index i : ℕ}
    (h : g.findName name original fuel index = .ok (some i)) :
    g.names.entry i = none ∨
      ∃ a r, g.names.entry i = some a ∧ g.heap a = some r ∧ r.groupName.bytes = name := by
  induction fuel generalizing index with
  | zero => cases h
  | succ fuel ih =>
    rw [findName] at h
    split at h
    · rename_i hnone
      cases ok.inj h
      exact Or.inl hnone
    · rename_i a ha
      obtain ⟨r, hr, h⟩ := bind_eq_ok.mp h
      split_ifs at h with hname
      · cases ok.inj h
        exact Or.inr ⟨a, r, ha, deref_eq_ok.mp hr, hname⟩
      · simp only at h
        split_ifs at h
        · cases ok.inj h
        · exact ih h

theorem lookupName_eq_some {name : GroupName} (h : g.lookupName name = .ok (some a)) :
    ∃ i r, g.findSlot name.bytes = .ok (some i) ∧ g.names.entry i = some a ∧
      g.heap a = some r ∧ r.groupName = name := by
  obtain ⟨o, ho, h⟩ := bind_eq_ok.mp h
  cases o with
  | none => cases h
  | some i =>
    have hentry : g.names.entry i = some a := ok.inj h
    obtain ⟨index, -, hfind⟩ := bind_eq_ok.mp ho
    rcases findName_spec hfind with hnone | ⟨b, r, hb, hr, hname⟩
    · rw [hnone] at hentry
      cases hentry
    · obtain rfl : b = a := some.inj (hb.symm.trans hentry)
      exact ⟨i, r, ho, hentry, hr, CString.ext_bytes hname⟩

def Keeps {α : Type} (f : GroupRecord → α) (g g' : Groups) : Prop :=
  ∀ a, (g'.heap a).map f = (g.heap a).map f

variable {α : Type}

theorem Keeps.refl (f : GroupRecord → α) (g : Groups) : Keeps f g g := fun _ => rfl

theorem Keeps.trans {f : GroupRecord → α} {g₁ g₂ g₃ : Groups} (h : Keeps f g₁ g₂)
    (h' : Keeps f g₂ g₃) : Keeps f g₁ g₃ := fun a => (h' a).trans (h a)

theorem Keeps.comp {α β : Type} {f : GroupRecord → α} (h : Keeps f g g')
    (e : α → β) : Keeps (fun r => e (f r)) g g' := by
  intro a
  have ha := congrArg (Option.map e) (h a)
  rwa [Option.map_map, Option.map_map] at ha

theorem Keeps.setRecord {f : GroupRecord → α}
    {r r' : GroupRecord} (hr : g.heap a = some r) (hf : f r' = f r) :
    Keeps f g (g.setRecord a r') := by
  intro b
  by_cases hb : b = a
  · subst hb
    simp [hr, hf]
  · rw [setRecord_heap_of_ne g r' hb]

theorem Keeps.forth {f : GroupRecord → α} (h : Keeps f g g')
    {r : GroupRecord} (hr : g.heap a = some r) : ∃ r', g'.heap a = some r' ∧ f r' = f r := by
  have ha := h a
  rw [hr, map_some, map_eq_some_iff] at ha
  exact ha

theorem Keeps.back {f : GroupRecord → α} (h : Keeps f g g')
    {r' : GroupRecord} (hr : g'.heap a = some r') :
    ∃ r, g.heap a = some r ∧ f r = f r' := by
  have ha := h a
  rw [hr, map_some, eq_comm, map_eq_some_iff] at ha
  exact ha

theorem Keeps.free {f : GroupRecord → α} (h : Keeps f g g')
    (hr : g.heap a = none) : g'.heap a = none := by
  have ha := h a
  rwa [hr, map_none, map_eq_none_iff] at ha

structure SameNames (g g' : Groups) : Prop where
  names : g'.names = g.names
  heap : Keeps GroupRecord.groupName g g'

theorem SameNames.findName (h : g.SameNames g') (name : Bytes) (original fuel index : ℕ) :
    g'.findName name original fuel index = g.findName name original fuel index := by
  induction fuel generalizing index with
  | zero => rfl
  | succ fuel ih =>
    rw [Groups.findName, Groups.findName, h.names]
    cases hentry : g.names.entry index with
    | none => rfl
    | some a =>
      cases hr : g.heap a with
      | none => simp [deref, hr, h.heap.free hr]
      | some r =>
        obtain ⟨r', hr', hname⟩ := h.heap.forth hr
        simp only [deref, hr, hr', ok_bind, hname, ih]

theorem SameNames.findSlot (h : g.SameNames g') (name : Bytes) :
    g'.findSlot name = g.findSlot name := by
  rw [Groups.findSlot, Groups.findSlot, h.names]
  simp only [h.findName]

theorem deleteName_entries {i : ℕ}
    (hg : 0 < g.names.slots.length) (hslot : g.findSlot name = .ok (some i))
    (ha : g.names.entry i = some a) (h : g.deleteName k name = .ok g') :
    g.names.slots.length ∣ g'.names.slots.length ∧ 0 < g'.names.slots.length ∧
      ∀ b, g'.names.slots.count (some b) + (if b = a then 1 else 0) =
        g.names.slots.count (some b) := by
  rw [deleteName, hslot, ok_bind] at h
  simp only [ha] at h
  have hlen : (g.setEntry i none).names.slots.length = g.names.slots.length := by simp [setEntry]
  have he := rehashAfter_entries (g := g.setEntry i none) (by rw [hlen]; exact hg) h
  refine ⟨hlen ▸ he.length, he.slots, fun b => ?_⟩
  rw [he.count, add_zero]
  exact count_set_some ha b

end Groups

end MachUS.Auth
