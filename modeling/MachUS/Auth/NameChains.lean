import MachUS.Auth.NameEntries
import MachUS.Foundation.ProbeRepair

namespace MachUS.Auth

open Text Function Outcome Probing Option

namespace Groups

def nameAt (g : Groups) (i : ℕ) : Option GroupName :=
  (g.names.entry i).bind fun a => (g.heap a).map GroupRecord.groupName

def nameKeys (g : Groups) (n : ℕ) (i : Fin n) : Option GroupName := g.nameAt i

def nameHome (n : ℕ) [NeZero n] : Option GroupName → Fin n
  | none => 0
  | some name => Fin.ofNat n (hashName n name.bytes).toNat

structure Shelved (g : Groups) (n : ℕ) : Prop where
  length : g.names.slots.length = n
  recorded : ∀ i a, g.names.entry i = some a →
    ∃ r, g.heap a = some r ∧ 0 ≤ hashName n r.groupName.bytes

variable {g g' : Groups} {n : ℕ} [NeZero n] {k : Kernel} {a b : Addr} {r : GroupRecord}
  {name : GroupName}

theorem hashIndex_home (h : 0 ≤ hashName n name.bytes) :
    hashIndex n name.bytes = .ok (nameHome n (some name)).val := by
  have hindex : hashIndex n name.bytes = .ok (hashName n name.bytes).toNat := by
    rw [hashIndex, if_neg (not_lt.mpr h)]
  rw [hindex, nameHome, Fin.val_ofNat, Nat.mod_eq_of_lt (hashIndex_lt (NeZero.pos n) hindex)]

omit [NeZero n] in
theorem Shelved.nameAt_eq (h : g.Shelved n) {i : ℕ} (hi : g.names.entry i = some a) :
    ∃ r, g.heap a = some r ∧ g.nameAt i = some r.groupName ∧ 0 ≤ hashName n r.groupName.bytes := by
  obtain ⟨r, hr, hhash⟩ := h.recorded i a hi
  exact ⟨r, hr, by rw [nameAt, hi, bind_some, hr, map_some], hhash⟩

omit [NeZero n] in
theorem Shelved.nameAt_none (h : g.Shelved n) {i : ℕ} : g.nameAt i = none ↔ g.names.entry i = none := by
  cases hi : g.names.entry i with
  | none => simp [nameAt, hi]
  | some a =>
    obtain ⟨r, -, hname, -⟩ := h.nameAt_eq hi
    simp [hname]

theorem succ_val (i : Fin n) : (i + 1).val = (i.val + 1) % n := by simp [Fin.val_add]

theorem walk_full {start : Fin n} {d : ℕ} (hd : d + 1 ≤ n)
    (h : (start + Fin.ofNat n (d + 1)).val = start.val) : d + 1 = n := by
  have hzero : Fin.ofNat n (d + 1) = 0 := by
    have heq : start + Fin.ofNat n (d + 1) = start + 0 := by
      rw [add_zero]
      exact Fin.ext h
    exact add_left_cancel heq
  have hmod : (d + 1) % n = 0 := congrArg Fin.val hzero
  rcases Nat.lt_or_eq_of_le hd with hlt | heq
  · rw [Nat.mod_eq_of_lt hlt] at hmod
    omega
  · exact heq

theorem Shelved.emptyFrom_eq (h : g.Shelved n) (start : Fin n) {fuel d : ℕ} (hd : d + fuel = n) :
    emptyFrom g.names.slots start fuel (start + Fin.ofNat n d).val =
      (probeFrom (g.nameKeys n) none none fuel (start + Fin.ofNat n d)).map Fin.val := by
  induction fuel generalizing d with
  | zero => rfl
  | succ fuel ih =>
    rw [emptyFrom, probeFrom]
    cases hi : g.names.slots.getD (start + Fin.ofNat n d).val none with
    | none =>
      have hnone : g.nameKeys n (start + Fin.ofNat n d) = none := h.nameAt_none.mpr hi
      rw [if_pos (Or.inl hnone)]
      rfl
    | some a =>
      have hsome : ¬g.nameKeys n (start + Fin.ofNat n d) = none := by
        rw [nameKeys, h.nameAt_none, NameTable.entry, hi]
        exact some_ne_none a
      have hnext : ((start + Fin.ofNat n d).val + 1) % g.names.slots.length =
          (start + Fin.ofNat n (d + 1)).val := by
        rw [h.length, ← succ_val, walk_succ]
      rw [if_neg (not_or.mpr ⟨hsome, hsome⟩), walk_succ]
      simp only [hnext]
      split_ifs with hstop
      · obtain rfl : fuel = 0 := by
          have := walk_full (by omega) hstop
          omega
        rfl
      · exact ih (by omega)

theorem Shelved.findName_eq (h : g.Shelved n) (name : GroupName) (start : Fin n) {fuel d : ℕ} (hd : d + fuel = n) :
    g.findName name.bytes start fuel (start + Fin.ofNat n d).val =
      .ok ((probeFrom (g.nameKeys n) none (some name) fuel (start + Fin.ofNat n d)).map
        Fin.val) := by
  induction fuel generalizing d with
  | zero => rfl
  | succ fuel ih =>
    rw [findName, probeFrom]
    cases hi : g.names.entry (start + Fin.ofNat n d).val with
    | none =>
      have hnone : g.nameKeys n (start + Fin.ofNat n d) = none := h.nameAt_none.mpr hi
      rw [if_pos (Or.inr hnone)]
      rfl
    | some a =>
      obtain ⟨r, hr, hname, -⟩ := h.nameAt_eq hi
      have hkey : g.nameKeys n (start + Fin.ofNat n d) = some r.groupName := hname
      have hnext : ((start + Fin.ofNat n d).val + 1) % g.names.slots.length =
          (start + Fin.ofNat n (d + 1)).val := by
        rw [h.length, ← succ_val, walk_succ]
      simp only [deref_eq_ok.mpr hr, ok_bind, hkey, some.injEq, reduceCtorEq,
        or_false, hnext, walk_succ]
      by_cases heq : r.groupName = name
      · rw [if_pos (congrArg _ heq), if_pos heq]
        rfl
      · rw [if_neg fun hbytes => heq (CString.ext_bytes hbytes), if_neg heq]
        split_ifs with hstop
        · obtain rfl : fuel = 0 := by
            have := walk_full (by omega) hstop
            omega
          rfl
        · exact ih (by omega)

theorem Shelved.emptySlot_eq (h : g.Shelved n) (start : Fin n) : emptySlot g.names.slots start =
    (probe (g.nameKeys n) none start none).map Fin.val := by
  have heq := h.emptyFrom_eq start (Nat.zero_add n)
  rw [walk_zero] at heq
  rw [emptySlot, h.length]
  exact heq

theorem Shelved.findSlot_eq (h : g.Shelved n) (hhash : 0 ≤ hashName n name.bytes) :
    g.findSlot name.bytes = .ok ((probe (g.nameKeys n) none (nameHome n (some name))
      (some name)).map Fin.val) := by
  have heq := h.findName_eq name (nameHome n (some name)) (Nat.zero_add n)
  rw [walk_zero] at heq
  rw [findSlot, h.length, hashIndex_home hhash, ok_bind]
  exact heq

section Entries

variable {i q : ℕ} {s : Fin n}

omit [NeZero n] in
theorem lt_of_entry (h : g.names.entry i = some a) : i < g.names.slots.length := by
  by_contra hi
  rw [NameTable.entry, List.getD_eq_default _ _ (not_lt.mp hi)] at h
  cases h

omit [NeZero n] in
theorem entry_setEntry (hi : i < g.names.slots.length) (e : Option Addr) (q : ℕ) :
    (g.setEntry i e).names.entry q = if q = i then e else g.names.entry q := by
  rw [NameTable.entry, setEntry, List.getD_eq_getElem?_getD, List.getElem?_set]
  by_cases hq : q = i
  · rw [if_pos hq, if_pos hq.symm, if_pos hi, getD_some]
  · rw [if_neg hq, if_neg (Ne.symm hq), NameTable.entry, List.getD_eq_getElem?_getD]

omit [NeZero n] in
theorem Shelved.entry_set (h : g.Shelved n) (s : Fin n) (e : Option Addr) (q : ℕ) :
    (g.setEntry s e).names.entry q = if q = s then e else g.names.entry q :=
  entry_setEntry (by rw [h.length]; exact s.isLt) e q

omit [NeZero n] in
theorem Shelved.nameKeys_vacate (h : g.Shelved n) (s : Fin n) :
    (g.setEntry s none).nameKeys n = update (g.nameKeys n) s none := by
  funext q
  rw [nameKeys, nameAt, h.entry_set]
  by_cases hq : q = s
  · rw [if_pos (congrArg _ hq), hq, update_self]
    rfl
  · rw [if_neg fun heq => hq (Fin.ext heq), update_of_ne hq]
    rfl

omit [NeZero n] in
theorem Shelved.nameKeys_fill (h : g.Shelved n) (s : Fin n) (hr : g.heap a = some r) :
    (g.setEntry s (some a)).nameKeys n = update (g.nameKeys n) s (some r.groupName) := by
  funext q
  rw [nameKeys, nameAt, h.entry_set]
  by_cases hq : q = s
  · rw [if_pos (congrArg _ hq), hq, update_self, bind_some,
      show (g.setEntry s (some a)).heap a = some r from hr, map_some]
  · rw [if_neg fun heq => hq (Fin.ext heq), update_of_ne hq]
    rfl

omit [NeZero n] in
theorem Shelved.vacate (h : g.Shelved n) (s : Fin n) : (g.setEntry s none).Shelved n where
  length := by rw [setEntry, List.length_set, h.length]
  recorded := by
    intro q b hq
    rw [h.entry_set] at hq
    split_ifs at hq
    exact h.recorded q b hq

omit [NeZero n] in
theorem Shelved.fill (h : g.Shelved n) (s : Fin n) (hr : g.heap a = some r)
    (hhash : 0 ≤ hashName n r.groupName.bytes) : (g.setEntry s (some a)).Shelved n where
  length := by rw [setEntry, List.length_set, h.length]
  recorded := by
    intro q b hq
    rw [h.entry_set] at hq
    split_ifs at hq
    · cases hq
      exact ⟨r, hr, hhash⟩
    · exact h.recorded q b hq

omit [NeZero n] in
theorem Shelved.countEntry (h : g.Shelved n) : g.countEntry.Shelved n := ⟨h.length, h.recorded⟩

def Contains (g : Groups) (a : Addr) : Prop := ∃ i, g.names.entry i = some a

omit [NeZero n] in
theorem Shelved.contains_fill (h : g.Shelved n) (hs : g.names.entry s = none) :
    (g.setEntry s (some a)).Contains b ↔ b = a ∨ g.Contains b := by
  constructor
  · rintro ⟨q, hq⟩
    rw [h.entry_set] at hq
    split_ifs at hq
    · exact Or.inl (some.inj hq).symm
    · exact Or.inr ⟨q, hq⟩
  · rintro (rfl | ⟨q, hq⟩)
    · exact ⟨s, by rw [h.entry_set, if_pos rfl]⟩
    · refine ⟨q, ?_⟩
      rw [h.entry_set, if_neg, hq]
      rintro rfl
      rw [hs] at hq
      cases hq

omit [NeZero n] in
theorem Shelved.eq_of_name (h : g.Shelved n) (hd : Distinct none (g.nameKeys n))
    (hi : g.names.entry i = some a) (hq : g.names.entry q = some b)
    (hname : (g.heap a).map GroupRecord.groupName = (g.heap b).map GroupRecord.groupName) :
    i = q := by
  have hi' : i < n := h.length ▸ lt_of_entry hi
  have hq' : q < n := h.length ▸ lt_of_entry hq
  obtain ⟨r, -, hkey, -⟩ := h.nameAt_eq hi
  have hsame : g.nameKeys n ⟨i, hi'⟩ = g.nameKeys n ⟨q, hq'⟩ := by
    show g.nameAt i = g.nameAt q
    rw [nameAt, nameAt, hi, hq, bind_some, bind_some, hname]
  have hne : g.nameKeys n ⟨i, hi'⟩ ≠ none := by
    show g.nameAt i ≠ none
    rw [hkey]
    exact some_ne_none _
  exact congrArg Fin.val (hd _ _ hne hsame)

omit [NeZero n] in
theorem Shelved.contains_vacate (h : g.Shelved n) (hd : Distinct none (g.nameKeys n))
    (hs : g.names.entry s = some a) :
    (g.setEntry s none).Contains b ↔ g.Contains b ∧ b ≠ a := by
  constructor
  · rintro ⟨q, hq⟩
    rw [h.entry_set] at hq
    split_ifs at hq with hqs
    refine ⟨⟨q, hq⟩, ?_⟩
    rintro rfl
    exact hqs (h.eq_of_name hd hq hs rfl)
  · rintro ⟨⟨q, hq⟩, hne⟩
    refine ⟨q, ?_⟩
    rw [h.entry_set, if_neg, hq]
    rintro rfl
    exact hne (some.inj (hq.symm.trans hs))

end Entries

section Enter

def Settled (k : Kernel) (g : Groups) (more : ℕ) : Prop :=
  g.names.numEntries + more ≤ g.names.limit ∨ k.table = false

theorem growIfOver_settled (h : Settled k g 1) : g.countEntry.growIfOver k = .ok g.countEntry := by
  rw [growIfOver]
  split_ifs with hover
  · rw [growNameHashTable, if_neg]
    rcases h with h | h
    · exact absurd hover (by simp only [countEntry]; omega)
    · rw [h]
      exact Bool.false_ne_true
  · rfl

theorem enterName_grown {g₁ : Groups} (hgrow : g.countEntry.growIfOver k = .ok g₁)
    (h : g₁.Shelved n) (hr : g₁.heap a = some r) (hhash : 0 ≤ hashName n r.groupName.bytes)
    {s : Fin n}
    (hs : probe (g₁.nameKeys n) none (nameHome n (some r.groupName)) none = some s) :
    g.enterName k a = .ok (g₁.setEntry s (some a)) := by
  have hslot := h.emptySlot_eq (nameHome n (some r.groupName))
  rw [hs, map_some] at hslot
  rw [enterName, enterNameFrom, hgrow, ok_bind]
  simp only [deref_eq_ok.mpr hr, ok_bind, h.length, hashIndex_home hhash, hslot]

theorem enterName_eq (h : g.Shelved n) (hsettled : Settled k g 1) (hr : g.heap a = some r)
    (hhash : 0 ≤ hashName n r.groupName.bytes) {s : Fin n}
    (hs : probe (g.nameKeys n) none (nameHome n (some r.groupName)) none = some s) :
    g.enterName k a = .ok (g.countEntry.setEntry s (some a)) :=
  enterName_grown (growIfOver_settled hsettled) h.countEntry hr hhash hs

end Enter

def rehashAfterWithin (k : Kernel) : ℕ → Groups → ℕ → Outcome Groups
  | 0, _, _ => .error .endlessProbe
  | fuel + 1, g, index =>
    if index < g.names.slots.length then
      match g.names.entry index with
      | none => .ok g
      | some a => do
        let g ← (g.setEntry index none).enterName k a
        rehashAfterWithin k fuel g (index + 1)
    else .error .strayRead

def deleteNameWithin (k : Kernel) (g : Groups) (name : Bytes) : Outcome Groups := do
  match ← g.findSlot name with
  | none => .ok g
  | some index =>
    match g.names.entry index with
    | none => .ok g
    | some _ =>
      (g.setEntry index none).rehashAfterWithin k (2 * g.names.slots.length + 1) (index + 1)

section Rehash

structure Reentered (g g' : Groups) (count : ℕ) : Prop where
  heap : g'.heap = g.heap
  groupIdMap : g'.groupIdMap = g.groupIdMap
  limit : g'.names.limit = g.names.limit
  counted : g'.names.numEntries = g.names.numEntries + count
  contains : ∀ b, g'.Contains b ↔ g.Contains b

omit [NeZero n] in
theorem Reentered.trans {g₁ g₂ g₃ : Groups} {c c' : ℕ} (h : Reentered g₁ g₂ c)
    (h' : Reentered g₂ g₃ c') : Reentered g₁ g₃ (c + c') where
  heap := h'.heap.trans h.heap
  groupIdMap := h'.groupIdMap.trans h.groupIdMap
  limit := h'.limit.trans h.limit
  counted := by rw [h'.counted, h.counted, Nat.add_assoc]
  contains b := (h'.contains b).trans (h.contains b)

theorem reenter (h : g.Shelved n) {m j : Fin n}
    (hmend : Mending (nameHome n) none (g.nameKeys n) m.val j) (hmj : m < j)
    (hsettled : Settled k g 1) : ∃ a g', g.names.entry m = some a ∧
      (g.setEntry m none).enterName k a = .ok g' ∧ g'.Shelved n ∧
      Mending (nameHome n) none (g'.nameKeys n) (m.val + 1) j ∧ Reentered g g' 1 := by
  have hlive : g.names.entry m ≠ none := fun hnone =>
    (hmend.pending m le_rfl hmj).1 (h.nameAt_none.mpr hnone)
  obtain ⟨a, ha⟩ := ne_none_iff_exists'.mp hlive
  obtain ⟨r, hr, hkey, hhash⟩ := h.nameAt_eq ha
  have hkey' : g.nameKeys n m = some r.groupName := hkey
  have hvacant := h.vacate m
  obtain ⟨s, hs⟩ : ∃ s, probe (update (g.nameKeys n) m none) none
      (nameHome n (g.nameKeys n m)) none = some s :=
    probe_isSome (j := m) (Or.inl (update_self _ _ _))
  have hstep := hmend.step hmj hs
  rw [hkey', ← h.nameKeys_vacate] at hs
  have henter := enterName_eq (k := k) hvacant hsettled hr hhash hs
  have hempty : (g.setEntry m none).countEntry.names.entry s = none := by
    rw [← hvacant.countEntry.nameAt_none]
    exact (probe_stops hs).1.elim id id
  refine ⟨a, _, ha, henter, hvacant.countEntry.fill s hr hhash, ?_, rfl, rfl, rfl, rfl, fun b => ?_⟩
  · rw [hvacant.countEntry.nameKeys_fill s (show _ = some r from hr)]
    show Mending _ _ (update ((g.setEntry m none).nameKeys n) s _) _ _
    rw [h.nameKeys_vacate, ← hkey']
    exact hstep
  · rw [hvacant.countEntry.contains_fill hempty]
    have hvac : (g.setEntry m none).countEntry.Contains b ↔ g.Contains b ∧ b ≠ a :=
      h.contains_vacate hmend.distinct ha
    rw [hvac]
    constructor
    · rintro (rfl | hb)
      · exact ⟨m, ha⟩
      · exact hb.1
    · intro hb
      by_cases hba : b = a
      · exact Or.inl hba
      · exact Or.inr ⟨hb, hba⟩

theorem rehashAfterWithin_spec (fuel : ℕ) {m : ℕ} {j : Fin n} (h : g.Shelved n)
    (hmend : Mending (nameHome n) none (g.nameKeys n) m j) (hmj : m ≤ j.val)
    (hsettled : Settled k g (j.val - m)) (hfuel : j.val - m < fuel) :
    ∃ g', g.rehashAfterWithin k fuel m = .ok g' ∧ g'.Shelved n ∧
      Chained (nameHome n) none (g'.nameKeys n) ∧ Reentered g g' (j.val - m) := by
  induction fuel generalizing g m with
  | zero => omega
  | succ fuel ih =>
    have hlt : m < g.names.slots.length := by
      rw [h.length]
      omega
    rw [rehashAfterWithin, if_pos hlt]
    rcases Nat.eq_or_lt_of_le hmj with rfl | hlt'
    · have hnone : g.names.entry j = none := h.nameAt_none.mp hmend.empty
      rw [hnone, Nat.sub_self]
      exact ⟨g, rfl, h, hmend.chained, rfl, rfl, rfl, rfl, fun _ => Iff.rfl⟩
    · have hone : Settled k g 1 := hsettled.imp_left fun hle => by omega
      obtain ⟨a, g₁, ha, henter, h₁, hmend₁, hre⟩ :=
        reenter (m := ⟨m, by omega⟩) h hmend (Fin.lt_def.mpr hlt') hone
      have hsettled₁ : Settled k g₁ (j.val - (m + 1)) := by
        rw [Settled, hre.counted, hre.limit]
        exact hsettled.imp_left fun hle => by omega
      have hless : j.val - (m + 1) < fuel := by omega
      obtain ⟨g', hrun, h', hchained, hre'⟩ := ih h₁ hmend₁ hlt' hsettled₁ hless
      have ha' : g.names.entry m = some a := ha
      refine ⟨g', ?_, h', hchained, ?_⟩
      · rw [ha']
        simp only [henter, ok_bind]
        exact hrun
      · have hsum := hre.trans hre'
        rwa [show 1 + (j.val - (m + 1)) = j.val - m by omega] at hsum

end Rehash

end Groups

end MachUS.Auth
