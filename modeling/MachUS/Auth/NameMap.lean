import MachUS.Auth.NameChains
import MachUS.Foundation.Transition

namespace MachUS.Auth

open List Probing NameTable GroupRecord Outcome

namespace Groups

variable {g g' : Groups} {n : ℕ} [NeZero n] {k : Kernel} {a b : Addr} {r : GroupRecord}
  {name : GroupName} {live : List (GroupName × Addr)}

structure Filed (g : Groups) (n : ℕ) [NeZero n] (live : List (GroupName × Addr)) : Prop
    extends g.Shelved n where
  chained : Chained (nameHome n) none (g.nameKeys n)
  lists : ∀ name a, (name, a) ∈ live ↔
    g.Contains a ∧ (g.heap a).map groupName = some name

theorem lookup_eq_some (hfun : ∀ name a b, (name, a) ∈ live → (name, b) ∈ live → a = b) :
    live.lookup name = some a ↔ (name, a) ∈ live := by
  induction live with
  | nil => simp
  | cons e live ih =>
    obtain ⟨name', b⟩ := e
    rw [lookup_cons, mem_cons]
    by_cases hname : name = name'
    · subst hname
      rw [beq_self_eq_true]
      constructor
      · intro h
        rw [Option.some.inj h]
        exact Or.inl rfl
      · intro h
        rw [hfun name a b (mem_cons.mpr h) mem_cons_self]
    · rw [beq_eq_false_iff_ne.mpr hname,
        ih fun name a b ha hb => hfun name a b (mem_cons_of_mem _ ha) (mem_cons_of_mem _ hb)]
      refine ⟨Or.inr, fun h => h.resolve_left fun heq => ?_⟩
      exact hname (congrArg Prod.fst heq)

theorem Shelved.exists_empty (h : g.Shelved n) (hnone : none ∈ g.names.slots) (start : Fin n) :
    ∃ s, probe (g.nameKeys n) none start none = some s := by
  obtain ⟨i, hi, hslot⟩ := getElem_of_mem hnone
  have hentry : g.names.entry i = none := by
    rw [entry, getD_eq_getElem _ _ hi, hslot]
  have hkey : g.nameKeys n ⟨i, h.length ▸ hi⟩ = none := h.nameAt_none.mpr hentry
  exact probe_isSome (Or.inl hkey)

namespace Filed

section

variable (h : g.Filed n live)

include h

theorem distinct : Distinct none (g.nameKeys n) :=
  (chained_iff.mp h.chained).1

theorem functional (name : GroupName) (a b : Addr) (ha : (name, a) ∈ live)
    (hb : (name, b) ∈ live) : a = b := by
  obtain ⟨⟨i, hi⟩, hname⟩ := (h.lists name a).mp ha
  obtain ⟨⟨q, hq⟩, hname'⟩ := (h.lists name b).mp hb
  obtain rfl := h.eq_of_name h.distinct hi hq (hname.trans hname'.symm)
  exact Option.some.inj (hi.symm.trans hq)

theorem key_of_mem (ha : (name, a) ∈ live) :
    ∃ i : Fin n, g.names.entry i = some a ∧ g.nameKeys n i = some name := by
  obtain ⟨⟨i, hi⟩, hname⟩ := (h.lists name a).mp ha
  have hlt : i < n := h.length ▸ lt_of_entry hi
  refine ⟨⟨i, hlt⟩, hi, ?_⟩
  show g.nameAt i = some name
  rw [nameAt, hi, Option.bind_some, hname]

theorem mem_of_key {i : Fin n} (hi : g.nameKeys n i = some name) :
    ∃ a, g.names.entry i = some a ∧ (name, a) ∈ live := by
  obtain ⟨a, ha, hname⟩ := Option.bind_eq_some_iff.mp hi
  exact ⟨a, ha, (h.lists name a).mpr ⟨⟨i, ha⟩, hname⟩⟩

theorem lookupName_eq (hhash : 0 ≤ hashName n name.bytes) :
    g.lookupName name = .ok (live.lookup name) := by
  rw [lookupName, h.findSlot_eq hhash, ok_bind]
  cases hlook : live.lookup name with
  | some a =>
    rw [lookup_eq_some h.functional] at hlook
    obtain ⟨i, hi, hkey⟩ := h.key_of_mem hlook
    rw [h.chained.probe_live (Option.some_ne_none name) hkey]
    exact congrArg Except.ok hi
  | none =>
    have habsent : ∀ i, g.nameKeys n i ≠ some name := by
      intro i hi
      obtain ⟨a, -, ha⟩ := h.mem_of_key hi
      rw [(lookup_eq_some h.functional).mpr ha] at hlook
      cases hlook
    cases hprobe : probe (g.nameKeys n) none (nameHome n (some name)) (some name) with
    | none => rfl
    | some i => exact congrArg Except.ok (h.nameAt_none.mp (probe_absent habsent hprobe))

theorem absent (hnew : ∀ b, (name, b) ∉ live) (i : Fin n) : g.nameKeys n i ≠ some name := by
  intro hi
  obtain ⟨a, -, ha⟩ := h.mem_of_key hi
  exact hnew a ha

theorem countEntry : g.countEntry.Filed n live :=
  ⟨h.toShelved.countEntry, h.chained, h.lists⟩

theorem fill (hr : g.heap a = some r)
    (hhash : 0 ≤ hashName n r.groupName.bytes) (hnew : ∀ b, (r.groupName, b) ∉ live) {s : Fin n}
    (hs : probe (g.nameKeys n) none (nameHome n (some r.groupName)) none = some s) :
    (g.setEntry s (some a)).Filed n ((r.groupName, a) :: live) := by
  have hempty : g.names.entry s = none := by
    rw [← h.nameAt_none]
    exact (probe_stops hs).1.elim id id
  refine ⟨h.toShelved.fill s hr hhash, ?_, fun name b => ?_⟩
  · rw [h.nameKeys_fill s hr]
    exact h.chained.enter (Option.some_ne_none _) (h.absent hnew) hs
  · rw [mem_cons, Prod.mk.injEq, h.contains_fill hempty, h.lists, or_and_right]
    refine or_congr_left ?_
    show name = r.groupName ∧ b = a ↔ b = a ∧ (g.heap b).map groupName = some name
    constructor
    · rintro ⟨rfl, rfl⟩
      exact ⟨rfl, by rw [hr, Option.map_some]⟩
    · rintro ⟨rfl, hname⟩
      rw [hr, Option.map_some] at hname
      exact ⟨(Option.some.inj hname).symm, rfl⟩

end

end Filed

section Delete

def without (name : GroupName) (live : List (GroupName × Addr)) : List (GroupName × Addr) :=
  live.filter (·.1 ≠ name)

theorem mem_without {name' : GroupName} :
    (name', b) ∈ without name live ↔ (name', b) ∈ live ∧ name' ≠ name := by
  rw [without, mem_filter, decide_eq_true_iff]

theorem without_eq (h : ∀ a, (name, a) ∉ live) : without name live = live := by
  refine filter_eq_self.mpr fun e he => decide_eq_true fun heq => h e.2 ?_
  rw [← heq]
  exact he

theorem length_without (hnodup : (live.map Prod.fst).Nodup) (ha : (name, a) ∈ live) :
    (without name live).length + 1 = live.length := by
  have hone : (live.map Prod.fst).count name = 1 :=
    count_eq_one_of_mem hnodup (mem_map_of_mem (f := Prod.fst) ha)
  rw [count, countP_map] at hone
  have hsum : live.length = live.countP (fun e => decide (e.1 ≠ name)) +
      live.countP fun e => ¬decide (e.1 ≠ name) = true := length_eq_countP_add_countP _
  rw [without, ← countP_eq_length_filter, hsum]
  refine congrArg _ (hone.symm.trans (countP_congr fun e _ => ?_))
  simp

namespace Filed

theorem find_absent (h : g.Filed n live) (hhash : 0 ≤ hashName n name.bytes)
    (hnew : ∀ b, (name, b) ∉ live) : g.deleteNameWithin k name.bytes = .ok g := by
  rw [deleteNameWithin, h.findSlot_eq hhash, ok_bind]
  cases hprobe : probe (g.nameKeys n) none (nameHome n (some name)) (some name) with
  | none => rfl
  | some i =>
    have hnone : g.names.entry i = none :=
      h.nameAt_none.mp (probe_absent (h.absent hnew) hprobe)
    simp only [Option.map_some, hnone]

theorem find_live (h : g.Filed n live) (hhash : 0 ≤ hashName n name.bytes)
    (ha : (name, a) ∈ live) : ∃ i : Fin n, g.findSlot name.bytes = .ok (some i.val) ∧
      g.names.entry i = some a ∧ g.nameKeys n i = some name := by
  obtain ⟨i, hi, hkey⟩ := h.key_of_mem ha
  refine ⟨i, ?_, hi, hkey⟩
  rw [h.findSlot_eq hhash, h.chained.probe_live (Option.some_ne_none name) hkey, Option.map_some]

theorem delete (h : g.Filed n live) {i j : Fin n} (hslot : g.findSlot name.bytes = .ok (some i.val))
    (hi : g.names.entry i = some a) (hname : g.nameKeys n i = some name) (hij : i < j)
    (hj : g.names.entry j = none)
    (hrun : ∀ m : Fin n, i < m → m < j → g.names.entry m ≠ none)
    (hsettled : Settled k g (j.val - (i.val + 1))) :
    ∃ g', g.deleteNameWithin k name.bytes = .ok g' ∧ g'.Filed n (without name live) ∧
      g'.heap = g.heap ∧ g.names.numEntries ≤ g'.names.numEntries := by
  have hmend := h.chained.mending (i := i) (h.nameAt_none.mpr hj) hij
    fun m him hmj => h.nameAt_none.not.mpr (hrun m him hmj)
  rw [← h.nameKeys_vacate] at hmend
  obtain ⟨g', hrun', hshelved, hchained, hre⟩ := rehashAfterWithin_spec (2 * n + 1) (h.vacate i)
    hmend (Fin.lt_def.mp hij) hsettled (by omega)
  refine ⟨g', ?_, ⟨hshelved, hchained, fun name' b => ?_⟩, hre.heap, ?_⟩
  · rw [deleteNameWithin, hslot, ok_bind]
    simp only [hi, h.length]
    exact hrun'
  · have hown : (g.heap a).map groupName = some name := by
      have hkey : g.nameAt i = some name := hname
      rwa [nameAt, hi, Option.bind_some] at hkey
    have hlive : (name, a) ∈ live := (h.lists name a).mpr ⟨⟨i, hi⟩, hown⟩
    rw [mem_without, h.lists, hre.contains, h.contains_vacate h.distinct hi, hre.heap]
    constructor
    · rintro ⟨⟨hb, hname'⟩, hne⟩
      refine ⟨⟨hb, ?_⟩, hname'⟩
      rintro rfl
      exact hne (Option.some.inj (hname'.symm.trans hown))
    · rintro ⟨⟨hb, hne⟩, hname'⟩
      refine ⟨⟨hb, hname'⟩, ?_⟩
      rintro rfl
      exact hne (h.functional name' b a ((h.lists name' b).mpr ⟨hb, hname'⟩) hlive)
  · rw [hre.counted]
    exact Nat.le_add_right _ _

end Filed

end Delete

section Grow

omit [NeZero n] in
theorem contains_iff_mem : g.Contains b ↔ some b ∈ g.names.slots := by
  constructor
  · rintro ⟨i, hi⟩
    have hlt := lt_of_entry hi
    rw [entry, getD_eq_getElem _ _ hlt] at hi
    exact hi ▸ getElem_mem hlt
  · intro hmem
    obtain ⟨i, hi, hslot⟩ := getElem_of_mem hmem
    exact ⟨i, by rw [entry, getD_eq_getElem _ _ hi, hslot]⟩

def withSlots (g : Groups) (slots : List (Option Addr)) : Groups :=
  { g with names := { g.names with slots := slots } }

def nameOf (g : Groups) (e : Option Addr) : Option GroupName :=
  e.bind fun a => (g.heap a).map groupName

omit [NeZero n] in
theorem nameKeys_withSlots (slots : List (Option Addr)) (i : Fin n) :
    (g.withSlots slots).nameKeys n i = g.nameOf (slots.getD i none) := rfl

theorem rehash_spec {old slots : List (Option Addr)} (h : (g.withSlots slots).Shelved n)
    (hchained : Chained (nameHome n) none ((g.withSlots slots).nameKeys n))
    (hold : ∀ e ∈ old, ∃ a r, e = some a ∧ g.heap a = some r ∧ 0 ≤ hashName n r.groupName.bytes)
    (hdistinct : old.Pairwise fun e e' => g.nameOf e ≠ g.nameOf e')
    (hfresh : ∀ e ∈ old, ∀ i, (g.withSlots slots).nameKeys n i ≠ g.nameOf e)
    (hroom : old.length ≤ slots.count none) :
    ∃ slots', g.rehash old slots = .ok slots' ∧ (g.withSlots slots').Shelved n ∧
      Chained (nameHome n) none ((g.withSlots slots').nameKeys n) ∧
      slots'.count none + old.length = slots.count none ∧
      ∀ b, (g.withSlots slots').Contains b ↔ (g.withSlots slots).Contains b ∨ some b ∈ old := by
  induction old generalizing slots with
  | nil => exact ⟨slots, rfl, h, hchained, rfl, by simp⟩
  | cons e old ih =>
    obtain ⟨a, r, rfl, hr, hhash⟩ := hold e mem_cons_self
    have hname : g.nameOf (some a) = some r.groupName := by
      rw [nameOf, Option.bind_some, hr, Option.map_some]
    rw [length_cons] at hroom
    have hnone : none ∈ slots := count_pos_iff.mp (by omega)
    obtain ⟨s, hs⟩ := h.exists_empty hnone (nameHome n (some r.groupName))
    have hempty : (g.withSlots slots).names.entry s = none := by
      rw [← h.nameAt_none]
      exact (probe_stops hs).1.elim id id
    have habsent : ∀ i, (g.withSlots slots).nameKeys n i ≠ some r.groupName := by
      rw [← hname]
      exact hfresh _ mem_cons_self
    have hkeys : (g.withSlots (slots.set s (some a))).nameKeys n =
        Function.update ((g.withSlots slots).nameKeys n) s (some r.groupName) :=
      h.nameKeys_fill s hr
    have hcount : (slots.set s (some a)).count none + 1 = slots.count none := by
      have hs' : s.val < slots.length := h.length.ge.trans_lt' s.isLt
      have hslot : slots[s.val] = none := by
        rw [← hempty, entry]
        exact (getD_eq_getElem _ _ hs').symm
      rw [count_set hs', hslot]
      simp
      omega
    have hfilled : (g.withSlots (slots.set s (some a))).Shelved n := h.fill s hr hhash
    obtain ⟨slots', hrun, hshelved, hchained', hcount', hcontains⟩ := ih hfilled
        (by rw [hkeys]; exact hchained.enter (Option.some_ne_none _) habsent hs)
        (fun e he => hold e (mem_cons_of_mem _ he)) (pairwise_cons.mp hdistinct).2
        (by
          intro e he i
          rw [hkeys]
          by_cases his : i = s
          · rw [his, Function.update_self, ← hname]
            exact (pairwise_cons.mp hdistinct).1 e he
          · rw [Function.update_of_ne his]
            exact hfresh e (mem_cons_of_mem _ he) i)
        (by omega)
    refine ⟨slots', ?_, hshelved, hchained', ?_, fun b => ?_⟩
    · have hslot := h.emptySlot_eq (nameHome n (some r.groupName))
      rw [hs, Option.map_some] at hslot
      have hlen : slots.length = n := h.length
      rw [rehash, deref_eq_ok.mpr hr, ok_bind, hlen, hashIndex_home hhash, ok_bind]
      have hslot' : emptySlot slots (nameHome n (some r.groupName)).val = some s.val := hslot
      simp only [hslot']
      exact hrun
    · rw [length_cons]
      omega
    · have hfill := h.contains_fill (a := a) (b := b) hempty
      rw [hcontains]
      show ((g.withSlots slots).setEntry s (some a)).Contains b ∨ some b ∈ old ↔ _
      rw [hfill, mem_cons, Option.some.injEq, or_comm (a := b = a), or_assoc]

theorem Filed.names_distinct (h : g.Filed n live) (hfull : none ∉ g.names.slots) :
    g.names.slots.Pairwise fun e e' => g.nameOf e ≠ g.nameOf e' := by
  rw [pairwise_iff_getElem]
  intro i q hi hq hiq hsame
  have hkey (p : ℕ) (hp : p < g.names.slots.length) : g.nameAt p = g.nameOf g.names.slots[p] := by
    rw [nameAt, entry, getD_eq_getElem _ _ hp]
    rfl
  have hne : g.nameKeys n ⟨i, h.length ▸ hi⟩ ≠ none := by
    show g.nameAt i ≠ none
    rw [Ne, h.nameAt_none, entry, getD_eq_getElem _ _ hi]
    exact fun hnone => hfull (hnone ▸ getElem_mem hi)
  have heq : g.nameKeys n ⟨i, h.length ▸ hi⟩ = g.nameKeys n ⟨q, h.length ▸ hq⟩ := by
    show g.nameAt i = g.nameAt q
    rw [hkey i hi, hkey q hq, hsame]
  exact absurd (congrArg Fin.val (h.distinct _ _ hne heq)) (by simpa using hiq.ne)

theorem Filed.grow (h : g.Filed n live) [NeZero (2 * n)] (hfull : none ∉ g.names.slots)
    (hhash : ∀ e ∈ live, 0 ≤ hashName (2 * n) e.1.bytes) (htable : k.table = true) :
    ∃ g', g.growNameHashTable k = .ok g' ∧ g'.Filed (2 * n) live ∧ g'.heap = g.heap ∧
      g'.names.numEntries = g.names.numEntries ∧ none ∈ g'.names.slots := by
  have hentry (e : Option Addr) (he : e ∈ g.names.slots) : ∃ a r, e = some a ∧ g.heap a = some r ∧
      0 ≤ hashName (2 * n) r.groupName.bytes := by
    obtain ⟨i, hi, rfl⟩ := getElem_of_mem he
    have hne : g.names.slots[i] ≠ none := fun hnone => hfull (hnone ▸ getElem_mem hi)
    obtain ⟨a, ha⟩ := Option.ne_none_iff_exists'.mp hne
    have ha' : g.names.entry i = some a := by
      rw [entry, getD_eq_getElem _ _ hi, ha]
    obtain ⟨r, hr, -⟩ := h.recorded i a ha'
    refine ⟨a, r, ha, hr, hhash (r.groupName, a) ((h.lists _ _).mpr ⟨⟨i, ha'⟩, ?_⟩)⟩
    rw [hr, Option.map_some]
  have hblank (i : ℕ) : (replicate (2 * n) (none : Option Addr)).getD i none = none := by
    rw [getD_eq_getElem?_getD, getElem?_replicate]
    split_ifs <;> rfl
  have hkeys : (g.withSlots (replicate (2 * n) none)).nameKeys (2 * n) = fun _ => none := by
    funext i
    rw [nameKeys_withSlots, hblank]
    rfl
  have hshelved : (g.withSlots (replicate (2 * n) none)).Shelved (2 * n) := by
    refine ⟨length_replicate, fun i a ha => ?_⟩
    rw [entry, withSlots, hblank] at ha
    cases ha
  have hcount : (replicate (2 * n) (none : Option Addr)).count none = 2 * n :=
    count_replicate_self
  obtain ⟨slots, hrun, hshelved', hchained, hcount', hcontains⟩ := rehash_spec hshelved
    (by rw [hkeys]; exact chained_const) hentry (h.names_distinct hfull)
    (by
      intro e he i
      obtain ⟨a, r, rfl, hr, -⟩ := hentry e he
      rw [hkeys, nameOf, Option.bind_some, hr, Option.map_some]
      exact (Option.some_ne_none _).symm)
    (by rw [hcount, h.length]; omega)
  have hroom : none ∈ slots := count_pos_iff.mp (by
    rw [hcount, h.length] at hcount'
    have hpos := NeZero.pos n
    omega)
  refine ⟨{ g with names := { g.names with slots := slots, limit := g.names.limit * 2 } }, ?_,
    ⟨⟨hshelved'.length, hshelved'.recorded⟩, hchained, fun name b => ?_⟩, rfl, rfl, hroom⟩
  · rw [growNameHashTable, if_pos htable, h.length, hrun]
    rfl
  · rw [h.lists]
    refine and_congr_left fun _ => ?_
    show g.Contains b ↔ (g.withSlots slots).Contains b
    rw [hcontains, contains_iff_mem, contains_iff_mem]
    exact (or_iff_right (by simp [withSlots])).symm

end Grow

end Groups

end MachUS.Auth
