import MachUS.Auth.Loading
import MachUS.Foundation.DepthFirst

namespace MachUS.Auth

open Relation Function Outcome List Option Direction Groups DepthFirst

namespace Groups

structure Walk where
  touched : Addr → Bool
  groupIds : Option (List GroupId)
  groupCount : ℕ

namespace Walk

def copy (copyGroupIds : Bool) (id : GroupId) (w : Walk) : Outcome Walk :=
  if copyGroupIds then
    match w.groupIds with
    | none => .error .nullPointer
    | some ids =>
      if w.groupCount < ids.length then .ok { w with groupIds := some (ids.set w.groupCount id) }
      else .error .idListRange
  else .ok w

def enter (copyGroupIds : Bool) (id : GroupId) (a : Addr) (w : Walk) : Outcome Walk := do
  let w ← { w with touched := update w.touched a true }.copy copyGroupIds id
  .ok { w with groupCount := w.groupCount + 1 }

end Walk

def recursiveSearch (g : Groups) (dir : Direction) (copyGroupIds : Bool) :
    ℕ → GroupId → Walk → Outcome Walk
  | 0, _, _ => .error .endlessRecursion
  | depth + 1, id, w => do
    match ← g.idSlot id with
    | none => .ok w
    | some a => do
      let r ← g.deref a
      if w.touched a then .ok w
      else
        let w ← w.enter copyGroupIds id a
        foldlM (fun w m => recursiveSearch g dir copyGroupIds depth m w) w (dir.next r)

def untouch (g : Groups) (touched : Addr → Bool) (id : GroupId) : Outcome (Addr → Bool) :=
  match g.groupIdMap id with
  | none => .ok touched
  | some a => do
    let _ ← g.deref a
    .ok (update touched a false)

def clearTouched (g : Groups) (touched : Addr → Bool) : Outcome (Addr → Bool) :=
  foldlM g.untouch touched allIds

def searchEach (g : Groups) (dir : Direction) (copyGroupIds : Bool) (w : Walk) (ms : List GroupId) :
    Outcome Walk :=
  foldlM (fun w m => g.recursiveSearch dir copyGroupIds (groupIdMax + 1) m w) w ms

def vmAllocate (k : Kernel) (count : ℕ) : Option (List GroupId) :=
  if k.list then some (replicate count 0) else none

def transitiveClosure (k : Kernel) (g : Groups) (dir : Direction) (r : GroupRecord)
    (touched : Addr → Bool) : Outcome (Option (List GroupId) × ℕ) := do
  let touched ← g.clearTouched touched
  let counted ← g.searchEach dir false ⟨touched, none, 0⟩ (dir.next r)
  let touched ← g.clearTouched counted.touched
  let copied ← g.searchEach dir true ⟨touched, vmAllocate k counted.groupCount, 0⟩ (dir.next r)
  .ok (copied.groupIds, counted.groupCount)

variable {g : Groups} {dir : Direction} {r : GroupRecord} {k : Kernel}

structure Database (g : Groups) (dir : Direction) : Prop where
  mapped : ∀ id a, g.groupIdMap id = some a → ∃ r, g.heap a = some r ∧ r.groupId = id
  range : ∀ id a, g.groupIdMap id = some a → id.toNat < groupIdMax
  listed : ∀ id, ∀ m ∈ g.listOf dir id, m.toNat < groupIdMax

def Reachable (g : Groups) (dir : Direction) (r : GroupRecord) (id : GroupId) : Prop :=
  (g.recordOf id).isSome = true ∧ ∃ m ∈ dir.next r, ReflTransGen (fun x y => y ∈ g.listOf dir x) m id

def present (g : Groups) (id : GroupId) : Bool := (g.recordOf id).isSome

theorem listOf_of_not_present {id : GroupId} (hid : ¬g.present id = true) : g.listOf dir id = [] := by
  rw [present, isSome_iff_exists, not_exists] at hid
  rw [listOf, eq_none_iff_forall_not_mem.mpr hid]
  rfl

namespace Database

variable (h : g.Database dir)

include h

theorem recordOf_eq {id : GroupId} {a : Addr} (ha : g.groupIdMap id = some a) :
    ∃ r, g.heap a = some r ∧ g.recordOf id = some r ∧ r.groupId = id := by
  obtain ⟨r, hr, hid⟩ := h.mapped id a ha
  exact ⟨r, hr, by rw [recordOf, ha]; exact hr, hid⟩

theorem present_iff {id : GroupId} : g.present id = true ↔ ∃ a, g.groupIdMap id = some a := by
  rw [present]
  constructor
  · intro hsome
    cases ha : g.groupIdMap id with
    | none =>
      rw [recordOf, ha] at hsome
      cases hsome
    | some a => exact ⟨a, rfl⟩
  · rintro ⟨a, ha⟩
    obtain ⟨r, -, hr, -⟩ := h.recordOf_eq ha
    rw [hr]
    rfl

theorem injective {id id' : GroupId} {a : Addr} (ha : g.groupIdMap id = some a)
    (ha' : g.groupIdMap id' = some a) : id = id' := by
  obtain ⟨r, hr, hid⟩ := h.mapped id a ha
  obtain ⟨r', hr', hid'⟩ := h.mapped id' a ha'
  cases hr.symm.trans hr'
  exact hid.symm.trans hid'

theorem mem_allIds_of {id : GroupId} (hid : g.present id = true) : id ∈ allIds := by
  obtain ⟨a, ha⟩ := h.present_iff.mp hid
  exact mem_allIds.mpr (h.range id a ha)

theorem found (r : GroupRecord) : ∃ ids,
    visitAll g.present (g.listOf dir) (groupIdMax + 1) (dir.next r) [] = some ids ∧
      ids.Nodup ∧ ∀ id, id ∈ ids ↔ g.Reachable dir r id := by
  have hlen : allIds.length < groupIdMax + 1 := by
    rw [allIds, length_map, length_range]
    exact Nat.lt_succ_self _
  obtain ⟨ids, hrun, hext⟩ := visitAll_spec (g.listOf dir) (dir.next r)
    (fun _ => h.mem_allIds_of) hlen
  exact ⟨ids, hrun, hext.nodup nodup_nil, fun id => hext.mem_iff fun _ => listOf_of_not_present⟩

end Database

structure Tracks (g : Groups) (copyGroupIds : Bool) (size : ℕ) (w : Walk) (ids : List GroupId) :
    Prop where
  touched : ∀ id a, g.groupIdMap id = some a → (w.touched a = true ↔ id ∈ ids)
  count : w.groupCount = ids.length
  memory : copyGroupIds = true →
    (w.groupIds.getD []).length = size ∧ (w.groupIds.getD []).take ids.length = ids

theorem take_set {ids mem : List GroupId} {id : GroupId} (hlt : ids.length < mem.length)
    (htake : mem.take ids.length = ids) :
    (mem.set ids.length id).take (ids.length + 1) = ids ++ [id] := by
  rw [take_add_one, take_set_of_le (le_refl _), htake, getElem?_set_self hlt]
  rfl

section Search

variable {copyGroupIds : Bool} {size : ℕ} {w : Walk} {ids : List GroupId} {id : GroupId} {a : Addr}

section

variable (h : g.Tracks copyGroupIds size w ids) (hdb : g.Database dir)
  (ha : g.groupIdMap id = some a)

include h hdb ha

theorem Tracks.touch (id' : GroupId) (a' : Addr) (ha' : g.groupIdMap id' = some a') :
    update w.touched a true a' = true ↔ id' ∈ ids ++ [id] := by
  rw [mem_append, mem_singleton]
  by_cases heq : a' = a
  · subst heq
    rw [update_self]
    exact iff_of_true rfl (Or.inr (hdb.injective ha' ha))
  · rw [update_of_ne heq, h.touched id' a' ha']
    refine (or_iff_left ?_).symm
    rintro rfl
    exact heq (some.inj (ha'.symm.trans ha))

theorem Tracks.enter (hsize : copyGroupIds = true → ids.length + 1 ≤ size) :
    ∃ w', w.enter copyGroupIds id a = .ok w' ∧ g.Tracks copyGroupIds size w' (ids ++ [id]) := by
  have hcount : w.groupCount + 1 = (ids ++ [id]).length := by
    rw [h.count, length_append, length_singleton]
  cases copyGroupIds with
  | false => exact ⟨_, rfl, h.touch hdb ha, hcount, by simp⟩
  | true =>
    obtain ⟨hlen, htake⟩ := h.memory rfl
    have hroom := hsize rfl
    cases hmem : w.groupIds with
    | none =>
      rw [hmem, getD_none, length_nil] at hlen
      omega
    | some mem =>
      rw [hmem, getD_some] at hlen htake
      have hlt : w.groupCount < mem.length := by rw [h.count, hlen]; exact hroom
      refine ⟨{ w with
        touched := update w.touched a true
        groupIds := some (mem.set w.groupCount id)
        groupCount := w.groupCount + 1 }, ?_, h.touch hdb ha, hcount, fun _ => ?_⟩
      · rw [Walk.enter, Walk.copy, if_pos rfl, hmem]
        simp only [if_pos hlt]
        rfl
      · rw [getD_some, length_set, length_append, length_singleton, h.count]
        exact ⟨hlen, take_set (h.count ▸ hlt) htake⟩

end

theorem follows (hdb : g.Database dir) (copyGroupIds : Bool) (size : ℕ) :
    Follows g.present (g.listOf dir) (g.recursiveSearch dir copyGroupIds)
      (g.Tracks copyGroupIds size) (fun ids => copyGroupIds = true → ids.length ≤ size)
      (fun id => id.toNat < groupIdMax) where
  skips := by
    intro depth id w ids hw hid hskip
    rw [recursiveSearch, idSlot, if_pos hid, ok_bind]
    cases ha : g.groupIdMap id with
    | none => rfl
    | some a =>
      obtain ⟨r, hr, -⟩ := hdb.mapped id a ha
      have htouched : w.touched a = true := by
        rw [hw.touched id a ha]
        by_contra hmem
        exact hskip ⟨hdb.present_iff.mpr ⟨a, ha⟩, hmem⟩
      simp only [deref_eq_ok.mpr hr, ok_bind, if_pos htouched]
  enters := by
    intro depth id w ids hw hid hlive hnew hsize
    obtain ⟨a, ha⟩ := hdb.present_iff.mp hlive
    obtain ⟨r, hr, hrecord, -⟩ := hdb.recordOf_eq ha
    have htouched : ¬w.touched a = true := (hw.touched id a ha).not.mpr hnew
    obtain ⟨w', henter, hw'⟩ := hw.enter hdb ha (fun hcopy => by simpa using hsize hcopy)
    refine ⟨w', ?_, hw'⟩
    rw [recursiveSearch, idSlot, if_pos hid, ok_bind, ha]
    simp only [deref_eq_ok.mpr hr, ok_bind, if_neg htouched, henter]
    rw [listOf, hrecord]
    rfl
  listed := fun id _ _ m hm => hdb.listed id m hm
  shorter := fun l l' hl hsize hcopy => hl.length_le.trans (hsize hcopy)

end Search

section Clear

variable {touched touched' : Addr → Bool}

theorem untouch_eq (hdb : g.Database dir) (touched : Addr → Bool) (id : GroupId) : ∃ touched',
    g.untouch touched id = .ok touched' ∧ (∀ a, touched a = false → touched' a = false) ∧
      ∀ a, g.groupIdMap id = some a → touched' a = false := by
  rw [untouch]
  cases ha : g.groupIdMap id with
  | none => exact ⟨touched, rfl, fun _ h => h, by simp⟩
  | some a =>
    obtain ⟨r, hr, -⟩ := hdb.mapped id a ha
    simp only [deref_eq_ok.mpr hr, ok_bind]
    refine ⟨_, rfl, fun b hb => ?_, fun b hb => ?_⟩
    · by_cases hba : b = a
      · rw [hba, update_self]
      · rw [update_of_ne hba, hb]
    · rw [some.inj hb, update_self]

theorem untouchAll_eq (hdb : g.Database dir) (touched : Addr → Bool) (ids : List GroupId) : ∃ touched',
    foldlM g.untouch touched ids = .ok touched' ∧
      (∀ a, touched a = false → touched' a = false) ∧
      ∀ id ∈ ids, ∀ a, g.groupIdMap id = some a → touched' a = false := by
  induction ids generalizing touched with
  | nil => exact ⟨touched, rfl, fun _ => id, by simp⟩
  | cons id ids ih =>
    obtain ⟨t, hrun, hkept, hclear⟩ := untouch_eq hdb touched id
    obtain ⟨u, hrun', hkept', hclear'⟩ := ih t
    refine ⟨u, ?_, fun a ha => hkept' a (hkept a ha), fun id' hid' a ha => ?_⟩
    · rw [foldlM_cons, hrun]
      exact hrun'
    · rcases mem_cons.mp hid' with rfl | hid'
      · exact hkept' a (hclear a ha)
      · exact hclear' id' hid' a ha

theorem clearTouched_spec (hdb : g.Database dir) (touched : Addr → Bool) :
    ∃ touched', g.clearTouched touched = .ok touched' ∧
      ∀ id a, g.groupIdMap id = some a → touched' a = false := by
  obtain ⟨touched', hrun, -, hclear⟩ := untouchAll_eq hdb touched allIds
  exact ⟨touched', hrun, fun id a ha => hclear id (mem_allIds.mpr (hdb.range id a ha)) a ha⟩

theorem tracks_start (copyGroupIds : Bool) (memory : Option (List GroupId))
    (hclear : ∀ id a, g.groupIdMap id = some a → touched a = false) :
    g.Tracks copyGroupIds (memory.getD []).length ⟨touched, memory, 0⟩ [] where
  touched id a ha := by simp [hclear id a ha]
  count := rfl
  memory := fun _ => ⟨rfl, rfl⟩

end Clear

section Closure

variable {copyGroupIds : Bool} {w w' : Walk}

theorem copy_null {id : GroupId} (h : w.copy copyGroupIds id = .ok w') (hnull : w.groupIds = none) :
    w'.groupIds = none := by
  rw [Walk.copy] at h
  split_ifs at h
  · rw [hnull] at h
    cases h
  · rw [← Except.ok.inj h]
    exact hnull

theorem foldlM_null {f : Walk → GroupId → Outcome Walk}
    (hf : ∀ w m w', f w m = .ok w' → w.groupIds = none → w'.groupIds = none) (ms : List GroupId)
    (h : foldlM f w ms = .ok w') (hnull : w.groupIds = none) : w'.groupIds = none := by
  induction ms generalizing w with
  | nil =>
    cases h
    exact hnull
  | cons m ms ih =>
    rw [foldlM_cons] at h
    obtain ⟨t, ht, h⟩ := bind_eq_ok.mp h
    exact ih h (hf w m t ht hnull)

theorem recursiveSearch_null {depth : ℕ} {id : GroupId}
    (h : g.recursiveSearch dir copyGroupIds depth id w = .ok w') (hnull : w.groupIds = none) :
    w'.groupIds = none := by
  induction depth generalizing id w w' with
  | zero => cases h
  | succ depth ih =>
    rw [recursiveSearch] at h
    obtain ⟨o, -, h⟩ := bind_eq_ok.mp h
    cases o with
    | none =>
      rw [← Except.ok.inj h]
      exact hnull
    | some a =>
      obtain ⟨r, -, h⟩ := bind_eq_ok.mp h
      split_ifs at h
      · rw [← Except.ok.inj h]
        exact hnull
      · obtain ⟨t, ht, h⟩ := bind_eq_ok.mp h
        obtain ⟨u, hu, ht⟩ := bind_eq_ok.mp ht
        have hnull' : u.groupIds = none := copy_null hu hnull
        rw [← Except.ok.inj ht] at h
        exact foldlM_null (fun _ _ _ hm => ih hm) _ h hnull'

def Closes (k : Kernel) (g : Groups) (dir : Direction) (r : GroupRecord) (touched : Addr → Bool) :
    Prop :=
  ∃ list count, g.transitiveClosure k dir r touched = .ok (list, count) ∧
    count = (list.getD []).length ∧ (list.getD []).Nodup ∧
    ∀ id, id ∈ list.getD [] ↔ g.Reachable dir r id

theorem length_vmAllocate {count : ℕ} (h : k.list = true ∨ count = 0) :
    ((vmAllocate k count).getD []).length = count := by
  rw [vmAllocate]
  split_ifs with hlist
  · rw [getD_some, length_replicate]
  · exact (h.resolve_left hlist).symm

section

variable (hdb : g.Database dir) (hr : ∀ m ∈ dir.next r, m.toNat < groupIdMax)
  (touched : Addr → Bool)

include hdb hr touched

theorem transitiveClosure_eq {ids : List GroupId} (hroom : k.list = true ∨ ids = [])
    (hrun : visitAll g.present (g.listOf dir) (groupIdMax + 1) (dir.next r) [] = some ids) :
    ∃ list, g.transitiveClosure k dir r touched = .ok (list, ids.length) ∧ list.getD [] = ids := by
  obtain ⟨t, ht, hclear⟩ := clearTouched_spec hdb touched
  obtain ⟨w, hw, hcounted⟩ := (follows hdb false 0).list (tracks_start false none hclear) hr
    (by simp) hrun
  obtain ⟨t', ht', hclear'⟩ := clearTouched_spec hdb w.touched
  have hsize : ((vmAllocate k w.groupCount).getD []).length = ids.length := by
    rw [hcounted.count]
    exact length_vmAllocate (hroom.imp_right fun hnil => by rw [hnil, length_nil])
  obtain ⟨w', hw', hcopied⟩ := (follows hdb true _).list
    (tracks_start true (vmAllocate k w.groupCount) hclear') hr (fun _ => hsize.ge) hrun
  obtain ⟨hlen, htake⟩ := hcopied.memory rfl
  refine ⟨w'.groupIds, ?_, ?_⟩
  · rw [transitiveClosure, ht, ok_bind, searchEach, hw, ok_bind, ht',
      ok_bind, searchEach, hw', ok_bind, hcounted.count]
  · rwa [take_of_length_le (by rw [hlen, hsize])] at htake

theorem closes_of_room (hroom : k.list = true ∨ ∀ id, ¬g.Reachable dir r id) :
    g.Closes k dir r touched := by
  obtain ⟨ids, hrun, hnodup, hmem⟩ := hdb.found r
  have hroom' : k.list = true ∨ ids = [] := hroom.imp_right fun hnone =>
    eq_nil_iff_forall_not_mem.mpr fun id hid => hnone id ((hmem id).mp hid)
  obtain ⟨list, hclosure, rfl⟩ := transitiveClosure_eq hdb hr touched hroom' hrun
  exact ⟨list, _, hclosure, rfl, hnodup, hmem⟩

end

theorem Closes.room {touched : Addr → Bool} (h : g.Closes k dir r touched) :
    k.list = true ∨ ∀ id, ¬g.Reachable dir r id := by
  refine or_iff_not_imp_left.mpr fun hlist id hid => ?_
  obtain ⟨list, count, hrun, -, -, hmem⟩ := h
  rw [transitiveClosure] at hrun
  obtain ⟨t, -, hrun⟩ := bind_eq_ok.mp hrun
  obtain ⟨w, -, hrun⟩ := bind_eq_ok.mp hrun
  obtain ⟨t', -, hrun⟩ := bind_eq_ok.mp hrun
  obtain ⟨w', hcopied, hrun⟩ := bind_eq_ok.mp hrun
  rw [vmAllocate, if_neg hlist] at hcopied
  have hnull : w'.groupIds = none := foldlM_null (fun _ _ _ => recursiveSearch_null) _ hcopied rfl
  cases hrun
  rw [hnull] at hmem
  exact absurd ((hmem id).mpr hid) not_mem_nil

/-- The closure is the list of the groups that are reachable, each once, and its length, exactly
when vm_allocate grants the list or there is no such group. -/
theorem transitive_closure_iff (k : Kernel) (g : Groups) (dir : Direction) (r : GroupRecord)
    (touched : Addr → Bool) (hdb : g.Database dir) (hr : ∀ m ∈ dir.next r, m.toNat < groupIdMax) :
    g.Closes k dir r touched ↔ k.list = true ∨ ∀ id, ¬g.Reachable dir r id :=
  ⟨Closes.room, closes_of_room hdb hr touched⟩

end Closure

end Groups

namespace Sample

def groupA : GroupRecord := group [97] 2 asSecondary [] [3, 2]

def groupB : GroupRecord := group [98] 3 asSecondary [] [2, 4, 9]

def groupC : GroupRecord := group [99] 4 asSecondary [] [2]

def cycle : Groups where
  heap := fun a =>
    if a = 20 then some groupA else if a = 30 then some groupB else if a = 40 then some groupC
    else none
  groupIdMap := fun id =>
    if id = 2 then some 20 else if id = 3 then some 30 else if id = 4 then some 40 else none
  names := ⟨[], 0, 0⟩

theorem cycle_mapped (id : GroupId) (a : Addr) (h : cycle.groupIdMap id = some a) :
    (id = 2 ∧ a = 20) ∨ (id = 3 ∧ a = 30) ∨ (id = 4 ∧ a = 40) := by
  simp only [cycle] at h
  split_ifs at h with h2 h3 h4
  · exact Or.inl ⟨h2, (some.inj h).symm⟩
  · exact Or.inr (Or.inl ⟨h3, (some.inj h).symm⟩)
  · exact Or.inr (Or.inr ⟨h4, (some.inj h).symm⟩)

theorem cycle_database : cycle.Database .memberships where
  mapped := by
    intro id a h
    rcases cycle_mapped id a h with ⟨rfl, rfl⟩ | ⟨rfl, rfl⟩ | ⟨rfl, rfl⟩
    · exact ⟨groupA, rfl, rfl⟩
    · exact ⟨groupB, rfl, rfl⟩
    · exact ⟨groupC, rfl, rfl⟩
  range := by
    intro id a h
    rcases cycle_mapped id a h with ⟨rfl, -⟩ | ⟨rfl, -⟩ | ⟨rfl, -⟩ <;> decide
  listed := by
    intro id m hm
    cases h : cycle.groupIdMap id with
    | none =>
      rw [listOf, recordOf, h] at hm
      exact absurd hm not_mem_nil
    | some a =>
      revert m
      rcases cycle_mapped id a h with ⟨rfl, -⟩ | ⟨rfl, -⟩ | ⟨rfl, -⟩
      · simp [listOf, recordOf, cycle, groupA, group, Direction.next, groupIdMax]
      · simp [listOf, recordOf, cycle, groupB, group, Direction.next, groupIdMax]
      · simp [listOf, recordOf, cycle, groupC, group, Direction.next, groupIdMax]

end Sample

namespace Groups

theorem transitive_closure_cycle : Sample.cycle.Closes (Sample.kernel 50) .memberships Sample.groupA
    (fun _ => true) ∧ Sample.cycle.Reachable .memberships Sample.groupA 2 := by
  have hr : ∀ m ∈ memberships.next Sample.groupA, m.toNat < groupIdMax := by
    simp [Direction.next, Sample.groupA, Sample.group, groupIdMax]
  refine ⟨(transitive_closure_iff _ _ _ _ _ Sample.cycle_database hr).mpr (Or.inl rfl), rfl, 2, ?_,
    ReflTransGen.refl⟩
  simp [Direction.next, Sample.groupA, Sample.group]

theorem refused_list_is_written : ¬Sample.cycle.Closes { Sample.kernel 50 with list := false }
    .memberships Sample.groupA (fun _ => true) := by
  intro hcloses
  rcases hcloses.room with hlist | hnone
  · cases hlist
  · refine hnone 2 ⟨rfl, 2, ?_, ReflTransGen.refl⟩
    simp [Direction.next, Sample.groupA, Sample.group]

end Groups

end MachUS.Auth
