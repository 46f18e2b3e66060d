import MachUS.Foundation.Adjacency
import MachUS.Auth.Changes

namespace MachUS.Auth

open Function List

theorem deleteFromList_perm (l : List GroupId) (x : GroupId) :
    (deleteFromList l x).Perm (l.erase x) := by
  rw [deleteFromList]
  cases h : l.findIdx? (· == x) with
  | none =>
    have hx : x ∉ l := by
      intro hx
      have := findIdx?_eq_none_iff.mp h x hx
      simp at this
    rw [erase_of_not_mem hx]
  | some i =>
    obtain ⟨hi, hxi, hfirst⟩ := findIdx?_eq_some_iff_getElem.mp h
    have hxi' : l[i] = x := by simpa using hxi
    have herase : (l.erase x).Perm (l.eraseIdx i) := by
      have hcons : (l[i] :: l.eraseIdx i).Perm l := getElem_cons_eraseIdx_perm hi
      have hcons' : (x :: l.erase x).Perm l :=
        (perm_cons_erase (hxi' ▸ getElem_mem hi)).symm
      rw [hxi'] at hcons
      exact (perm_cons x).mp (hcons'.trans hcons.symm)
    refine Perm.trans ?_ herase.symm
    obtain ⟨init, last, rfl⟩ : ∃ init last, l = init ++ [last] :=
      ⟨l.dropLast, l.getLast (ne_nil_of_length_pos (by omega)), (dropLast_append_getLast _).symm⟩
    simp only [length_append, length_singleton, Nat.add_sub_cancel] at hi ⊢
    split_ifs with hlast
    · subst hlast
      simp [eraseIdx_append_of_length_le]
    · have hlt : i < init.length := by omega
      rw [set_append_left _ _ hlt, eraseIdx_append_of_lt_length hlt]
      simp only [getLastD_concat, dropLast_concat]
      exact (set_perm_cons_eraseIdx hlt _).trans (perm_append_singleton _ _).symm

theorem deleteFromList_erases : Adjacency.Erases deleteFromList := by
  intro l x y
  rw [(deleteFromList_perm l x).count_eq, count_erase]
  by_cases hxy : y = x
  · simp [hxy]
  · simp [hxy, Ne.symm hxy]

theorem deleteFromList_length_le (l : List GroupId) (x : GroupId) :
    (deleteFromList l x).length ≤ l.length := by
  rw [(deleteFromList_perm l x).length_eq]
  exact length_erase_le

namespace Direction

variable (dir : Direction) (l : List GroupId) (r : GroupRecord)

def other : Direction → Direction
  | .memberships => .members
  | .members => .memberships

@[simp] theorem next_put : dir.next (dir.put l r) = l := by cases dir <;> rfl

@[simp] theorem other_next_put : dir.other.next (dir.put l r) = dir.other.next r := by
  cases dir <;> rfl

@[simp] theorem put_groupId : (dir.put l r).groupId = r.groupId := by cases dir <;> rfl

@[simp] theorem put_put (l' : List GroupId) : dir.put l (dir.put l' r) = dir.put l r := by
  cases dir <;> rfl

end Direction

namespace Groups

def recordOf (g : Groups) (id : GroupId) : Option GroupRecord := (g.groupIdMap id).bind g.heap

def listOf (dir : Direction) (g : Groups) (id : GroupId) : List GroupId :=
  ((g.recordOf id).map dir.next).getD []

structure Coherent (g : Groups) : Prop where
  mapped : ∀ id a, g.groupIdMap id = some a → ∃ r, g.heap a = some r ∧ r.groupId = id
  owned : ∀ a r, g.heap a = some r → g.groupIdMap r.groupId = some a
  range : ∀ id a, g.groupIdMap id = some a → id.toNat < groupIdMax

namespace Coherent

variable {g g' : Groups} {a : Addr} {r r' : GroupRecord}

section

variable (h : g.Coherent)

include h

theorem recordOf_self (hr : g.heap a = some r) : g.recordOf r.groupId = some r := by
  rw [recordOf, h.owned a r hr]
  exact hr

theorem listOf_self (dir : Direction) (hr : g.heap a = some r) :
    g.listOf dir r.groupId = dir.next r := by
  rw [listOf, h.recordOf_self hr]
  rfl

theorem of_keeps (hmap : g'.groupIdMap = g.groupIdMap)
    (hk : Keeps GroupRecord.groupId g g') : g'.Coherent where
  mapped := by
    intro id a ha
    rw [hmap] at ha
    obtain ⟨r, hr, hid⟩ := h.mapped id a ha
    obtain ⟨r', hr', hid'⟩ := hk.forth hr
    exact ⟨r', hr', hid'.trans hid⟩
  owned := by
    intro a r' hr'
    obtain ⟨r, hr, hid⟩ := hk.back hr'
    rw [hmap, ← hid]
    exact h.owned a r hr
  range := by
    intro id a ha
    rw [hmap] at ha
    exact h.range id a ha

theorem setRecord (hr : g.heap a = some r) (hid : r'.groupId = r.groupId) :
    (g.setRecord a r').Coherent :=
  h.of_keeps rfl (Keeps.setRecord hr hid)

theorem recordOf_setRecord (hr : g.heap a = some r) (hid : r'.groupId = r.groupId) :
    (g.setRecord a r').recordOf = update g.recordOf r.groupId (some r') := by
  funext id
  by_cases hi : id = r.groupId
  · subst hi
    rw [update_self, ← hid]
    exact (h.setRecord hr hid).recordOf_self (setRecord_heap_self g a r')
  · rw [update_of_ne hi, recordOf, recordOf, setRecord_groupIdMap]
    cases hm : g.groupIdMap id with
    | none => rfl
    | some b =>
      have hb : b ≠ a := by
        rintro rfl
        obtain ⟨x, hx, hxid⟩ := h.mapped id b hm
        cases hx.symm.trans hr
        exact hi hxid.symm
      exact setRecord_heap_of_ne g r' hb

theorem listOf_setRecord (dir : Direction) (hr : g.heap a = some r) (hid : r'.groupId = r.groupId) :
    (g.setRecord a r').listOf dir = update (g.listOf dir) r.groupId (dir.next r') := by
  funext id
  rw [listOf, h.recordOf_setRecord hr hid]
  by_cases hi : id = r.groupId
  · simp [hi]
  · simp [hi, listOf]

theorem listOf_setRecord_same (dir : Direction) (hr : g.heap a = some r)
    (hid : r'.groupId = r.groupId) (hnext : dir.next r' = dir.next r) :
    (g.setRecord a r').listOf dir = g.listOf dir := by
  rw [h.listOf_setRecord dir hr hid, hnext, ← h.listOf_self dir hr, update_eq_self]

theorem adds (ha : g.Adds g' a r) : g'.Coherent where
  mapped := by
    intro id b hb
    rw [ha.groupIdMap] at hb
    by_cases hid : id = r.groupId
    · subst hid
      rw [update_self] at hb
      cases hb
      exact ⟨r, by rw [ha.heap, update_self], rfl⟩
    · rw [update_of_ne hid] at hb
      obtain ⟨x, hx, hxid⟩ := h.mapped id b hb
      refine ⟨x, ?_, hxid⟩
      have hba : b ≠ a := by
        rintro rfl
        rw [ha.fresh] at hx
        cases hx
      rw [ha.heap, update_of_ne hba, hx]
  owned := by
    intro b x hx
    rw [ha.heap] at hx
    rw [ha.groupIdMap]
    by_cases hba : b = a
    · subst hba
      rw [update_self] at hx
      cases hx
      exact update_self _ _ _
    · rw [update_of_ne hba] at hx
      have hown := h.owned b x hx
      rw [update_of_ne, hown]
      intro hid
      rw [hid, ha.unmapped] at hown
      cases hown
  range := by
    intro id b hb
    rw [ha.groupIdMap] at hb
    by_cases hid : id = r.groupId
    · exact hid ▸ ha.range
    · rw [update_of_ne hid] at hb
      exact h.range id b hb

theorem recordOf_adds (ha : g.Adds g' a r) :
    g'.recordOf = update g.recordOf r.groupId (some r) := by
  funext id
  rw [recordOf, ha.groupIdMap, ha.heap]
  by_cases hid : id = r.groupId
  · simp [hid]
  · rw [update_of_ne hid, update_of_ne hid, recordOf]
    cases hm : g.groupIdMap id with
    | none => rfl
    | some b =>
      obtain ⟨x, hx, -⟩ := h.mapped id b hm
      have hba : b ≠ a := by
        rintro rfl
        rw [ha.fresh] at hx
        cases hx
      simp [hba]

end

end Coherent

variable {r : GroupRecord} {g g' : Groups}

theorem Adds.recordOf_none {a : Addr} (ha : g.Adds g' a r) : g.recordOf r.groupId = none := by
  rw [recordOf, ha.unmapped]
  rfl

theorem listOf_adds {a : Addr} (h : g.Coherent) (dir : Direction) (ha : g.Adds g' a r) :
    g'.listOf dir = update (g.listOf dir) r.groupId (dir.next r) := by
  funext id
  rw [listOf, h.recordOf_adds ha]
  by_cases hid : id = r.groupId
  · simp [hid]
  · simp [hid, listOf]

theorem listOf_adds_nil {a : Addr} (h : g.Coherent)
    {dir : Direction} (ha : g.Adds g' a r) (hr : dir.next r = []) :
    g'.listOf dir = g.listOf dir := by
  have hnone : g.listOf dir r.groupId = [] := by
    rw [listOf, ha.recordOf_none]
    rfl
  rw [listOf_adds h dir ha, hr, ← hnone, update_eq_self]

end Groups

end MachUS.Auth

namespace MachUS.Auth

open Outcome GroupRecord

namespace Groups

structure DropsEach (dir : Direction) (g g' : Groups) (id : GroupId) (ms : List GroupId) :
    Prop where
  groupIdMap : g'.groupIdMap = g.groupIdMap
  names : g'.names = g.names
  keeps : Keeps (dir.put []) g g'
  count : ∀ x y, (g'.listOf dir x).count y =
    (g.listOf dir x).count y - if y = id then ms.count x else 0
  length : ∀ x, (g'.listOf dir x).length ≤ (g.listOf dir x).length

variable {dir : Direction} {g g' : Groups} {id : GroupId}

theorem dropFrom_eq_ok {b : Addr} (h : dropFrom dir g b id = .ok g') :
    ∃ r, g.heap b = some r ∧ g' = g.setRecord b (dir.put (deleteFromList (dir.next r) id) r) := by
  obtain ⟨r, hr, h⟩ := bind_eq_ok.mp h
  exact ⟨r, deref_eq_ok.mp hr, (Except.ok.inj h).symm⟩

variable {ms : List GroupId}

theorem dropEach_spec
    (hg : g.Coherent) (h : dropEach dir g id ms = .ok g') : DropsEach dir g g' id ms := by
  induction ms generalizing g with
  | nil =>
    cases h
    exact ⟨rfl, rfl, Keeps.refl _ _, by simp, fun _ => le_refl _⟩
  | cons m ms ih =>
    obtain ⟨o, ho, h⟩ := bind_eq_ok.mp h
    obtain ⟨-, hm⟩ := idSlot_eq_ok.mp ho
    cases o with
    | none =>
      obtain ⟨h1, h2, h3, h4, h5⟩ := ih hg h
      refine ⟨h1, h2, h3, fun x y => ?_, h5⟩
      rw [h4 x y]
      by_cases hx : x = m
      · have hnil : g.listOf dir x = [] := by
          rw [listOf, recordOf, hx, hm]
          rfl
        simp [hnil]
      · simp [Ne.symm hx]
    | some b =>
      obtain ⟨g₁, h₁, h⟩ := bind_eq_ok.mp h
      obtain ⟨r, hr, rfl⟩ := dropFrom_eq_ok h₁
      obtain ⟨r', hr', hid⟩ := hg.mapped m b hm
      obtain rfl := Option.some.inj (hr'.symm.trans hr)
      have hput : (dir.put (deleteFromList (dir.next r') id) r').groupId = r'.groupId := by simp
      have hlist := hg.listOf_setRecord dir hr hput
      obtain ⟨h1, h2, h3, h4, h5⟩ := ih (hg.setRecord hr hput) h
      have hself : g.listOf dir r'.groupId = dir.next r' := hg.listOf_self dir hr
      refine ⟨h1, h2, (Keeps.setRecord hr (by simp)).trans h3, fun x y => ?_, fun x => ?_⟩
      · rw [h4 x y, hlist, ← hid]
        by_cases hx : x = r'.groupId
        · subst hx
          rw [Function.update_self, Direction.next_put, deleteFromList_erases, ← hself,
            List.count_cons_self]
          split_ifs <;> omega
        · simp [hx, Ne.symm hx]
      · refine (h5 x).trans ?_
        rw [hlist]
        by_cases hx : x = r'.groupId
        · subst hx
          rw [Function.update_self, Direction.next_put, hself]
          exact deleteFromList_length_le _ _
        · rw [Function.update_of_ne hx]

theorem DropsEach.coherent (h : DropsEach dir g g' id ms) (hg : g.Coherent) : g'.Coherent := by
  refine hg.of_keeps h.groupIdMap ?_
  have hk := h.keeps.comp groupId
  simpa using hk

theorem DropsEach.listOf_other (h : DropsEach dir g g' id ms) :
    g'.listOf dir.other = g.listOf dir.other := by
  have hk : Keeps dir.other.next g g' := by simpa using h.keeps.comp dir.other.next
  funext x
  rw [listOf, listOf, recordOf, recordOf, h.groupIdMap]
  cases g.groupIdMap x with
  | none => rfl
  | some a => exact congrArg (fun o => Option.getD o []) (hk a)

def bare (r : GroupRecord) : GroupRecord := { r with members := [], memberships := [] }

theorem bare_fields {r r' : GroupRecord} (h : bare r' = bare r) :
    r'.groupId = r.groupId ∧ r'.ownerId = r.ownerId ∧ r'.trMemberships = r.trMemberships := by
  have hid : (bare r').groupId = (bare r).groupId := by rw [h]
  have howner : (bare r').ownerId = (bare r).ownerId := by rw [h]
  have htr : (bare r').trMemberships = (bare r).trMemberships := by rw [h]
  exact ⟨hid, howner, htr⟩

structure Removes (g g' : Groups) (a : Addr) (r : GroupRecord) : Prop where
  groupIdMap : g'.groupIdMap = Function.update g.groupIdMap r.groupId none
  heap : g'.heap a = none
  others : ∀ b, b ≠ a → (g'.heap b).map bare = (g.heap b).map bare
  count : ∀ dir x, x ≠ r.groupId → ∀ y, (g'.listOf dir x).count y =
    (g.listOf dir x).count y - if y = r.groupId then (dir.other.next r).count x else 0
  length : ∀ dir x, (g'.listOf dir x).length ≤ (g.listOf dir x).length
  entries : ∀ name : GroupName, g.lookupName name = .ok (some a) → 0 < g.names.slots.length →
    g.names.slots.length ∣ g'.names.slots.length ∧ 0 < g'.names.slots.length ∧
      ∀ b, g'.names.slots.count (some b) + (if b = a then 1 else 0) =
        g.names.slots.count (some b)

theorem put_fields {l l' : List GroupId} {r r' : GroupRecord}
    (h : dir.put l r' = dir.put l' r) : r'.groupId = r.groupId ∧ r'.groupName = r.groupName := by
  have hid := congrArg groupId h
  have hname := congrArg groupName h
  cases dir <;> exact ⟨hid, hname⟩

def forget (g : Groups) (a : Addr) (id : GroupId) : Groups :=
  { g with
    groupIdMap := Function.update g.groupIdMap id none
    heap := Function.update g.heap a none }

theorem listOf_forget (hg : g.Coherent) {a : Addr} {r : GroupRecord}
    (hr : g.heap a = some r) (dir : Direction) :
    (g.forget a r.groupId).listOf dir = Function.update (g.listOf dir) r.groupId [] := by
  funext x
  rw [listOf, recordOf, forget]
  by_cases hx : x = r.groupId
  · simp [hx]
  · simp only [Function.update_of_ne hx]
    rw [listOf, recordOf]
    cases hm : g.groupIdMap x with
    | none => rfl
    | some b =>
      have hba : b ≠ a := by
        rintro rfl
        obtain ⟨r', hr', hid⟩ := hg.mapped x b hm
        cases hr'.symm.trans hr
        exact hx hid.symm
      simp [hba]

theorem listOf_sameRecords (h : g.SameRecords g') (dir : Direction) :
    g'.listOf dir = g.listOf dir := by
  funext x
  rw [listOf, listOf, recordOf, recordOf, h.heap, h.groupIdMap]

theorem removeGroup_spec {k : Kernel} {a : Addr} {r : GroupRecord}
    (hg : g.Coherent) (hr : g.heap a = some r) (h : g.removeGroup k a = .ok g') :
    g.Removes g' a r := by
  rw [removeGroup, deref_eq_ok.mpr hr, ok_bind] at h
  obtain ⟨g₁, h₁, h⟩ := bind_eq_ok.mp h
  obtain ⟨r₁, hr₁, h⟩ := bind_eq_ok.mp h
  obtain ⟨g₂, h₂, h⟩ := bind_eq_ok.mp h
  obtain ⟨g₃, h₃, h⟩ := bind_eq_ok.mp h
  obtain ⟨_, -, h⟩ := bind_eq_ok.mp h
  rw [deref_eq_ok] at hr₁
  have d₁ : DropsEach .members g g₁ r.groupId r.memberships := dropEach_spec hg h₁
  obtain ⟨r₁', hr₁', hput⟩ := d₁.keeps.forth hr
  obtain rfl := Option.some.inj (hr₁'.symm.trans hr₁)
  obtain ⟨hid, hname⟩ := put_fields hput
  have hg₁ := d₁.coherent hg
  have d₂ : DropsEach .memberships g₁ g₂ r₁'.groupId r₁'.members := dropEach_spec hg₁ h₂
  have hg₂ := d₂.coherent hg₁
  have hsame := SameRecords.deleteName h₃
  have hg₃ : g₃.Coherent := hg₂.of_keeps hsame.groupIdMap (fun b => by rw [hsame.heap])
  have hg' : g' = g₃.forget a r₁'.groupId := (Except.ok.inj h).symm
  obtain ⟨r₂, hr₂, hput₂⟩ := d₂.keeps.forth hr₁
  have hid₂ : r₂.groupId = r.groupId := (put_fields hput₂).1.trans hid
  have hr₃ : g₃.heap a = some r₂ := by rw [hsame.heap, hr₂]
  have hlist (dir : Direction) : g'.listOf dir = Function.update (g₂.listOf dir) r.groupId [] := by
    rw [hg', hid, ← hid₂, listOf_forget hg₃ hr₃, listOf_sameRecords hsame]
  have hlists (dir : Direction) (x : GroupId) (hx : x ≠ r.groupId) (y : GroupId) :
      (g₂.listOf dir x).count y =
        (g.listOf dir x).count y - if y = r.groupId then (dir.other.next r).count x else 0 := by
    cases dir with
    | members =>
      rw [show g₂.listOf .members = g₁.listOf .members from d₂.listOf_other, d₁.count]
      rfl
    | memberships =>
      have hcount : r₁'.members.count x = r.members.count x := by
        have h₁' := hg₁.listOf_self .members hr₁
        have h₀ := hg.listOf_self .members hr
        have hc := d₁.count r.groupId x
        rw [← hid, h₁', hid, h₀, if_neg hx] at hc
        exact hc
      rw [d₂.count, show g₁.listOf .memberships = g.listOf .memberships from d₁.listOf_other,
        hcount, hid]
      rfl
  have hlength (dir : Direction) (x : GroupId) :
      (g₂.listOf dir x).length ≤ (g.listOf dir x).length := by
    cases dir with
    | members =>
      rw [show g₂.listOf .members = g₁.listOf .members from d₂.listOf_other]
      exact d₁.length x
    | memberships =>
      refine (d₂.length x).trans ?_
      rw [show g₁.listOf .memberships = g.listOf .memberships from d₁.listOf_other]
  refine ⟨?_, by simp [hg', forget], fun b hb => ?_, fun dir x hx y => ?_, fun dir x => ?_, ?_⟩
  · rw [hg', forget, hid, hsame.groupIdMap, d₂.groupIdMap, d₁.groupIdMap]
  · have hk₁ := (d₁.keeps.comp (Direction.put .memberships [])) b
    have hk₂ := (d₂.keeps.comp (Direction.put .members [])) b
    rw [hg', forget]
    simp only [Function.update_of_ne hb, hsame.heap]
    exact hk₂.trans hk₁
  · rw [hlist, Function.update_of_ne hx]
    exact hlists dir x hx y
  · rw [hlist]
    by_cases hx : x = r.groupId
    · simp [hx]
    · rw [Function.update_of_ne hx]
      exact hlength dir x
  · intro name hlook hslots
    obtain ⟨i, r', hfind, hentry, hr', hrn⟩ := lookupName_eq_some hlook
    obtain rfl := Option.some.inj (hr'.symm.trans hr)
    have hn₁ : g.SameNames g₁ := ⟨d₁.names, d₁.keeps.comp groupName⟩
    have hn₂ : g₁.SameNames g₂ := ⟨d₂.names, d₂.keeps.comp groupName⟩
    have hfind₂ : g₂.findSlot r₁'.groupName.bytes = .ok (some i) := by
      rw [hn₂.findSlot, hn₁.findSlot, hname, hrn, hfind]
    have hnames : g₂.names = g.names := d₂.names.trans d₁.names
    have hdel := deleteName_entries (by rw [hnames]; exact hslots) hfind₂
      (by rw [hnames]; exact hentry) h₃
    rw [hnames] at hdel
    rw [hg']
    exact hdel

end Groups

end MachUS.Auth
