import MachUS.Auth.Effects
import MachUS.Auth.NameMap

namespace MachUS.Auth

open Text Groups Transition List NameTable Option

inductive NameOp where
  | enter (a : Addr)
  | delete (name : GroupName)
  | lookup (name : GroupName)

structure NameState where
  groups : Groups
  live : List (GroupName × Addr)
  found : ℕ

namespace NameState

variable {s t : NameState} {k : Kernel} {op : NameOp} {n : ℕ}

def next (s : NameState) : Kernel × NameOp → Option NameState
  | (k, .enter a) =>
    match s.groups.enterName k a, s.groups.heap a with
    | .ok g, some r => some { s with groups := g, live := (r.groupName, a) :: s.live }
    | _, _ => none
  | (k, .delete name) =>
    match s.groups.deleteNameWithin k name.bytes with
    | .ok g =>
      some
        { groups := g
          live := without name s.live
          found := s.found + if (s.live.lookup name).isSome then 1 else 0 }
    | .error _ => none
  | (_, .lookup name) =>
    match s.groups.lookupName name with
    | .ok _ => some s
    | .error _ => none

def size (s : NameState) : ℕ := s.groups.names.slots.length

def Room (s : NameState) (k : Kernel) (name : GroupName) : Prop :=
  (none ∈ s.groups.names.slots ∧ Settled k s.groups 1 ∧ 0 ≤ hashName s.size name.bytes) ∨
    (none ∉ s.groups.names.slots ∧ ¬Settled k s.groups 1 ∧
      0 ≤ hashName (2 * s.size) name.bytes ∧ ∀ e ∈ s.live, 0 ≤ hashName (2 * s.size) e.1.bytes)

def Closed (s : NameState) (k : Kernel) (i : ℕ) : Prop :=
  ∃ j, i < j ∧ j < s.size ∧ s.groups.names.entry j = none ∧
    (∀ m, i < m → m < j → s.groups.names.entry m ≠ none) ∧ Settled k s.groups (j - (i + 1))

def Fair (s : NameState) : Kernel × NameOp → Prop
  | (k, .enter a) => ∃ r, s.groups.heap a = some r ∧ (∀ b, (r.groupName, b) ∉ s.live) ∧
      s.Room k r.groupName
  | (k, .delete name) => 0 ≤ hashName s.size name.bytes ∧
      ∀ i a, s.groups.findSlot name.bytes = .ok (some i) → s.groups.names.entry i = some a →
        s.Closed k i
  | (_, .lookup name) => 0 ≤ hashName s.size name.bytes

def Maps (s : NameState) : Prop :=
  ∀ name, 0 ≤ hashName s.size name.bytes →
    s.groups.lookupName name = .ok (s.live.lookup name)

structure Kept (s : NameState) (n : ℕ) [NeZero n] : Prop where
  filed : s.groups.Filed n s.live
  nodup : (s.live.map Prod.fst).Nodup
  counted : s.live.length + s.found ≤ s.groups.names.numEntries
  exact : s.found = 0 → s.groups.names.numEntries = s.live.length

theorem Kept.size_eq [NeZero n] (h : s.Kept n) : s.size = n := h.filed.length

theorem Kept.maps [NeZero n] (h : s.Kept n) : s.Maps := by
  intro name hhash
  rw [h.size_eq] at hhash
  exact h.filed.lookupName_eq hhash

theorem Kept.counter_iff [NeZero n] (h : s.Kept n) :
    s.groups.names.numEntries = s.live.length ↔ s.found = 0 := by
  have hle := h.counted
  exact ⟨fun heq => by omega, h.exact⟩

theorem lookup_isSome_iff [NeZero n] (h : s.Kept n) (name : GroupName) :
    (s.live.lookup name).isSome = true ↔ ∃ a, (name, a) ∈ s.live := by
  rw [isSome_iff_exists]
  exact exists_congr fun a => lookup_eq_some h.filed.functional

theorem Kept.entered [NeZero n] {n' : ℕ} [NeZero n'] (h : s.Kept n) {g' : Groups} {a : Addr}
    {r : GroupRecord} (hr : s.groups.heap a = some r) (hnew : ∀ b, (r.groupName, b) ∉ s.live)
    (hrun : s.groups.enterName k a = .ok g') (hfiled : g'.Filed n' ((r.groupName, a) :: s.live))
    (hcount : g'.names.numEntries = s.groups.names.numEntries + 1) :
    ∃ t, s.next (k, .enter a) = some t ∧ t.Kept n' := by
  refine ⟨{ s with groups := g', live := (r.groupName, a) :: s.live }, by rw [next, hrun, hr],
    hfiled, ?_, ?_, ?_⟩
  · rw [map_cons, nodup_cons]
    refine ⟨fun hmem => ?_, h.nodup⟩
    obtain ⟨⟨name, b⟩, hb, rfl⟩ := mem_map.mp hmem
    exact hnew b hb
  · have hle := h.counted
    rw [hcount, length_cons]
    show s.live.length + 1 + s.found ≤ _
    omega
  · intro hzero
    rw [hcount, h.exact hzero, length_cons]

theorem Kept.enter [NeZero n] (h : s.Kept n) {a : Addr} {r : GroupRecord}
    (hr : s.groups.heap a = some r) (hnew : ∀ b, (r.groupName, b) ∉ s.live)
    (hroom : s.Room k r.groupName) :
    ∃ t, s.next (k, .enter a) = some t ∧ ∃ (n' : ℕ) (_ : NeZero n'), t.Kept n' := by
  rw [Room, h.size_eq] at hroom
  rcases hroom with ⟨hnone, hsettled, hhash⟩ | ⟨hfull, hover, hhash, hall⟩
  · obtain ⟨i, hi⟩ := h.filed.exists_empty hnone (nameHome n (some r.groupName))
    have hrun := enterName_eq h.filed.toShelved hsettled hr hhash hi
    obtain ⟨t, ht, hkept⟩ := h.entered hr hnew hrun (h.filed.countEntry.fill hr hhash hnew hi) rfl
    exact ⟨t, ht, n, inferInstance, hkept⟩
  · have : NeZero (2 * n) := ⟨Nat.mul_ne_zero two_ne_zero (NeZero.ne n)⟩
    rw [Settled, not_or, Bool.not_eq_false] at hover
    obtain ⟨g₁, hgrow, hfiled, hheap, hcount, hnone⟩ :=
      h.filed.countEntry.grow hfull hall hover.2
    have hgrown : s.groups.countEntry.growIfOver k = .ok g₁ := by
      rw [growIfOver, if_pos, hgrow]
      show s.groups.names.limit < s.groups.names.numEntries + 1
      omega
    have hr₁ : g₁.heap a = some r := by
      rw [hheap]
      exact hr
    obtain ⟨i, hi⟩ := hfiled.exists_empty hnone (nameHome (2 * n) (some r.groupName))
    have hrun := enterName_grown hgrown hfiled.toShelved hr₁ hhash hi
    obtain ⟨t, ht, hkept⟩ := h.entered hr hnew hrun (hfiled.fill hr₁ hhash hnew hi) hcount
    exact ⟨t, ht, 2 * n, inferInstance, hkept⟩

theorem Kept.delete [NeZero n] (h : s.Kept n) {name : GroupName}
    (hhash : 0 ≤ hashName n name.bytes)
    (hclosed : ∀ i a, s.groups.findSlot name.bytes = .ok (some i) →
      s.groups.names.entry i = some a → s.Closed k i) :
    ∃ t, s.next (k, .delete name) = some t ∧ t.Kept n := by
  by_cases hlive : ∃ a, (name, a) ∈ s.live
  · obtain ⟨a, ha⟩ := hlive
    obtain ⟨i, hslot, hi, hkey⟩ := h.filed.find_live hhash ha
    obtain ⟨j, hij, hjn, hj, hrun, hsettled⟩ := hclosed i a hslot hi
    rw [h.size_eq] at hjn
    obtain ⟨g', hdelete, hfiled, -, hle⟩ := h.filed.delete (k := k) (j := ⟨j, hjn⟩) hslot hi hkey
      (Fin.lt_def.mpr hij) hj (fun m him hmj => hrun m him hmj) hsettled
    have hfound : (s.live.lookup name).isSome = true := (lookup_isSome_iff h name).mpr ⟨a, ha⟩
    refine ⟨⟨g', without name s.live, s.found + 1⟩, ?_, hfiled, ?_, ?_, ?_⟩
    · rw [next, hdelete]
      simp only [hfound, if_true]
    · exact h.nodup.sublist (filter_sublist.map Prod.fst)
    · have hlen := length_without h.nodup ha
      have hcounted := h.counted
      show (without name s.live).length + (s.found + 1) ≤ g'.names.numEntries
      omega
    · intro hzero
      exact absurd hzero (Nat.succ_ne_zero _)
  · have hnew : ∀ b, (name, b) ∉ s.live := fun b hb => hlive ⟨b, hb⟩
    have hlost : ¬(s.live.lookup name).isSome = true := fun hsome =>
      hlive ((lookup_isSome_iff h name).mp hsome)
    refine ⟨s, ?_, h⟩
    rw [next, h.filed.find_absent hhash hnew]
    simp only [without_eq hnew, hlost, if_false, Nat.add_zero, Bool.false_eq_true]

theorem Kept.next [NeZero n] (h : s.Kept n) {e : Kernel × NameOp} (he : s.Fair e) :
    ∃ t, s.next e = some t ∧ ∃ (n' : ℕ) (_ : NeZero n'), t.Kept n' := by
  obtain ⟨k, op⟩ := e
  cases op with
  | enter a =>
    obtain ⟨r, hr, hnew, hroom⟩ := he
    exact h.enter hr hnew hroom
  | delete name =>
    obtain ⟨hhash, hclosed⟩ := he
    rw [h.size_eq] at hhash
    obtain ⟨t, ht, hkept⟩ := h.delete hhash hclosed
    exact ⟨t, ht, n, inferInstance, hkept⟩
  | lookup name =>
    have hhash : 0 ≤ hashName s.size name.bytes := he
    refine ⟨s, ?_, n, inferInstance, h⟩
    rw [NameState.next, h.maps name hhash]

theorem kept_init {g : Groups} (hg : g.names = init) : Kept ⟨g, [], 0⟩ 32 := by
  have hentry (i : ℕ) : g.names.entry i = none := by
    rw [hg, entry, init, getD_eq_getElem?_getD, getElem?_replicate]
    split_ifs <;> rfl
  have hkeys : g.nameKeys 32 = fun _ => none := by
    funext i
    rw [nameKeys, nameAt, hentry, bind_none]
  refine ⟨⟨⟨?_, fun i a ha => ?_⟩, ?_, fun name a => ?_⟩, nodup_nil, Nat.zero_le _, fun _ => ?_⟩
  · rw [hg]
    rfl
  · rw [hentry] at ha
    cases ha
  · rw [hkeys]
    exact Probing.chained_const
  · refine iff_of_false not_mem_nil ?_
    rintro ⟨⟨i, hi⟩, -⟩
    rw [hentry] at hi
    cases hi
  · rw [hg]
    rfl

theorem Kept.run [NeZero n] (h : s.Kept n) {es : List (Kernel × NameOp)}
    (hfair : Admits NameState.next Fair s es) :
    ∃ t, exec NameState.next s es = some t ∧ ∃ (n' : ℕ) (_ : NeZero n'), t.Kept n' := by
  induction es generalizing s n with
  | nil => exact ⟨s, rfl, n, inferInstance, h⟩
  | cons e es ih =>
    obtain ⟨t, ht, n', _, hkept⟩ := h.next hfair.1
    obtain ⟨u, hu, hrest⟩ := ih hkept (hfair.2 t ht)
    exact ⟨u, by rw [exec, ht, bind_some, hu], hrest⟩

/-- A table starts empty. After every run of fair operations lookup_name has the records entered
and not deleted, and no operation has left the table; the counter is right as long as no deletion
has found its entry. -/
theorem name_table_runs (g : Groups) (hg : g.names = init) (es : List (Kernel × NameOp))
    (hfair : Admits next Fair ⟨g, [], 0⟩ es) :
    ∃ s, exec next ⟨g, [], 0⟩ es = some s ∧ s.Maps ∧
      (s.groups.names.numEntries = s.live.length ↔ s.found = 0) := by
  obtain ⟨s, hs, n, _, hkept⟩ := (kept_init hg).run hfair
  exact ⟨s, hs, hkept.maps, hkept.counter_iff⟩

end NameState

namespace Sample

def noNames : Groups := { groups with names := init }

def letters : Groups where
  heap := fun a => if a < 26 then
      (CString.ofBytes? 64 [UInt8.ofNat (97 + a)]).map fun name =>
        { group [97] 2 0 [] [] with groupName := name }
    else none
  groupIdMap := fun _ => none
  names := init

def enteredAndDeleted : List (Kernel × NameOp) :=
  [(kernel 0, .enter 1), (kernel 0, .delete (text 64 [97]))]

end Sample

namespace NameState

theorem fair_enteredAndDeleted :
    Admits next Fair ⟨Sample.noNames, [], 0⟩ Sample.enteredAndDeleted := by
  refine ⟨⟨_, rfl, fun b => not_mem_nil, Or.inl ⟨by decide, Or.inl (by decide), by decide⟩⟩,
    fun s hs => ?_⟩
  cases hs
  refine ⟨⟨by decide, fun i a hslot _ => ?_⟩, fun _ _ => trivial⟩
  obtain rfl : 1 = i := some.inj (Except.ok.inj hslot)
  refine ⟨2, by decide, by decide, rfl, fun m hm hm' => by omega, Or.inl (by decide)⟩

theorem name_table_runs_deleted : ∃ s,
    exec next ⟨Sample.noNames, [], 0⟩ Sample.enteredAndDeleted = some s ∧ s.Maps ∧
      (s.groups.names.numEntries = s.live.length ↔ s.found = 0) :=
  name_table_runs Sample.noNames rfl Sample.enteredAndDeleted fair_enteredAndDeleted

theorem deleted_name_counted : (∃ s,
      exec next ⟨Sample.noNames, [], 0⟩ Sample.enteredAndDeleted = some s ∧
        s.live = [] ∧ s.groups.names.numEntries = 1) ∧
    exec next ⟨Sample.letters, [], 0⟩
      ((range 26).map fun a => (Sample.kernel 0, .enter a)) = none := by
  constructor
  · have h : check next ⟨Sample.noNames, [], 0⟩ Sample.enteredAndDeleted (fun s =>
        decide (s.live = []) && decide (s.groups.names.numEntries = 1)) = true := by
      decide +kernel
    obtain ⟨s, hs, hc⟩ := exec_of_check h
    rw [Bool.and_eq_true, decide_eq_true_eq, decide_eq_true_eq] at hc
    exact ⟨s, hs, hc⟩
  · have h : (exec next ⟨Sample.letters, [], 0⟩
        ((range 26).map fun a => (Sample.kernel 0, .enter a))).isNone = true := by
      decide +kernel
    exact isNone_iff_eq_none.mp h

end NameState

end MachUS.Auth
