import MachUS.Auth.GroupGraph

namespace MachUS.Auth

open Text Relation Transition Groups Option

namespace Groups

structure StoreInv (g : Groups) : Prop where
  coherent : g.Coherent
  slots : 0 < g.names.slots.length
  entry : ∀ a, g.names.slots.count (some a) ≤ if (g.heap a).isSome then 1 else 0

namespace StoreInv

variable {g g' : Groups} {a : Addr} {r x : GroupRecord}

section

variable (h : g.StoreInv)

include h

theorem setRecord (hr : g.heap a = some r) (hid : x.groupId = r.groupId) :
    (g.setRecord a x).StoreInv := by
  refine ⟨h.coherent.setRecord hr hid, h.slots, fun b => ?_⟩
  have hb := h.entry b
  by_cases hba : b = a
  · subst hba
    rw [hr] at hb
    simpa using hb
  · rw [setRecord_heap_of_ne g x hba]
    exact hb

theorem adds (ha : g.Adds g' a r) : g'.StoreInv := by
  obtain ⟨-, hslots, hcount⟩ := ha.entries h.slots
  refine ⟨h.coherent.adds ha, hslots, fun b => ?_⟩
  have hb := h.entry b
  rw [hcount b, ha.heap]
  by_cases hba : b = a
  · subst hba
    rw [ha.fresh] at hb
    simp at hb ⊢
    omega
  · simpa [hba] using hb

theorem appendTo {dir : Direction} {id : GroupId}
    (hg : appendTo dir g a id = .ok g') : g'.StoreInv := by
  obtain ⟨r, hr, hg⟩ := Outcome.bind_eq_ok.mp hg
  split_ifs at hg
  cases hg
  exact h.setRecord (deref_eq_ok.mp hr) (by simp)

theorem dropFrom {dir : Direction} {id : GroupId}
    (hg : dropFrom dir g a id = .ok g') : g'.StoreInv := by
  obtain ⟨r, hr, rfl⟩ := dropFrom_eq_ok hg
  exact h.setRecord hr (by simp)

theorem removes (hr : g.heap a = some r) {name : GroupName}
    (hname : g.lookupName name = .ok (some a)) (hg : g.Removes g' a r) : g'.StoreInv := by
  obtain ⟨-, hslots, hcount⟩ := hg.entries name hname h.slots
  refine ⟨hg.coherent h.coherent hr, hslots, fun b => ?_⟩
  have hb := h.entry b
  have hc := hcount b
  by_cases hba : b = a
  · subst hba
    rw [hr] at hb
    simp only [if_true, isSome_some] at hb hc
    omega
  · have hsome : (g'.heap b).isSome = (g.heap b).isSome := by
      have hbare := congrArg isSome (hg.others b hba)
      simpa using hbare
    rw [hsome]
    omega

end

end StoreInv

end Groups

theorem Change.storeInv {k : Kernel} {s : Server} {op : Op} {g g' : Groups} (hg : g.StoreInv)
    (h : Change k s op g g') : g'.StoreInv := by
  cases h with
  | cache ids hr => exact hg.setRecord hr rfl
  | owner hr hx => exact hg.setRecord hr rfl
  | password hr ht hw => exact hg.setRecord hr rfl
  | record hadds hblank hlen hnum hms => exact hg.adds hadds
  | group hadds hnamed hcreates => exact hg.adds hadds
  | link ha hr ht hb hx h₁ h₂ => exact (hg.appendTo h₁).appendTo h₂
  | unlink hr hx h₁ h₂ => exact (hg.dropFrom h₁).dropFrom h₂
  | remove ha h =>
    obtain ⟨-, r, -, -, hr, -⟩ := lookupName_eq_some ha
    exact hg.removes hr ha (removeGroup_spec hg.coherent hr h)

namespace Server

theorem storeInv_run {s s' : Server}
    (hrun : ReflTransGen (Under next Free) s s') (h : s.groups.StoreInv) :
    s'.groups.StoreInv := by
  refine invariant (I := fun s => s.groups.StoreInv) (fun x e y hx _ hy => ?_) hrun h
  obtain ⟨ret, hstep⟩ := next_eq_some.mp hy
  exact changes_invariant (fun _ _ hg hc => hc.storeInv hg) hstep hx

structure Forgotten (s : Server) (a : Addr) (id : GroupId) : Prop where
  sessions : ∀ i, (s.privPortMap i).record ≠ some a
  tokens : ∀ j, (s.regPortMap j).privatePort ≠ machPortNull →
    (s.regPortMap j).userId ≠ id ∧ id ∉ (s.regPortMap j).groupIds
  owners : ∀ b x, s.groups.heap b = some x → x.ownerId ≠ id
  caches : ∀ b x, s.groups.heap b = some x → id ∉ x.trMemberships
  lists : ∀ dir b x, s.groups.heap b = some x → id ∉ Direction.next dir x
  map : ∀ id', s.groups.groupIdMap id' ≠ some a
  names : some a ∉ s.groups.names.slots
  record : s.groups.groupIdMap id = none ∧ s.groups.heap a = none

structure OnlyLinked (s : Server) (a : Addr) (r : GroupRecord) : Prop where
  sessions : ∀ i, (s.privPortMap i).record ≠ some a
  tokens : ∀ j, (s.regPortMap j).privatePort ≠ machPortNull →
    (s.regPortMap j).userId ≠ r.groupId ∧ r.groupId ∉ (s.regPortMap j).groupIds
  owners : ∀ b x, b ≠ a → s.groups.heap b = some x → x.ownerId ≠ r.groupId
  caches : ∀ b x, b ≠ a → s.groups.heap b = some x → r.groupId ∉ x.trMemberships
  links : ∀ dir b x, b ≠ a → s.groups.heap b = some x →
    (Direction.next dir x).count r.groupId ≤ (dir.other.next r).count x.groupId

end Server

namespace Groups

variable {g g' : Groups} {a : Addr} {r : GroupRecord}

section

variable (h : g.Removes g' a r)

include h

theorem Removes.forth {b : Addr} {x : GroupRecord} (hb : b ≠ a)
    (hx : g.heap b = some x) : ∃ x', g'.heap b = some x' ∧ bare x' = bare x := by
  have hbare := h.others b hb
  rwa [hx, map_some, map_eq_some_iff] at hbare

theorem Removes.back {b : Addr} {x' : GroupRecord}
    (hx' : g'.heap b = some x') : b ≠ a ∧ ∃ x, g.heap b = some x ∧ bare x = bare x' := by
  have hb : b ≠ a := by
    rintro rfl
    rw [h.heap] at hx'
    cases hx'
  have hbare := h.others b hb
  rw [hx', map_some, eq_comm, map_eq_some_iff] at hbare
  exact ⟨hb, hbare⟩

theorem Removes.mem_iff (hg : g.Coherent) (hr : g.heap a = some r)
    {b : Addr} {x x' : GroupRecord} (hb : b ≠ a) (hx : g.heap b = some x)
    (hx' : g'.heap b = some x') (hid : x'.groupId = x.groupId) (dir : Direction) :
    r.groupId ∉ dir.next x' ↔
      (dir.next x).count r.groupId ≤ (dir.other.next r).count x.groupId := by
  have hne : x.groupId ≠ r.groupId := by
    intro heq
    have hown := hg.owned b x hx
    rw [heq, hg.owned a r hr] at hown
    exact hb (some.inj hown).symm
  have hcount := h.count dir x.groupId hne r.groupId
  rw [if_pos rfl, hg.listOf_self dir hx, ← hid, (h.coherent hg hr).listOf_self dir hx'] at hcount
  rw [← List.count_eq_zero, hcount, hid]
  omega

theorem Removes.names (hg : g.StoreInv) (hr : g.heap a = some r)
    {name : GroupName} (hname : g.lookupName name = .ok (some a)) :
    some a ∉ g'.names.slots := by
  have hcount := (h.entries name hname hg.slots).2.2 a
  have hentry := hg.entry a
  rw [hr] at hentry
  simp only [if_true, isSome_some] at hcount hentry
  rw [← List.count_eq_zero]
  omega

end

end Groups

namespace Server

theorem delete_forgets_iff (g : Groups) (hg : g.StoreInv) (s : Server)
    (hrun : ReflTransGen (Under next Free) (boot g) s) (k : Kernel)
    (p : Port) (n : GroupName) (a : Addr) (r : GroupRecord) (s' : Server)
    (ha : s.groups.lookupName (toLower n) = .ok (some a)) (hr : s.groups.heap a = some r)
    (hstep : s.casDeleteGroup k p n = .ok (.success, s')) :
    s'.Forgotten a r.groupId ↔ s.OnlyLinked a r := by
  have hinv : s.groups.StoreInv := storeInv_run hrun hg
  rcases casDeleteGroup_cases hstep with ⟨hret, -⟩ | ⟨-, a', g', ha', hremove, rfl⟩
  · exact absurd rfl hret
  obtain rfl : a' = a := some.inj (Except.ok.inj (ha'.symm.trans ha))
  have h := removeGroup_spec hinv.coherent hr hremove
  constructor
  · intro hf
    refine ⟨hf.sessions, hf.tokens, fun b x hb hx => ?_, fun b x hb hx => ?_,
      fun dir b x hb hx => ?_⟩
    · obtain ⟨x', hx', hbare⟩ := h.forth hb hx
      obtain ⟨-, howner, -⟩ := bare_fields hbare
      rw [← howner]
      exact hf.owners b x' hx'
    · obtain ⟨x', hx', hbare⟩ := h.forth hb hx
      obtain ⟨-, -, htr⟩ := bare_fields hbare
      rw [← htr]
      exact hf.caches b x' hx'
    · obtain ⟨x', hx', hbare⟩ := h.forth hb hx
      obtain ⟨hid, -, -⟩ := bare_fields hbare
      exact (h.mem_iff hinv.coherent hr hb hx hx' hid dir).mp (hf.lists dir b x' hx')
  · intro hl
    refine ⟨hl.sessions, hl.tokens, fun b x' hx' => ?_, fun b x' hx' => ?_,
      fun dir b x' hx' => ?_, fun id' hid' => ?_, h.names hinv hr ha, ?_, h.heap⟩
    · obtain ⟨hb, x, hx, hbare⟩ := h.back hx'
      obtain ⟨-, howner, -⟩ := bare_fields hbare
      rw [← howner]
      exact hl.owners b x hb hx
    · obtain ⟨hb, x, hx, hbare⟩ := h.back hx'
      obtain ⟨-, -, htr⟩ := bare_fields hbare
      rw [← htr]
      exact hl.caches b x hb hx
    · obtain ⟨hb, x, hx, hbare⟩ := h.back hx'
      obtain ⟨hid, -, -⟩ := bare_fields hbare
      exact (h.mem_iff hinv.coherent hr hb hx hx' hid.symm dir).mpr (hl.links dir b x hb hx)
    · obtain ⟨x, hx, -⟩ := (h.coherent hinv.coherent hr).mapped id' a' hid'
      rw [h.heap] at hx
      cases hx
    · rw [show (s.withGroups g').groups = g' from rfl, h.groupIdMap, Function.update_self]

end Server

namespace Sample

theorem groups_storeInv : groups.StoreInv where
  coherent := groups_coherent
  slots := by decide
  entry := by
    intro a
    by_cases ha : a < 5
    · interval_cases a <;> decide +kernel
    · have hnone : some a ∉ groups.names.slots := by
        have hall : ∀ o ∈ groups.names.slots, ∀ b ∈ o, b < 5 := by decide +kernel
        exact fun hmem => ha (hall _ hmem a rfl)
      rw [List.count_eq_zero.mpr hnone]
      exact Nat.zero_le _

def loginsAB : List (Kernel × Op) :=
  [(kernel 10, .login (text 64 [98]) word 5), (kernel 10, .login (text 64 [97]) word 6)]

theorem loginsAB_delete (name : GroupName) (a : Addr)
    (h : check Server.next server loginsAB (fun s =>
      decide (s.groups.lookupName (toLower name) = .ok (some a)) &&
      decide ((s.privPortMap 5).record = some 2) &&
      match s.casDeleteGroup (kernel 10) 6 name with
        | .ok (.success, _) => true
        | _ => false) = true) :
    ∃ s r s', ReflTransGen (Under Server.next Free) (Server.boot groups) s ∧
      s.groups.lookupName (toLower name) = .ok (some a) ∧ s.groups.heap a = some r ∧
      (s.privPortMap 5).record = some 2 ∧
      s.casDeleteGroup (kernel 10) 6 name = .ok (.success, s') := by
  obtain ⟨s, hs, hc⟩ := exec_of_check h
  simp only [Bool.and_eq_true, decide_eq_true_eq] at hc
  obtain ⟨⟨hname, hslot⟩, hdel⟩ := hc
  obtain ⟨-, r, -, -, hr, -⟩ := lookupName_eq_some hname
  split at hdel
  · rename_i s' hs'
    exact ⟨s, r, s', run_of_exec (free_admits _ _) hs, hname, hr, hslot, hs'⟩
  · cases hdel

end Sample

namespace Server

theorem delete_forgets_iff_deleteC : ∃ (s : Server) (r : GroupRecord) (s' : Server),
    s.casDeleteGroup (Sample.kernel 10) 6 (Sample.text 64 [99]) = .ok (.success, s') ∧
    (s'.Forgotten 4 r.groupId ↔ s.OnlyLinked 4 r) := by
  obtain ⟨s, r, s', hrun, ha, hr, -, hdel⟩ :=
    Sample.loginsAB_delete (Sample.text 64 [99]) 4 (by decide +kernel)
  exact ⟨s, r, s', hdel, delete_forgets_iff Sample.groups Sample.groups_storeInv s hrun
    (Sample.kernel 10) 6 (Sample.text 64 [99]) 4 r s' ha hr hdel⟩

theorem deleted_user_stays_logged_in : Sample.groups.StoreInv ∧ ∃ s r s',
    ReflTransGen (Under next Free) (boot Sample.groups) s ∧
    s.groups.lookupName (toLower (Sample.text 64 [98])) = .ok (some 2) ∧
    s.groups.heap 2 = some r ∧
    s.casDeleteGroup (Sample.kernel 10) 6 (Sample.text 64 [98]) = .ok (.success, s') ∧
    ¬s'.Forgotten 2 r.groupId := by
  obtain ⟨s, r, s', hrun, ha, hr, hslot, hdel⟩ :=
    Sample.loginsAB_delete (Sample.text 64 [98]) 2 (by decide +kernel)
  refine ⟨Sample.groups_storeInv, s, r, s', hrun, ha, hr, hdel, fun hf => ?_⟩
  rcases casDeleteGroup_cases hdel with ⟨hret, -⟩ | ⟨-, a, g, -, -, rfl⟩
  · exact hret rfl
  · exact hf.sessions 5 hslot

end Server

end MachUS.Auth
