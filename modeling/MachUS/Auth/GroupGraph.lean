import MachUS.Auth.Bounds
import MachUS.Auth.GroupStore

namespace MachUS.Auth

open Text Relation Adjacency Function Transition Option Groups UInt32 InBounds

structure Groups.Graph (g : Groups) : Prop where
  count : ∀ a b, (g.listOf .members b).count a = (g.listOf .memberships a).count b ∧
    (g.listOf .members b).count a ≤ 1
  listed : ∀ dir a b, a ∈ g.listOf dir b → (g.recordOf a).isSome = true
  capacity : ∀ dir a, (g.listOf dir a).length ≤ membersMax

structure Groups.GraphInv (g : Groups) : Prop where
  coherent : g.Coherent
  balanced : Balanced (g.listOf .members) (g.listOf .memberships)
  capacity : ∀ dir a, (g.listOf dir a).length ≤ membersMax

def Op.KeepsGraph (k : Kernel) (s : Server) : Op → Prop
  | .addToGroup p n m => ∀ a r b x, s.groups.lookupName n = .ok (some a) → s.Editing p a r →
      r.groupType = asSecondary → s.groups.lookupName (toLower m) = .ok (some b) →
      s.groups.heap b = some x →
      x.groupId ∉ r.members ∧ r.members.length < membersMax ∧ x.memberships.length < membersMax
  | .loginCreate p ids _ => s.Administrator p → ∀ user rest, ids = user :: rest →
      s.groups.lookupId user ≠ none ∨ k.record 0 = none
  | _ => True

namespace Groups

variable {dir : Direction}

theorem mem_listOf {g : Groups} {a b : GroupId} (h : a ∈ g.listOf dir b) :
    (g.recordOf b).isSome = true := by
  rw [listOf] at h
  cases hb : g.recordOf b with
  | none => simp [hb] at h
  | some r => rfl

theorem GraphInv.graph {g : Groups} (h : g.GraphInv) : g.Graph where
  count := fun a b => ⟨h.balanced.equal a b, h.balanced.once a b⟩
  listed := by
    intro dir a b hab
    cases dir with
    | members => exact mem_listOf (h.balanced.mem_iff.mp hab)
    | memberships => exact mem_listOf (h.balanced.mem_iff.mpr hab)
  capacity := h.capacity

theorem Graph.inv {g : Groups} (h : g.Graph) (hc : g.Coherent) : g.GraphInv where
  coherent := hc
  balanced := ⟨fun a b => (h.count a b).1, fun a b => (h.count a b).2⟩
  capacity := h.capacity

structure Relists (dir : Direction) (g g' : Groups) (id : GroupId) (l : List GroupId) :
    Prop where
  coherent : g'.Coherent
  keeps : Keeps GroupRecord.groupId g g'
  list : g'.listOf dir = update (g.listOf dir) id l
  other : g'.listOf dir.other = g.listOf dir.other

variable {r : GroupRecord} {a : Addr}

theorem relists_setRecord {g : Groups} (hg : g.Coherent)
    (hr : g.heap a = some r) (l : List GroupId) :
    Relists dir g (g.setRecord a (dir.put l r)) r.groupId l where
  coherent := hg.setRecord hr (by simp)
  keeps := Keeps.setRecord hr (by simp)
  list := by
    rw [hg.listOf_setRecord dir hr (by simp), Direction.next_put]
  other := hg.listOf_setRecord_same _ hr (by simp) (by simp)

variable {g g' : Groups}

theorem appendTo_relists (hg : g.Coherent) (hr : g.heap a = some r) {id : GroupId}
    (h : appendTo dir g a id = .ok g') :
    Relists dir g g' r.groupId (g.listOf dir r.groupId ++ [id]) ∧
      (g.listOf dir r.groupId).length < membersMax := by
  rw [appendTo, deref_eq_ok.mpr hr, Outcome.ok_bind] at h
  split_ifs at h with hlen
  cases h
  rw [hg.listOf_self dir hr]
  exact ⟨relists_setRecord hg hr _, hlen⟩

theorem dropFrom_relists (hg : g.Coherent) (hr : g.heap a = some r) {id : GroupId}
    (h : dropFrom dir g a id = .ok g') :
    Relists dir g g' r.groupId (deleteFromList (g.listOf dir r.groupId) id) := by
  obtain ⟨r', hr', rfl⟩ := dropFrom_eq_ok h
  cases hr'.symm.trans hr
  rw [hg.listOf_self dir hr]
  exact relists_setRecord hg hr _

namespace GraphInv

variable {g g' g₁ g₂ : Groups} {a b : Addr} {r x : GroupRecord}

section

variable (h : g.GraphInv)

include h

theorem of_lists (hc : g'.Coherent) (hl : ∀ dir, g'.listOf dir = g.listOf dir) : g'.GraphInv := by
  refine ⟨hc, ?_, fun dir id => ?_⟩
  · rw [hl, hl]
    exact h.balanced
  · rw [hl]
    exact h.capacity dir id

theorem setRecord (hr : g.heap a = some r) (hid : x.groupId = r.groupId)
    (hm : x.members = r.members) (hms : x.memberships = r.memberships) :
    (g.setRecord a x).GraphInv := by
  refine h.of_lists (h.coherent.setRecord hr hid) fun dir => ?_
  cases dir with
  | members => exact h.coherent.listOf_setRecord_same _ hr hid hm
  | memberships => exact h.coherent.listOf_setRecord_same _ hr hid hms

theorem adds (ha : g.Adds g' a r) (hm : r.members = [])
    (hms : r.memberships = []) : g'.GraphInv := by
  refine h.of_lists (h.coherent.adds ha) fun dir => ?_
  cases dir with
  | members => exact listOf_adds_nil h.coherent ha hm
  | memberships => exact listOf_adds_nil h.coherent ha hms

theorem relists {ins outs : List GroupId}
    (h₁ : Relists .members g g₁ r.groupId ins) (h₂ : Relists .memberships g₁ g₂ x.groupId outs)
    (hb : Balanced (update (g.listOf .members) r.groupId ins)
      (update (g.listOf .memberships) x.groupId outs))
    (hins : ins.length ≤ membersMax) (houts : outs.length ≤ membersMax) : g₂.GraphInv := by
  have hmem : g₂.listOf .members = update (g.listOf .members) r.groupId ins :=
    h₂.other.trans h₁.list
  have hmship : g₂.listOf .memberships = update (g.listOf .memberships) x.groupId outs := by
    rw [h₂.list, show g₁.listOf .memberships = g.listOf .memberships from h₁.other]
  refine ⟨h₂.coherent, by rw [hmem, hmship]; exact hb, fun dir id => ?_⟩
  cases dir with
  | members =>
    rw [hmem, update_apply]
    split_ifs
    · exact hins
    · exact h.capacity .members id
  | memberships =>
    rw [hmship, update_apply]
    split_ifs
    · exact houts
    · exact h.capacity .memberships id

theorem link (hr : g.heap a = some r) (hx : g.heap b = some x)
    (hnew : x.groupId ∉ r.members) (h₁ : g.addMember a x.groupId = .ok g₁)
    (h₂ : g₁.addMembership b r.groupId = .ok g₂) : g₂.GraphInv := by
  obtain ⟨hrel₁, hlen₁⟩ := appendTo_relists h.coherent hr h₁
  obtain ⟨x', hx', hid⟩ := hrel₁.keeps.forth hx
  obtain ⟨hrel₂, hlen₂⟩ := appendTo_relists hrel₁.coherent hx' h₂
  rw [hid, show g₁.listOf .memberships = g.listOf .memberships from hrel₁.other] at hrel₂ hlen₂
  have hnew' : x.groupId ∉ g.listOf .members r.groupId := by
    rw [h.coherent.listOf_self .members hr]
    exact hnew
  exact h.relists hrel₁ hrel₂ (h.balanced.link hnew') (by simp; omega) (by simp; omega)

theorem unlink (hr : g.heap a = some r) (hx : g.heap b = some x)
    (h₁ : g.dropMember a x.groupId = .ok g₁) (h₂ : g₁.dropMembership b r.groupId = .ok g₂) :
    g₂.GraphInv := by
  have hrel₁ := dropFrom_relists h.coherent hr h₁
  obtain ⟨x', hx', hid⟩ := hrel₁.keeps.forth hx
  have hrel₂ := dropFrom_relists hrel₁.coherent hx' h₂
  rw [hid, show g₁.listOf .memberships = g.listOf .memberships from hrel₁.other] at hrel₂
  exact h.relists hrel₁ hrel₂ (h.balanced.unlink deleteFromList_erases)
    ((deleteFromList_length_le _ _).trans (h.capacity _ _))
    ((deleteFromList_length_le _ _).trans (h.capacity _ _))

end

end GraphInv

theorem Removes.coherent (h : g.Removes g' a r)
    (hg : g.Coherent) (hr : g.heap a = some r) : g'.Coherent := by
  have kept {b : Addr} {x : GroupRecord} (hb : b ≠ a) (hx : g.heap b = some x) :
      ∃ x', g'.heap b = some x' ∧ x'.groupId = x.groupId := by
    have hbare := h.others b hb
    rw [hx, map_some, map_eq_some_iff] at hbare
    obtain ⟨x', hx', heq⟩ := hbare
    exact ⟨x', hx', (bare_fields heq).1⟩
  refine ⟨fun id b hb => ?_, fun b x' hx' => ?_, fun id b hb => ?_⟩
  · rw [h.groupIdMap] at hb
    have hid : id ≠ r.groupId := by
      rintro rfl
      simp at hb
    rw [update_of_ne hid] at hb
    obtain ⟨x, hx, hxid⟩ := hg.mapped id b hb
    have hba : b ≠ a := by
      rintro rfl
      cases hx.symm.trans hr
      exact hid hxid.symm
    obtain ⟨x', hx', hid'⟩ := kept hba hx
    exact ⟨x', hx', hid'.trans hxid⟩
  · have hba : b ≠ a := by
      rintro rfl
      rw [h.heap] at hx'
      cases hx'
    have hbare := h.others b hba
    rw [hx', map_some, eq_comm, map_eq_some_iff] at hbare
    obtain ⟨x, hx, heq⟩ := hbare
    have hid : x.groupId = x'.groupId := (bare_fields heq).1
    have hown := hg.owned b x hx
    rw [h.groupIdMap, ← hid, update_of_ne, hown]
    intro heq'
    rw [heq', hg.owned a r hr] at hown
    exact hba (some.inj hown).symm
  · rw [h.groupIdMap] at hb
    by_cases hid : id = r.groupId
    · simp [hid] at hb
    · rw [update_of_ne hid] at hb
      exact hg.range id b hb

theorem Removes.listOf_self (h : g.Removes g' a r)
    (dir : Direction) : g'.listOf dir r.groupId = [] := by
  rw [listOf, recordOf, h.groupIdMap, update_self]
  rfl

theorem GraphInv.removes (hg : g.GraphInv)
    (hr : g.heap a = some r) (h : g.Removes g' a r) : g'.GraphInv where
  coherent := h.coherent hg.coherent hr
  balanced := by
    refine hg.balanced.isolate (v := r.groupId) (h.listOf_self _) (h.listOf_self _) ?_ ?_
    · intro x hx y
      rw [h.count .members x hx y, hg.coherent.listOf_self .memberships hr]
      rfl
    · intro x hx y
      rw [h.count .memberships x hx y, hg.coherent.listOf_self .members hr]
      rfl
  capacity := fun dir id => (h.length dir id).trans (hg.capacity dir id)

end Groups

theorem Change.graphInv {k : Kernel} {s : Server} {op : Op} {g g' : Groups}
    (hop : op.KeepsGraph k s) (hg : g.GraphInv) (h : Change k s op g g') : g'.GraphInv := by
  cases h with
  | cache ids hr => exact hg.setRecord hr rfl rfl rfl
  | owner hr hx => exact hg.setRecord hr rfl rfl rfl
  | password hr ht hw => exact hg.setRecord hr rfl rfl rfl
  | record hadds hblank hlen hnum hms =>
    refine hg.adds hadds hblank.members ?_
    rw [hblank.memberships]
    rcases hms with rfl | hrec
    · rfl
    · cases op with
      | loginCreate p ids q =>
        cases ids with
        | nil => exact hrec.elim
        | cons user rest =>
          obtain ⟨hadmin, hnone, hsome, -⟩ := hrec
          rcases hop hadmin user rest rfl with hid | hk
          · exact absurd hnone hid
          · simp [hk] at hsome
      | _ => exact hrec.elim
  | group hadds hnamed hcreates => exact hg.adds hadds hnamed.members hnamed.memberships
  | link ha hr ht hb hx h₁ h₂ =>
    exact hg.link hr.1 hx (hop _ _ _ _ ha hr ht hb hx).1 h₁ h₂
  | unlink hr hx h₁ h₂ => exact hg.unlink hr hx h₁ h₂
  | remove ha h =>
    obtain ⟨-, r, -, -, hr, -⟩ := lookupName_eq_some ha
    exact hg.removes hr (removeGroup_spec hg.coherent hr h)

namespace Server

theorem casAddToGroup_inBounds {k : Kernel} {s : Server} {p : Port} {n m : GroupName}
    (h : (Op.addToGroup p n m).KeepsGraph k s) : InBounds (s.casAddToGroup p n m) := by
  refine .asCaller fun i c hb => .bind (avoids_lookupName named _ _) fun o ha => ?_
  cases o with
  | none => exact .ok _
  | some a =>
    refine .bind (avoids_deref named _ _) fun r hr => .ite (fun _ => .ok _) fun ht =>
      .bind (avoids_lookupName named _ _) fun o' hb' => ?_
    cases o' with
    | none => exact .ok _
    | some b =>
      refine .bind (avoids_deref named _ _) fun x hx =>
        .bind (avoids_deref named _ _) fun caller hc =>
        .ite (fun _ => .ok _) fun hmay => ?_
      rw [deref_eq_ok] at hr hx hc
      obtain ⟨-, hlen, hlen'⟩ := h a r b x ha ⟨hr, i, c, caller, hb, hc, by simpa using hmay⟩
        (not_not.mp ht) hb' hx
      have hadd : s.groups.addMember a x.groupId =
          .ok (s.groups.setRecord a { r with members := r.members ++ [x.groupId] }) := by
        rw [addMember, appendTo, deref_eq_ok.mpr hr, Outcome.ok_bind]
        exact if_pos hlen
      rw [hadd, Outcome.ok_bind]
      refine .bind (.bind (avoids_deref named _ _) fun y hy => ?_) fun _ _ => .ok _
      have hy' : y.memberships = x.memberships := by
        have hk : Keeps GroupRecord.memberships s.groups
            (s.groups.setRecord a { r with members := r.members ++ [x.groupId] }) :=
          Keeps.setRecord hr rfl
        obtain ⟨y', hy₁, hy₂⟩ := hk.forth hx
        cases hy₁.symm.trans (deref_eq_ok.mp hy)
        exact hy₂
      refine .ite (fun _ => .ok _) fun hfull => absurd ?_ hfull
      change y.memberships.length < membersMax
      rw [hy']
      exact hlen'

theorem step_inBounds {k : Kernel} {s : Server} {op : Op} (h : op.KeepsGraph k s) :
    InBounds (s.step k op) := by
  cases op with
  | login u w p => exact .casLogin _ _ _
  | loginPriv p u q => exact .casLoginPriv _ _ _
  | loginCreate p ids q => exact .casLoginCreate h
  | logout p => exact .casLogout _
  | registerToken p ids t create => exact .casRegisterToken _ _ _ _
  | deleteToken p t => exact .casDeleteToken _ _
  | createGroup p n ty f w o id =>
    exact .bind (.casCreateGroup _ _ _ _ _ _ _) fun _ _ => .ok _
  | deleteGroup p n => exact .casDeleteGroup _ _
  | changeOwner p n o => exact .casChangeOwner _ _ _
  | changePassword p n w w' => exact .casChangePassword _ _ _ _
  | addToGroup p n m => exact casAddToGroup_inBounds h
  | removeFromGroup p n m => exact .casRemoveFromGroup _ _ _

def KeepsGraph (s : Server) (e : Kernel × Op) : Prop := e.2.KeepsGraph e.1 s

theorem graphInv_run {s s' : Server}
    (hrun : ReflTransGen (Under next KeepsGraph) s s') (h : s.groups.GraphInv) :
    s'.groups.GraphInv := by
  refine invariant (I := fun s => s.groups.GraphInv) (fun x e y hx he hy => ?_) hrun h
  obtain ⟨ret, hstep⟩ := next_eq_some.mp hy
  exact changes_invariant (fun _ _ hg hc => hc.graphInv he hg) hstep hx

theorem group_graph_kept (g : Groups) (hcoherent : g.Coherent) (hgraph : g.Graph) (s : Server)
    (hrun : ReflTransGen (Under next KeepsGraph) (boot g) s) :
    s.groups.Graph ∧ ∀ k op, op.KeepsGraph k s → s.step k op ≠ .error .memberOverrun :=
  ⟨(graphInv_run hrun (hgraph.inv hcoherent)).graph, fun _ _ h => step_inBounds h⟩

end Server

namespace Sample

theorem groups_cases {id : GroupId} {a : ℕ} (h : groups.groupIdMap id = some a) :
    id.toNat = a + 1 ∧ a < 5 := by
  simp only [groups] at h
  split_ifs at h with hid
  rw [le_iff_toNat_le, le_iff_toNat_le] at hid
  simp only [reduceToNat] at hid
  cases h
  omega

theorem groups_coherent : groups.Coherent where
  mapped := by
    intro id a h
    obtain ⟨hid, ha⟩ := groups_cases h
    have hid' : id = UInt32.ofNat (a + 1) := by rw [← hid, UInt32.ofNat_toNat]
    subst hid'
    interval_cases a <;> exact ⟨_, rfl, rfl⟩
  owned := by
    intro a r h
    have ha : a < 5 := by
      by_contra hge
      have hnone : groups.heap a = none := List.getElem?_eq_none (by simpa using hge)
      rw [hnone] at h
      cases h
    interval_cases a <;> (obtain rfl := some.inj h; rfl)
  range := by
    intro id a h
    obtain ⟨hid, ha⟩ := groups_cases h
    rw [hid]
    exact lt_of_lt_of_le (Nat.succ_lt_succ ha) (by decide)

theorem groups_listOf (dir : Direction) (id : GroupId) :
    groups.listOf dir id = match dir with
      | .members => if id = 1 then [2] else if id = 4 then [3] else []
      | .memberships => if id = 2 then [1] else if id = 3 then [4] else [] := by
  by_cases hid : 1 ≤ id ∧ id ≤ 5
  · have hrange : 1 ≤ id.toNat ∧ id.toNat ≤ 5 := by
      rw [le_iff_toNat_le, le_iff_toNat_le] at hid
      simpa using hid
    have hid' : id = UInt32.ofNat id.toNat := by rw [UInt32.ofNat_toNat]
    rw [hid']
    generalize id.toNat = n at hrange
    obtain ⟨h1, h5⟩ := hrange
    interval_cases n <;> cases dir <;> rfl
  · have hnone : groups.groupIdMap id = none := if_neg hid
    have hne (n : GroupId) (hn : 1 ≤ n ∧ n ≤ 5) : id ≠ n := by
      rintro rfl
      exact hid hn
    rw [listOf, recordOf, hnone]
    cases dir with
    | members => simp [hne 1 (by decide), hne 4 (by decide)]
    | memberships => simp [hne 2 (by decide), hne 3 (by decide)]

theorem groups_graph : groups.Graph := by
  refine GraphInv.graph ⟨groups_coherent, ⟨fun a b => ?_, fun a b => ?_⟩, fun dir a => ?_⟩
  · simp only [groups_listOf]
    split_ifs <;> simp_all [eq_comm]
  · simp only [groups_listOf]
    split_ifs <;> simp [List.count_singleton] <;> split_ifs <;> omega
  · rw [groups_listOf]
    cases dir <;> simp only <;> split_ifs <;> simp [membersMax]

def loginA : Kernel × Op := (kernel 10, .login (text 64 [97]) word 5)

def joinG : Kernel × Op := (kernel 10, .addToGroup 5 (text 64 [103]) (text 64 [99]))

theorem loginA_joinG_admits : Admits Server.next Server.KeepsGraph server [loginA, joinG] := by
  refine ⟨trivial, fun s hs => ⟨?_, fun _ _ => trivial⟩⟩
  have h : check Server.next server [loginA] (fun s =>
      decide (s.groups.lookupName (text 64 [103]) = .ok (some 3)) &&
      decide (s.groups.lookupName (toLower (text 64 [99])) = .ok (some 4)) &&
      decide ((s.groups.heap 3).map GroupRecord.members = some [3]) &&
      decide ((s.groups.heap 4).map (fun x => (x.groupId, x.memberships)) = some (5, []))) =
      true := by
    decide +kernel
  obtain ⟨s', hs', hc⟩ := exec_of_check h
  obtain rfl : s' = s := by
    rw [exec, show server.next loginA = some s from hs] at hs'
    exact (some.inj hs').symm
  simp only [Bool.and_eq_true, decide_eq_true_eq] at hc
  obtain ⟨⟨⟨hg, hcn⟩, hr⟩, hx⟩ := hc
  intro a r b x ha hedit _ hb hx'
  obtain rfl : a = 3 := some.inj (Except.ok.inj (ha.symm.trans hg))
  obtain rfl : b = 4 := some.inj (Except.ok.inj (hb.symm.trans hcn))
  rw [hedit.1, map_some] at hr
  rw [hx', map_some] at hx
  have hmembers := some.inj hr
  obtain ⟨hid, hms⟩ := Prod.mk.inj (some.inj hx)
  rw [hmembers, hid, hms]
  decide

end Sample

namespace Server

theorem group_graph_kept_joinG : ∃ s,
    exec next Sample.server [Sample.loginA, Sample.joinG] = some s ∧
    s.groups.listOf .members 4 = [3, 5] ∧
    (s.groups.Graph ∧ ∀ k op, op.KeepsGraph k s → s.step k op ≠ .error .memberOverrun) := by
  have h : check next Sample.server [Sample.loginA, Sample.joinG] (fun s =>
      decide (s.groups.listOf .members 4 = [3, 5])) = true := by
    decide +kernel
  obtain ⟨s, hs, hc⟩ := exec_of_check h
  exact ⟨s, hs, by simpa using hc, group_graph_kept Sample.groups Sample.groups_coherent
    Sample.groups_graph s (run_of_exec Sample.loginA_joinG_admits hs)⟩

theorem added_twice_listed_twice : Sample.groups.Coherent ∧ Sample.groups.Graph ∧ ∃ s,
    ReflTransGen (Under next Free) (boot Sample.groups) s ∧
    s.groups.listOf .members 4 = [3, 5, 5] ∧ ¬s.groups.Graph := by
  have h : check next Sample.server [Sample.loginA, Sample.joinG, Sample.joinG]
      (fun s => decide (s.groups.listOf .members 4 = [3, 5, 5])) = true := by
    decide +kernel
  obtain ⟨s, hs, hc⟩ := exec_of_check h
  have hlist : s.groups.listOf .members 4 = [3, 5, 5] := by simpa using hc
  refine ⟨Sample.groups_coherent, Sample.groups_graph, s,
    run_of_exec (free_admits _ _) hs, hlist, fun hgraph => ?_⟩
  have honce := (hgraph.count 5 4).2
  rw [hlist] at honce
  exact absurd honce (by decide)

end Server

end MachUS.Auth
