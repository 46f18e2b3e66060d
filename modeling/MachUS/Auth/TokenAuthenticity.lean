import MachUS.Auth.PortInvariant

namespace MachUS.Auth

open Relation Probing Transition Outcome Ledger Groups Except Option

namespace Server

def Entitled (s : Server) (u : GroupRecord) (roll : List GroupId) (id : GroupId) : Prop :=
  (s.groups.lookupId id).isSome = true ∧ (id = u.groupId ∨ id ∈ roll)

def IsRoll (s : Server) (u : GroupRecord) (roll : List GroupId) : Prop :=
  roll = u.trMemberships ∨ s.groups.doTransitiveClosure .memberships u = .ok roll

def LeastAuthority (k : Kernel) (s : Server) (p : Port) (u : GroupRecord) (roll ids : List GroupId)
    (t : Port) (create : Bool) : Prop :=
  ∀ s', s.casRegisterToken k p ids t create = .ok (.success, s') → ∀ id ∈ ids, s.Entitled u roll id

def Unchecked (k : Kernel) (s : Server) (u : GroupRecord) (ids : List GroupId) (create : Bool) :
    Prop :=
  if create then ∃ g, s.groups.admitGroups k true 0 ids = .ok (true, g)
  else u.trMemberships ≠ [] ∨ ∀ id ∈ ids, k.stray id = some true

end Server

theorem onTrMemberships_eq_ok_true {k : Kernel} {r : GroupRecord} {ids : List GroupId} :
    onTrMemberships k r ids = .ok true ↔
      r.trMemberships ≠ [] ∨ ∀ id ∈ ids, k.stray id = some true := by
  by_cases hr : r.trMemberships = []
  · induction ids with
    | nil => simp [onTrMemberships]
    | cons id ids ih =>
      simp only [hr, ne_eq, not_true_eq_false, false_or] at ih ⊢
      rw [onTrMemberships, if_pos (by rw [hr]; rfl)]
      cases h : k.stray id with
      | none => simp [h]
      | some b => cases b <;> simp [h, ih]
  · induction ids with
    | nil => simp [onTrMemberships]
    | cons id ids ih =>
      rw [onTrMemberships, if_neg (by simpa using hr), ih]
      simp [hr]

namespace Server

theorem admitToken_eq_ok_true {k : Kernel} {s : Server} {u : GroupRecord} {ids : List GroupId}
    {create : Bool} (hadm : checkForMembership sysAdmId u = false) (hids : ids ≠ []) :
    (∃ g, admitToken k s.groups u ids create = .ok (true, g)) ↔ s.Unchecked k u ids create := by
  rw [admitToken, if_neg hids, hadm, Bool.false_or, Unchecked]
  cases create with
  | true => simp
  | false =>
    simp only [Bool.false_eq_true, if_false, bind_eq_ok, ok.injEq, Prod.mk.injEq]
    rw [← onTrMemberships_eq_ok_true (k := k)]
    constructor
    · rintro ⟨g, b, hb, rfl, -⟩
      exact hb
    · intro h
      exact ⟨s.groups, true, h, rfl, rfl⟩

theorem casRegisterToken_succeeds_iff {k : Kernel} {s : Server} {p t : Port} {i : Fin portMapMax}
    {a : Addr} {u : GroupRecord} {ids : List GroupId} (hb : s.Bound p i a)
    (hu : s.groups.heap a = some u) (hadm : checkForMembership sysAdmId u = false)
    (hids : ids ≠ []) (create : Bool) :
    (∃ s', s.casRegisterToken k p ids t create = .ok (.success, s')) ↔
      s.Unchecked k u ids create ∧ ∃ j, hashPort s.regKeys t = .ok j := by
  rw [← admitToken_eq_ok_true hadm hids]
  constructor
  · rintro ⟨s', h⟩
    rcases casRegisterToken_cases h with ⟨hret, -⟩ | ⟨i', a', r, g, hb', hr, hcase⟩
    · cases hret
    · obtain rfl : i' = i := ok.inj (hb'.2.1.symm.trans hb.2.1)
      obtain rfl : a' = a := some.inj (hb'.2.2.symm.trans hb.2.2)
      obtain rfl : r = u := some.inj (hr.symm.trans hu)
      rcases hcase with ⟨hret, -⟩ | ⟨j, hj, hg, -⟩
      · cases hret
      · exact ⟨⟨g, hg⟩, j, hj⟩
  · rintro ⟨⟨g, hg⟩, j, hj⟩
    refine ⟨(s.withGroups g).setReg j (tokenEntry u p ids t), ?_⟩
    rw [casRegisterToken, asCaller_of_bound _ _ hb, deref_eq_ok.mpr hu, ok_bind, hg, ok_bind]
    simp only [hj, ok_bind, hids, false_and, if_false]

theorem least_authority_iff {s : Server} (_hs : s.Reachable) (k : Kernel) {p t : Port}
    {i : Fin portMapMax} {a : Addr} {u : GroupRecord} (hb : s.Bound p i a)
    (hu : s.groups.heap a = some u) (hadm : checkForMembership sysAdmId u = false)
    (ids : List GroupId) (create : Bool) (roll : List GroupId) (_hroll : s.IsRoll u roll) :
    s.LeastAuthority k p u roll ids t create ↔
      (∀ id ∈ ids, s.Entitled u roll id) ∨ ¬s.Unchecked k u ids create ∨
        hashPort s.regKeys t = .error .endlessProbe := by
  by_cases hids : ids = []
  · subst hids
    simp [LeastAuthority]
  have hiff := casRegisterToken_succeeds_iff (k := k) (t := t) hb hu hadm hids create
  have hslot : hashPort s.regKeys t = .error .endlessProbe ↔
      ¬∃ j, hashPort s.regKeys t = .ok j := by
    rw [hashPort]
    cases Probing.probe s.regKeys machPortNull (hashHome t) t <;> simp
  rw [hslot, ← not_and_or, ← hiff]
  constructor
  · intro h
    by_cases hex : ∃ s', s.casRegisterToken k p ids t create = .ok (.success, s')
    · obtain ⟨s', hs'⟩ := hex
      exact Or.inl (h s' hs')
    · exact Or.inr hex
  · rintro (h | h) s' hs'
    · exact h
    · exact absurd ⟨s', hs'⟩ h

end Server

namespace Sample

def loginB : List (Kernel × Op) := [(kernel 10, .login (text 64 [98]) word 5)]

theorem loginB_state : ∃ s : Server, s.Reachable ∧ s.Bound 5 5 2 ∧
    (∃ u, s.groups.heap 2 = some u ∧ checkForMembership sysAdmId u = false ∧
      u.trMemberships = [4] ∧ s.groups.doTransitiveClosure .memberships u = .ok [4]) ∧
    hashPort s.regKeys 7 = .ok 7 ∧ s.groups.lookupId 1 = some 0 := by
  have h : check Server.next server loginB (fun s => decide (hashPort s.privKeys 5 = .ok 5) &&
      decide ((s.privPortMap 5).record = some 2) &&
      ((s.groups.heap 2).any fun u => decide (checkForMembership sysAdmId u = false) &&
          decide (u.trMemberships = [4]) &&
          decide (s.groups.doTransitiveClosure .memberships u = .ok [4])) &&
      decide (hashPort s.regKeys 7 = .ok 7) && decide (s.groups.lookupId 1 = some 0)) = true := by
    decide +kernel
  obtain ⟨s, hs, hc⟩ := exec_of_check h
  simp only [Bool.and_eq_true, decide_eq_true_eq] at hc
  obtain ⟨⟨⟨⟨h1, h2⟩, h3⟩, h4⟩, h5⟩ := hc
  refine ⟨s, Server.reachable_of_exec hs, ⟨by decide, h1, h2⟩, ?_, h4, h5⟩
  cases hu : s.groups.heap 2 with
  | none => simp [hu] at h3
  | some u =>
    simp only [hu, any_some, Bool.and_eq_true, decide_eq_true_eq] at h3
    exact ⟨u, rfl, h3.1.1, h3.1.2, h3.2⟩

end Sample

namespace Server

theorem member_gets_admin_token : ∃ (s s' : Server) (u : GroupRecord), s.Reachable ∧
    s.Bound 5 5 2 ∧ s.groups.heap 2 = some u ∧ checkForMembership sysAdmId u = false ∧
    u.groupId ≠ sysAdmId ∧
    s.casRegisterToken (Sample.kernel 20) 5 [sysAdmId] 7 false = .ok (.success, s') ∧
    s.IsRoll u [4] ∧
    ∀ roll, s.IsRoll u roll → ¬s.LeastAuthority (Sample.kernel 20) 5 u roll [sysAdmId] 7 false := by
  obtain ⟨s, hs, hb, ⟨u, hu, hadm, htr, hcl⟩, hslot, hid⟩ := Sample.loginB_state
  have hne : u.groupId ≠ sysAdmId := by
    intro h
    rw [checkForMembership, h] at hadm
    simp at hadm
  have hun : s.Unchecked (Sample.kernel 20) u [sysAdmId] false := by simp [Unchecked, htr]
  obtain ⟨s', hs'⟩ := (casRegisterToken_succeeds_iff (k := Sample.kernel 20) (t := 7)
    hb hu hadm (by simp : [sysAdmId] ≠ []) false).mpr ⟨hun, 7, hslot⟩
  refine ⟨s, s', u, hs, hb, hu, hadm, hne, hs', Or.inr hcl, fun roll hroll h => ?_⟩
  obtain rfl : roll = [4] := by
    rcases hroll with rfl | hroll
    · exact htr
    · exact ok.inj (hroll.symm.trans hcl)
  rcases (h s' hs' sysAdmId (by simp)).2 with hent | hent
  · exact hne hent.symm
  · revert hent
    decide

theorem least_authority_iff_loginB : ∃ (s : Server) (u : GroupRecord), s.Reachable ∧
    s.Bound 5 5 2 ∧ s.groups.heap 2 = some u ∧ checkForMembership sysAdmId u = false ∧
    (s.LeastAuthority (Sample.kernel 20) 5 u u.trMemberships [4] 7 false ↔
      (∀ id ∈ [4], s.Entitled u u.trMemberships id) ∨
        ¬s.Unchecked (Sample.kernel 20) u [4] false ∨
        hashPort s.regKeys 7 = .error .endlessProbe) := by
  obtain ⟨s, hs, hb, ⟨u, hu, hadm, -⟩, -⟩ := Sample.loginB_state
  exact ⟨s, u, hs, hb, hu, hadm,
    least_authority_iff hs (Sample.kernel 20) hb hu hadm [4] false u.trMemberships (Or.inl rfl)⟩

end Server

structure PortsCorrect (s : Server) (l : Ledger) : Prop where
  session : ∀ p a, l.sessions p = some a →
    ∃ i, hashPort s.privKeys p = .ok i ∧ s.privPortMap i = ⟨p, some a⟩
  token : ∀ t e, l.tokens t = some e →
    ∃ j, hashPort s.regKeys t = .ok j ∧ s.regPortMap j = ⟨t, e.owner, e.groupIds, e.userId⟩
  noSession : Set.ncard {p | (l.sessions p).isSome} < portMapMax → ∀ p, p ≠ machPortNull →
    l.sessions p = none → ∃ i, hashPort s.privKeys p = .ok i ∧ s.privPortMap i = PrivSlot.blank
  noToken : Set.ncard {t | (l.tokens t).isSome} < portMapMax → ∀ t, t ≠ machPortNull →
    l.tokens t = none → ∃ j, hashPort s.regKeys t = .ok j ∧ s.regKeys j = machPortNull ∧
      (s.regPortMap j).privatePort = machPortNull ∧ (s.regPortMap j).groupIds = []
  oneSession : ∀ i j, s.privKeys i ≠ machPortNull → s.privKeys i = s.privKeys j → i = j
  oneToken : ∀ i j, s.regKeys i ≠ machPortNull → s.regKeys i = s.regKeys j → i = j

theorem PortInv.correct {s : Server} {l : Ledger} (h : PortInv s l) : PortsCorrect s l where
  session := by
    intro p a hp
    obtain ⟨i, hi, hkey, ha⟩ := h.priv.find_live hp
    refine ⟨i, privLayout_find.mp hi, ?_⟩
    rw [← show (s.privPortMap i).mappedPort = p from hkey,
      ← show (s.privPortMap i).record = some a from ha]
  token := by
    intro t e ht
    obtain ⟨j, hj, hkey, he⟩ := h.reg.find_live ht
    refine ⟨j, regLayout_find.mp hj, ?_⟩
    obtain ⟨howner, huser, hids⟩ := he
    rw [howner, huser, hids, ← show (s.regPortMap j).mappedPort = t from hkey]
  noSession := by
    intro hcard p hp hl
    obtain ⟨i, hi, -, hv⟩ := h.priv.find_vacant hp hl hcard
    exact ⟨i, privLayout_find.mp hi, hv⟩
  noToken := by
    intro hcard t ht hl
    obtain ⟨j, hj, hkey, hv⟩ := h.reg.find_vacant ht hl hcard
    exact ⟨j, regLayout_find.mp hj, hkey, hv⟩
  oneSession := fun _ _ hi hij => h.priv.chained.injective hi hij
  oneToken := fun _ _ hi hij => h.reg.chained.injective hi hij

theorem port_maps_correct (g : Groups) (s : Server) (l : Ledger)
    (hrun : ReflTransGen (Under next Op.Chained) (Server.boot g, empty)
      (s, l)) : PortsCorrect s l :=
  (PortInv.run hrun (portInv_boot g)).correct

namespace Sample

def crossedSessions : List (Kernel × Op) :=
  [(kernel 10, .login (text 64 [98]) word 5), (kernel 10, .login (text 64 [99]) word 0x500),
    (kernel 10, .logout 5)]

theorem crossedSessions_state : ∃ s l,
    exec next (server, empty) crossedSessions = some (s, l) ∧
    l.sessions 0x500 = some 4 ∧ hashPort s.privKeys 0x500 = .ok 5 ∧
    s.privPortMap 5 = PrivSlot.blank := by
  have h : check next (server, empty) crossedSessions (fun y =>
      decide (y.2.sessions 0x500 = some 4) && decide (hashPort y.1.privKeys 0x500 = .ok 5) &&
      decide (y.1.privPortMap 5 = PrivSlot.blank)) = true := by
    decide +kernel
  obtain ⟨⟨s, l⟩, hrun, hc⟩ := exec_of_check h
  simp only [Bool.and_eq_true, decide_eq_true_eq] at hc
  exact ⟨s, l, hrun, hc.1.1, hc.1.2, hc.2⟩

def plainSessions : List (Kernel × Op) :=
  [(kernel 10, .login (text 64 [98]) word 5), (kernel 10, .login (text 64 [99]) word 0x500),
    (kernel 10, .registerToken 0x500 [] 7 false), (kernel 10, .logout 0x500),
    (kernel 10, .login (text 64 [99]) word 0x500),
    (kernel 10, .registerToken 0x500 [4] 0x700 true)]

theorem plainSessions_state : ∃ s l,
    exec next (server, empty) plainSessions = some (s, l) ∧
    Admits next Op.Chained (server, empty) plainSessions ∧
    l.tokens 0x700 = some ⟨0x500, 5, [4], some (Sample.text 64 [99]), [some (Sample.text 64 [103])]⟩ := by
  have hadmits : Admits next Op.Chained (server, empty) plainSessions := by
    decide +kernel
  have h : check next (server, empty) plainSessions (fun y =>
      decide (y.2.tokens 0x700 = some ⟨0x500, 5, [4], some (Sample.text 64 [99]), [some (Sample.text 64 [103])]⟩)) = true := by
    decide +kernel
  obtain ⟨⟨s, l⟩, hrun, hc⟩ := exec_of_check h
  exact ⟨s, l, hrun, hadmits, by simpa using hc⟩

end Sample

theorem port_maps_correct_plainSessions : ∃ s l,
    exec next (Sample.server, empty) Sample.plainSessions = some (s, l) ∧
    l.tokens 0x700 = some ⟨0x500, 5, [4], some (Sample.text 64 [99]), [some (Sample.text 64 [103])]⟩ ∧ PortsCorrect s l := by
  obtain ⟨s, l, hrun, hadmits, htok⟩ := Sample.plainSessions_state
  exact ⟨s, l, hrun, htok, port_maps_correct Sample.groups s l (run_of_exec hadmits hrun)⟩

theorem logout_hides_live_session : ∃ s l,
    ReflTransGen (Under next Free) (Sample.server, empty) (s, l) ∧
    Set.ncard {p | l.Live p} < portMapMax ∧ ¬PortsCorrect s l := by
  obtain ⟨s, l, hrun, hlive, hslot, hblank⟩ := Sample.crossedSessions_state
  refine ⟨s, l, run_of_exec (free_admits _ _) hrun,
    (exec_ncard hrun).trans_lt (by decide), fun h => ?_⟩
  obtain ⟨i, hi, hentry⟩ := h.session _ _ hlive
  obtain rfl : i = 5 := ok.inj (hi.symm.trans hslot)
  rw [hblank] at hentry
  cases hentry

def Groups.Nameable (g : Groups) (id : GroupId) : Prop :=
  id.toNat < groupIdMax ∧ ∀ a, g.groupIdMap id = some a → (g.heap a).isSome = true

def orNoName (n : Option GroupName) : GroupName := n.getD Server.noName

theorem nameOf_eq_ok {g : Groups} {id : GroupId} {n : GroupName} :
    Server.nameOf g id = .ok n ↔ g.Nameable id ∧ n = orNoName (g.nameNow id) := by
  rw [Server.nameOf, idSlot, Nameable, nameNow]
  split_ifs with hid
  · cases hmap : g.groupIdMap id with
    | none =>
      simp only [ok_bind, ok.injEq, hid, bind_none, orNoName]
      simp [eq_comm (a := n)]
    | some a =>
      cases hheap : g.heap a with
      | none => simp [deref, hheap]
      | some r =>
        simp only [ok_bind, deref, hheap, ok.injEq, hid, orNoName]
        simp [hheap, eq_comm (a := n)]
  · simp [hid]

theorem mapM_nameOf_eq_ok {g : Groups} {ids : List GroupId} {ns : List GroupName} :
    ids.mapM (Server.nameOf g) = .ok ns ↔
      (∀ id ∈ ids, g.Nameable id) ∧ ns = ids.map fun id => orNoName (g.nameNow id) := by
  induction ids generalizing ns with
  | nil =>
    simp only [List.mapM_nil, pure_eq_ok, List.map_nil, List.not_mem_nil, false_imp_iff,
      implies_true, true_and]
    exact eq_comm
  | cons id ids ih =>
    simp only [List.mapM_cons, bind_eq_ok, nameOf_eq_ok, ih, pure_eq_ok,
      List.forall_mem_cons, List.map_cons]
    constructor
    · rintro ⟨_, ⟨hid, rfl⟩, _, ⟨hids, rfl⟩, rfl⟩
      exact ⟨⟨hid, hids⟩, rfl⟩
    · rintro ⟨⟨hid, hids⟩, rfl⟩
      exact ⟨_, ⟨hid, rfl⟩, _, ⟨hids, rfl⟩, rfl⟩

namespace Server

def IdsAuthentic (s : Server) (l : Ledger) (t : Port) : Prop :=
  match l.tokens t with
  | some e => ∀ u ids, s.casVerifyTokenIds t = .ok (.success, u, ids) →
      u = e.userId ∧ ids = e.groupIds
  | none => ∃ ret u ids, ret ≠ .success ∧ s.casVerifyTokenIds t = .ok (ret, u, ids)

def NamesAuthentic (k : Kernel) (s : Server) (l : Ledger) (t : Port) : Prop :=
  match l.tokens t with
  | some e => ∀ n ns, s.casVerifyTokenNames k t = .ok (.success, n, ns) →
      some n = e.userName ∧ ns = e.groupNames.map orNoName
  | none => ∃ ret n ns, ret ≠ .success ∧ s.casVerifyTokenNames k t = .ok (ret, n, ns)

def UserGone (s : Server) (id : GroupId) : Prop :=
  ¬(id.toNat < groupIdMax ∧ (s.groups.nameNow id).isSome = true)

def NamesRefused (k : Kernel) (s : Server) (e : Registration) : Prop :=
  s.UserGone e.userId ∨ (e.groupIds ≠ [] ∧ k.list = false) ∨
    ∃ id ∈ e.groupIds, ¬s.groups.Nameable id

def NamesKept (s : Server) (e : Registration) : Prop :=
  s.groups.nameNow e.userId = e.userName ∧
    e.groupIds.map (fun id => orNoName (s.groups.nameNow id)) = e.groupNames.map orNoName

def NullUnknown (s : Server) : Prop :=
  ∃ j, hashPort s.regKeys machPortNull = .ok j ∧ (s.regPortMap j).userId.toNat < groupIdMax ∧
    s.groups.groupIdMap (s.regPortMap j).userId = none

variable {s : Server} {t : Port} {j : Fin portMapMax} {k : Kernel}

section

variable (hj : hashPort s.regKeys t = .ok j)

include hj

theorem casVerifyTokenIds_hit (hkey : s.regKeys j = t) :
    s.casVerifyTokenIds t = .ok (.success, (s.regPortMap j).userId, (s.regPortMap j).groupIds) := by
  rw [casVerifyTokenIds, hj, ok_bind]
  exact if_pos hkey

theorem casVerifyTokenIds_miss (hkey : s.regKeys j ≠ t) :
    s.casVerifyTokenIds t = .ok (.failure, nullId, []) := by
  rw [casVerifyTokenIds, hj, ok_bind]
  exact if_neg hkey

theorem casVerifyTokenNames_miss (hkey : s.regKeys j ≠ t) :
    s.casVerifyTokenNames k t = .ok (.success, noName, []) := by
  rw [casVerifyTokenNames, hj, ok_bind]
  exact if_pos hkey

theorem casVerifyTokenNames_hit (hkey : s.regKeys j = t) {n : GroupName} {ns : List GroupName} :
    s.casVerifyTokenNames k t = .ok (.success, n, ns) ↔
      (s.regPortMap j).userId.toNat < groupIdMax ∧
      s.groups.nameNow (s.regPortMap j).userId = some n ∧
      ¬((s.regPortMap j).groupIds ≠ [] ∧ k.list = false) ∧
      (∀ id ∈ (s.regPortMap j).groupIds, s.groups.Nameable id) ∧
      ns = (s.regPortMap j).groupIds.map fun id => orNoName (s.groups.nameNow id) := by
  rw [regKeys] at hkey
  rw [casVerifyTokenNames, hj, ok_bind, if_neg (not_not.mpr hkey), idSlot, nameNow]
  by_cases hid : (s.regPortMap j).userId.toNat < groupIdMax
  · rw [if_pos hid, ok_bind]
    cases hmap : s.groups.groupIdMap (s.regPortMap j).userId with
    | none => simp
    | some a =>
      cases hheap : s.groups.heap a with
      | none => simp [deref, hheap]
      | some r =>
        simp only [deref, hheap, ok_bind, bind_some, map_some, some.injEq]
        split_ifs with hlist
        · simp [hlist]
        · simp only [bind_eq_ok, mapM_nameOf_eq_ok, ok.injEq, Prod.mk.injEq, true_and]
          constructor
          · rintro ⟨_, ⟨hids, rfl⟩, rfl, rfl⟩
            exact ⟨hid, rfl, hlist, hids, rfl⟩
          · rintro ⟨-, rfl, -, hids, rfl⟩
            exact ⟨_, ⟨hids, rfl⟩, rfl, rfl⟩
  · simp [hid]

end

theorem casVerifyTokenNames_null (hj : hashPort s.regKeys machPortNull = .ok j)
    (hkey : s.regKeys j = machPortNull) (hids : (s.regPortMap j).groupIds = []) :
    (∃ ret n ns, ret ≠ .success ∧ s.casVerifyTokenNames k machPortNull = .ok (ret, n, ns)) ↔
      (s.regPortMap j).userId.toNat < groupIdMax ∧
        s.groups.groupIdMap (s.regPortMap j).userId = none := by
  rw [regKeys] at hkey
  rw [casVerifyTokenNames, hj, ok_bind, if_neg (not_not.mpr hkey), idSlot, hids]
  by_cases hid : (s.regPortMap j).userId.toNat < groupIdMax
  · rw [if_pos hid, ok_bind]
    cases hmap : s.groups.groupIdMap (s.regPortMap j).userId with
    | none => simp [hid]
    | some a =>
      cases hheap : s.groups.heap a with
      | none => simp [deref, hheap]
      | some r => simp [deref, hheap]
  · simp [hid]

end Server

namespace PortInv

variable {s : Server} {l : Ledger} {t : Port}

theorem token_slot (h : PortInv s l) {e : Registration} (he : l.tokens t = some e) :
    ∃ j, hashPort s.regKeys t = .ok j ∧ s.regKeys j = t ∧ (s.regPortMap j).userId = e.userId ∧
      (s.regPortMap j).groupIds = e.groupIds := by
  obtain ⟨j, hj, hkey, -, huser, hids⟩ := h.reg.find_live he
  exact ⟨j, regLayout_find.mp hj, hkey, huser.symm, hids.symm⟩

theorem token_miss (h : PortInv s l) (ht : t ≠ machPortNull) (hl : l.tokens t = none)
    {j : Fin portMapMax} (hj : hashPort s.regKeys t = .ok j) : s.regKeys j ≠ t := by
  intro hkey
  exact ht (hkey.symm.trans (h.reg.find_absent ht hl (regLayout_find.mpr hj)).1)

theorem null_slot {j : Fin portMapMax} (hj : hashPort s.regKeys machPortNull = .ok j) :
    s.regKeys j = machPortNull :=
  (probe_stops (hashPort_eq_ok.mp hj)).1.elim id id

theorem probe_empty (h : PortInv s l) (ht : t ≠ machPortNull) (hl : l.tokens t = none) :
    (∃ j, hashPort s.regKeys t = .ok j) ↔ ∃ j, s.regKeys j = machPortNull := by
  constructor
  · rintro ⟨j, hj⟩
    exact ⟨j, (h.reg.find_absent ht hl (regLayout_find.mpr hj)).1⟩
  · rintro ⟨j, hj⟩
    obtain ⟨i, hi⟩ : ∃ i, probe s.regKeys machPortNull (hashHome t) t = some i :=
      probe_isSome (Or.inr hj)
    exact ⟨i, hashPort_eq_ok.mpr hi⟩

theorem idsAuthentic_iff (h : PortInv s l) (t : Port) :
    s.IdsAuthentic l t ↔
      t ≠ machPortNull ∧ ((l.tokens t).isSome = true ∨ ∃ j, s.regKeys j = machPortNull) := by
  rw [Server.IdsAuthentic]
  cases he : l.tokens t with
  | some e =>
    obtain ⟨j, hj, hkey, huser, hids⟩ := h.token_slot he
    have ht : t ≠ machPortNull := (h.reg.slot t e he).1
    simp only [Server.casVerifyTokenIds_hit hj hkey, ht, ne_eq, not_false_eq_true,
      isSome_some, true_or, and_self, iff_true, ok.injEq, Prod.mk.injEq, true_and]
    rintro u ids ⟨rfl, rfl⟩
    exact ⟨huser, hids⟩
  | none =>
    simp only [isSome_none, Bool.false_eq_true, false_or]
    constructor
    · rintro ⟨ret, u, ids, hret, hv⟩
      obtain ⟨j, hj, hv'⟩ := bind_eq_ok.mp hv
      have hkey : s.regKeys j ≠ t := by
        intro hkey
        rw [Server.casVerifyTokenIds_hit hj hkey] at hv
        exact hret (Prod.mk.inj (ok.inj hv)).1.symm
      have ht : t ≠ machPortNull := by
        rintro rfl
        exact hkey (null_slot hj)
      exact ⟨ht, (h.probe_empty ht he).mp ⟨j, hj⟩⟩
    · rintro ⟨ht, hempty⟩
      obtain ⟨j, hj⟩ := (h.probe_empty ht he).mpr hempty
      exact ⟨_, _, _, by decide, Server.casVerifyTokenIds_miss hj (h.token_miss ht he hj)⟩

theorem namesAuthentic_live (h : PortInv s l) (k : Kernel) {e : Registration}
    (he : l.tokens t = some e) :
    s.NamesAuthentic k l t ↔ s.NamesRefused k e ∨ s.NamesKept e := by
  obtain ⟨j, hj, hkey, huser, hids⟩ := h.token_slot he
  rw [Server.NamesAuthentic, he]
  simp only [Server.casVerifyTokenNames_hit hj hkey, huser, hids]
  constructor
  · intro hall
    by_cases href : s.NamesRefused k e
    · exact Or.inl href
    · obtain ⟨huser', hrest⟩ := not_or.mp href
      obtain ⟨hlist, hname⟩ := not_or.mp hrest
      obtain ⟨hid, hsome⟩ := not_not.mp huser'
      obtain ⟨n, hn⟩ := isSome_iff_exists.mp hsome
      have hname' : ∀ id ∈ e.groupIds, s.groups.Nameable id := by
        intro id hmem
        by_contra hno
        exact hname ⟨id, hmem, hno⟩
      obtain ⟨hu, hns⟩ := hall n _ ⟨hid, hn, hlist, hname', rfl⟩
      exact Or.inr ⟨hn.trans hu, hns⟩
  · rintro (href | ⟨hu, hns⟩) n ns ⟨hid, hn, hlist, hname, rfl⟩
    · rcases href with hgone | hlist' | ⟨id, hmem, hno⟩
      · exact absurd ⟨hid, by rw [hn]; rfl⟩ hgone
      · exact absurd hlist' hlist
      · exact absurd (hname id hmem) hno
    · exact ⟨hn.symm.trans hu, hns⟩

theorem namesAuthentic_absent (h : PortInv s l) (k : Kernel) (he : l.tokens t = none) :
    s.NamesAuthentic k l t ↔ t = machPortNull ∧ s.NullUnknown := by
  rw [Server.NamesAuthentic, he]
  constructor
  · intro hall
    obtain ⟨ret, n, ns, hret, hv⟩ := hall
    obtain ⟨j, hj, hv'⟩ := bind_eq_ok.mp hv
    have ht : t = machPortNull := by
      by_contra ht
      rw [Server.casVerifyTokenNames_miss hj (h.token_miss ht he hj)] at hv
      exact hret (Prod.mk.inj (ok.inj hv)).1.symm
    subst ht
    have hids := (h.reg.empty j (null_slot hj)).2
    exact ⟨rfl, j, hj,
      (Server.casVerifyTokenNames_null hj (null_slot hj) hids).mp ⟨ret, n, ns, hret, hv⟩⟩
  · rintro ⟨rfl, j, hj, hunknown⟩
    have hids := (h.reg.empty j (null_slot hj)).2
    exact (Server.casVerifyTokenNames_null hj (null_slot hj) hids).mpr hunknown

end PortInv

theorem token_authenticity_iff (g : Groups) (s : Server) (l : Ledger)
    (hrun : ReflTransGen (Under next Op.Chained) (Server.boot g, empty)
      (s, l)) (k : Kernel) (t : Port) :
    (s.IdsAuthentic l t ↔
      t ≠ machPortNull ∧ ((l.tokens t).isSome = true ∨ ∃ j, s.regKeys j = machPortNull)) ∧
    (s.NamesAuthentic k l t ↔
      (∃ e, l.tokens t = some e ∧ (s.NamesRefused k e ∨ s.NamesKept e)) ∨
        (t = machPortNull ∧ s.NullUnknown)) := by
  have h : PortInv s l := PortInv.run hrun (portInv_boot g)
  refine ⟨h.idsAuthentic_iff t, ?_⟩
  cases he : l.tokens t with
  | none => simpa using h.namesAuthentic_absent k he
  | some e =>
    have ht : t ≠ machPortNull := (h.reg.slot t e he).1
    simpa [ht] using h.namesAuthentic_live k he

theorem token_authenticity_iff_plainSessions : ∃ s l,
    exec next (Sample.server, empty) Sample.plainSessions = some (s, l) ∧
    (s.IdsAuthentic l 0x700 ↔ (0x700 : Port) ≠ machPortNull ∧
      ((l.tokens 0x700).isSome = true ∨ ∃ j, s.regKeys j = machPortNull)) ∧
    (s.NamesAuthentic (Sample.kernel 20) l 0x700 ↔
      (∃ e, l.tokens 0x700 = some e ∧ (s.NamesRefused (Sample.kernel 20) e ∨ s.NamesKept e)) ∨
        ((0x700 : Port) = machPortNull ∧ s.NullUnknown)) := by
  obtain ⟨s, l, hrun, hadmits, -⟩ := Sample.plainSessions_state
  exact ⟨s, l, hrun, token_authenticity_iff Sample.groups s l
    (run_of_exec hadmits hrun) (Sample.kernel 20) 0x700⟩

theorem unregistered_ports_verify : ∃ s l,
    ReflTransGen (Under next Free) (Sample.server, empty) (s, l) ∧
    s.casVerifyTokenIds machPortNull = .ok (.success, 0, []) ∧
    s.casVerifyTokenNames (Sample.kernel 20) 9 = .ok (.success, Server.noName, []) ∧
    ¬s.IdsAuthentic l machPortNull ∧ ¬s.NamesAuthentic (Sample.kernel 20) l 9 := by
  have hids : Sample.server.casVerifyTokenIds machPortNull = .ok (.success, 0, []) := by
    decide +kernel
  have hnames : Sample.server.casVerifyTokenNames (Sample.kernel 20) 9 =
      .ok (.success, Server.noName, []) := by
    decide +kernel
  refine ⟨Sample.server, empty, .refl, hids, hnames, ?_, ?_⟩
  · rintro ⟨ret, u, ids, hret, hv⟩
    rw [hids] at hv
    exact hret (Prod.mk.inj (ok.inj hv)).1.symm
  · rintro ⟨ret, n, ns, hret, hv⟩
    rw [hnames] at hv
    exact hret (Prod.mk.inj (ok.inj hv)).1.symm

end MachUS.Auth
