import MachUS.Auth.Bounds
import MachUS.Auth.GroupStore

namespace MachUS.Auth

open Text Groups Server List Transition Except

structure Translation where
  ownerId : GroupId
  groupId : GroupId
  groupType : Option GroupType
  groupName : GroupName
  fullName : FullName

namespace Translation

def missing (groupId : GroupId) (groupName : GroupName) : Translation where
  ownerId := nullId
  groupId := groupId
  groupType := none
  groupName := groupName
  fullName := CString.empty (by decide)

def found (r : GroupRecord) : Translation where
  ownerId := r.ownerId
  groupId := r.groupId
  groupType := some r.groupType
  groupName := r.groupName
  fullName := r.fullName

end Translation

namespace Server

def casTranslateGroupId (s : Server) (groupId : GroupId) : Outcome (Ret × Translation) := do
  match ← s.groups.idSlot groupId with
  | none => .ok (.badGroup, .missing groupId noName)
  | some a => do
    let r ← s.groups.deref a
    .ok (.success, .found r)

def casTranslateGroupName (s : Server) (groupName : GroupName) : Outcome (Ret × Translation) := do
  match ← s.groups.lookupName (toLower groupName) with
  | none => .ok (.badGroup, .missing nullId (toLower groupName))
  | some a => do
    let r ← s.groups.deref a
    .ok (.success, .found r)

def casList (dir : Direction) (k : Kernel) (s : Server) (groupName : GroupName)
    (transClosure : Bool) : Outcome (Ret × List GroupId) := do
  match ← s.groups.lookupName (toLower groupName) with
  | none => .ok (.badGroup, [])
  | some a => do
    let r ← s.groups.deref a
    if transClosure then do
      let ids ← s.groups.fillClosure k dir r
      .ok (.success, ids)
    else if k.list = false then .ok (.failure, [])
    else .ok (.success, dir.next r)

def casListMembers : Kernel → Server → GroupName → Bool → Outcome (Ret × List GroupId) :=
  casList .members

def casListMemberships : Kernel → Server → GroupName → Bool → Outcome (Ret × List GroupId) :=
  casList .memberships

def casListAllGroups (k : Kernel) (s : Server) : Ret × List GroupId :=
  if k.list = false then (.failure, [])
  else
    (.success, ((range groupIdMax).map UInt32.ofNat).filter fun i =>
      (s.groups.groupIdMap i).isSome)

end Server

inductive Call where
  | perform (op : Op)
  | verifyTokenIds (token : Port)
  | verifyTokenNames (token : Port)
  | translateGroupId (groupId : GroupId)
  | translateGroupName (groupName : GroupName)
  | listMembers (groupName : GroupName) (transClosure : Bool)
  | listMemberships (groupName : GroupName) (transClosure : Bool)
  | listAllGroups
  | handlePortDeath (deadPort : Port)

def asking {α : Type} (s : Server) (x : Outcome (Ret × α)) : Outcome (Ret × Server) :=
  x.map fun done => (done.1, s)

def Server.serve (k : Kernel) (s : Server) : Call → Outcome (Ret × Server)
  | .perform op => s.step k op
  | .verifyTokenIds t => asking s (s.casVerifyTokenIds t)
  | .verifyTokenNames t => asking s (s.casVerifyTokenNames k t)
  | .translateGroupId id => asking s (s.casTranslateGroupId id)
  | .translateGroupName n => asking s (s.casTranslateGroupName n)
  | .listMembers n c => asking s (s.casListMembers k n c)
  | .listMemberships n c => asking s (s.casListMemberships k n c)
  | .listAllGroups => .ok ((s.casListAllGroups k).1, s)
  | .handlePortDeath p => (s.casHandlePortDeath k p).map fun s => (.success, s)

def Server.served (s : Server) (e : Kernel × Call) : Option Server :=
  (s.serve e.1 e.2).toOption.map Prod.snd

-- The ids a call is given. cas_create_group with NULL_ID asks for one.
def Op.ids : Op → List GroupId
  | .loginPriv _ u _ => [u]
  | .loginCreate _ ids _ => ids
  | .registerToken _ ids _ _ => ids
  | .createGroup _ _ _ _ _ _ id => if id = nullId then [] else [id]
  | _ => []

def Call.ids : Call → List GroupId
  | .perform op => op.ids
  | .translateGroupId id => [id]
  | _ => []

def InRange (id : GroupId) : Prop := id.toNat < groupIdMax

instance (id : GroupId) : Decidable (InRange id) :=
  inferInstanceAs (Decidable (id.toNat < groupIdMax))

structure BoundsIds (s : Server) (e : Kernel × Call) : Prop where
  inside : Outcome.Avoids .groupIdRange (s.serve e.1 e.2)
  refused : ∀ id ∈ e.2.ids, ¬InRange id → ∀ ret s', s.serve e.1 e.2 = .ok (ret, s') →
    ret ≠ .success ∧ s' = s

def Server.AsksForId (s : Server) (p : Port) (n : GroupName) (ty : GroupType) (o : GroupName) :
    Prop :=
  ∃ i a c owner, s.Bound p i a ∧ s.groups.heap a = some c ∧
    (ty = asPrimary → checkForMembership sysAdmId c = true) ∧
    s.ownerOf c (toLower n) (toLower o) = .ok (.ok owner) ∧
    s.groups.lookupName (toLower n) = .ok none

def Server.Trusts (s : Server) (p : Port) (create : Bool) : Prop :=
  ∃ i a r, s.Bound p i a ∧ s.groups.heap a = some r ∧
    (create = true ∨ checkForMembership sysAdmId r = false)

def Op.IdsChecked (s : Server) : Op → Prop
  | .loginCreate p ids _ => s.Administrator p → ∀ id ∈ ids, InRange id
  | .registerToken p ids _ create => s.Trusts p create → ∀ id ∈ ids, InRange id
  | .createGroup p n ty _ _ o id => s.AsksForId p n ty o → id = nullId ∨ InRange id
  | _ => True

-- MACH_PORT_NULL is not asked for where its probe ends on the slot of a deleted token.
def Call.IdsChecked (s : Server) : Call → Prop
  | .perform op => op.IdsChecked s
  | .translateGroupId id => InRange id
  | .verifyTokenNames t =>
    t = machPortNull → ∀ j, hashPort s.regKeys t = .ok j → (s.regPortMap j).userId ≠ nullId
  | _ => True

def Server.IdsChecked (s : Server) (e : Kernel × Call) : Prop := e.2.IdsChecked s

structure BoundedRecord (r : GroupRecord) : Prop where
  groupId : InRange r.groupId
  lists : ∀ dir, ∀ id ∈ Direction.next dir r, InRange id
  cache : ∀ id ∈ r.trMemberships, InRange id

theorem BoundedRecord.recached {r r' : GroupRecord} (hr : BoundedRecord r)
    (hid : r'.groupId = r.groupId) (hlists : ∀ dir, Direction.next dir r' = Direction.next dir r)
    (hcache : ∀ id ∈ r'.trMemberships, InRange id) : BoundedRecord r' := by
  refine ⟨hid ▸ hr.groupId, fun dir id h => ?_, hcache⟩
  rw [hlists dir] at h
  exact hr.lists dir id h

def Groups.Bounded (g : Groups) : Prop := ∀ a r, g.heap a = some r → BoundedRecord r

structure BoundedSlot (e : RegSlot) : Prop where
  groupIds : ∀ id ∈ e.groupIds, InRange id
  userId : InRange e.userId ∨ (e.mappedPort = machPortNull ∧ e.userId = nullId)

structure Server.Bounded (s : Server) : Prop where
  groups : s.groups.Bounded
  tokens : ∀ j, BoundedSlot (s.regPortMap j)

theorem inRange_of_lookupId {g : Groups} {id : GroupId} {a : Addr} (h : g.lookupId id = some a) :
    InRange id := by
  by_contra hid
  rw [lookupId, if_neg (show ¬id.toNat < groupIdMax from hid)] at h
  cases h

abbrev Inside {α : Type} (P : α → Prop) (x : Outcome α) : Prop := Outcome.Yields .groupIdRange P x

theorem mapped : Trap.groupIdRange ∉ textTraps := by decide

namespace Inside

open Outcome Outcome.Yields

variable {α : Type} {k : Kernel} {g : Groups} {s : Server} {id : GroupId}

theorem idSlot (h : InRange id) : Avoids .groupIdRange (g.idSlot id) :=
  Avoids.ite_iff.mpr ⟨fun _ => Avoids.ok _, fun hid => absurd h hid⟩

variable {r : GroupRecord} {a : Addr}

theorem setRecord (hg : g.Bounded) (hr : BoundedRecord r) : (g.setRecord a r).Bounded := by
  intro b x hx
  by_cases hb : b = a
  · subst hb
    rw [setRecord_heap_self] at hx
    exact Option.some.inj hx ▸ hr
  · rw [setRecord_heap_of_ne g r hb] at hx
    exact hg b x hx

variable {dir : Direction}

theorem put (hr : BoundedRecord r) {l : List GroupId}
    (hl : ∀ id ∈ l, InRange id) : BoundedRecord (dir.put l r) := by
  cases dir with
  | memberships =>
    refine ⟨hr.groupId, fun dir => ?_, hr.cache⟩
    cases dir with
    | memberships => exact hl
    | members => exact hr.lists .members
  | members =>
    refine ⟨hr.groupId, fun dir => ?_, hr.cache⟩
    cases dir with
    | memberships => exact hr.lists .memberships
    | members => exact hl

section

variable (hg : g.Bounded)

include hg

theorem enterName : Inside (fun g' => g'.Bounded) (g.enterName k a) := by
  refine ⟨avoids_enterName mapped k g a, fun g' h => ?_⟩
  intro b r hr
  rw [(SameRecords.enterName h).heap] at hr
  exact hg b r hr

theorem deleteName {name : Bytes} : Inside (fun g' => g'.Bounded) (g.deleteName k name) := by
  refine ⟨avoids_deleteName mapped k g name, fun g' h => ?_⟩
  intro b r hr
  rw [(SameRecords.deleteName h).heap] at hr
  exact hg b r hr

theorem mapRecord (hr : BoundedRecord r) : (g.mapRecord a r).Bounded := setRecord hg hr

theorem appendTo (hid : InRange id) : Inside (fun g' => g'.Bounded) (appendTo dir g a id) := by
  refine after (avoids_deref mapped g a) fun r hr => ite (fun _ => ok ?_) fun _ => error (by decide)
  have hrec := hg a r (deref_eq_ok.mp hr)
  refine setRecord hg (put hrec fun x hx => ?_)
  rcases mem_append.mp hx with hx | hx
  · exact hrec.lists dir x hx
  · exact mem_singleton.mp hx ▸ hid

theorem dropFrom : Inside (fun g' => g'.Bounded) (dropFrom dir g a id) := by
  refine after (avoids_deref mapped g a) fun r hr => ok ?_
  have hrec := hg a r (deref_eq_ok.mp hr)
  refine setRecord hg (put hrec fun x hx => hrec.lists dir x ?_)
  exact mem_of_mem_erase ((deleteFromList_perm _ _).mem_iff.mp hx)

end

variable {ms : List GroupId}

theorem dropEach (hg : g.Bounded)
    (hms : ∀ m ∈ ms, InRange m) : Inside (fun g' => g'.Bounded) (dropEach dir g id ms) := by
  induction ms generalizing g with
  | nil => exact ok hg
  | cons m ms ih =>
    have hrest : ∀ m ∈ ms, InRange m := fun x hx => hms x (mem_cons_of_mem m hx)
    refine after (idSlot (hms m mem_cons_self)) fun o _ => ?_
    cases o with
    | none => exact ih hg hrest
    | some b => exact bind (dropFrom hg) fun g₁ hg₁ => ih hg₁ hrest

theorem removeGroup (hg : g.Bounded) (a : Addr) :
    Inside (fun g' => g'.Bounded) (g.removeGroup k a) := by
  refine after (avoids_deref mapped g a) fun r hr => ?_
  have hrec := hg a r (deref_eq_ok.mp hr)
  refine bind (dropEach hg (hrec.lists .memberships)) fun g₁ hg₁ => ?_
  refine after (avoids_deref mapped g₁ a) fun r₁ hr₁ => ?_
  have hrec₁ := hg₁ a r₁ (deref_eq_ok.mp hr₁)
  refine bind (dropEach hg₁ (hrec₁.lists .members)) fun g₂ hg₂ => ?_
  refine bind (deleteName hg₂) fun g₃ hg₃ => after (idSlot hrec₁.groupId) fun _ _ => ok ?_
  intro b x hx
  by_cases hb : b = a
  · subst hb
    dsimp only at hx
    rw [Function.update_self] at hx
    cases hx
  · dsimp only at hx
    rw [Function.update_of_ne hb] at hx
    exact hg₃ b x hx

theorem casCreateGroupRec (hg : g.Bounded) {i : ℕ}
    {isUser : Bool} (hid : InRange id) (hms : ∀ m ∈ ms, InRange m) :
    Inside (fun done => done.2.Bounded) (g.casCreateGroupRec k i id ms isUser) := by
  rw [Groups.casCreateGroupRec]
  cases k.record i with
  | none => exact ok hg
  | some a =>
    refine ite (fun _ => error (by decide)) fun _ => after (avoids_sprintf mapped _ _ _) fun _ _ =>
      after (avoids_sprintf mapped _ _ _) fun _ _ => after (avoids_sprintf mapped _ _ _) fun _ _ =>
      after (idSlot hid) fun _ _ => after (avoids_encryptPassword mapped _) fun _ _ =>
      ite (fun _ => error (by decide)) fun _ => ?_
    refine bind (enterName (mapRecord hg ⟨hid, fun dir => ?_, by simp⟩)) fun g' hg' => ok hg'
    cases dir with
    | memberships => exact fun m hm => hms m (mem_of_mem_drop hm)
    | members => exact fun m hm => by cases hm

theorem findOrCreate (hg : g.Bounded) {i : ℕ} {isUser : Bool}
    (hid : InRange id) (hms : ∀ m ∈ ms, InRange m) :
    Inside (fun done => done.2.Bounded) (g.findOrCreate k i id ms isUser) := by
  rw [Groups.findOrCreate]
  cases g.lookupId id with
  | some a => exact ok hg
  | none => exact casCreateGroupRec hg hid hms

variable {ids : List GroupId}

theorem admitGroups (hg : g.Bounded) {create : Bool} {i : ℕ}
    (hids : create = true → ∀ id ∈ ids, InRange id) :
    Inside (fun done => done.2.Bounded) (Groups.admitGroups k create i ids g) := by
  induction ids generalizing i g with
  | nil => exact ok hg
  | cons id ids ih =>
    have hrest (hcreate : create = true) : ∀ x ∈ ids, InRange x := fun x hx =>
      hids hcreate x (mem_cons_of_mem id hx)
    rw [Groups.admitGroups]
    cases g.lookupId id with
    | some a => exact ih hg hrest
    | none =>
      refine ite (fun _ => ok hg) fun hcreate => ?_
      have hid := hids (by simpa using hcreate) id mem_cons_self
      refine bind (casCreateGroupRec hg hid (by simp)) fun done hdone => ?_
      obtain ⟨o, g₁⟩ := done
      cases o with
      | none => exact ok hdone
      | some a => exact ih hdone hrest

theorem admitGroups_known {i : ℕ} {b : Bool} {g' : Groups}
    (h : Groups.admitGroups k false i ids g = .ok (b, g')) :
    g' = g ∧ (b = true → ∀ id ∈ ids, InRange id) := by
  induction ids generalizing i with
  | nil =>
    cases ok.inj h
    exact ⟨rfl, by simp⟩
  | cons id ids ih =>
    rw [Groups.admitGroups] at h
    cases hid : g.lookupId id with
    | none =>
      rw [hid] at h
      rw [if_pos rfl] at h
      cases ok.inj h
      exact ⟨rfl, by simp⟩
    | some a =>
      rw [hid] at h
      obtain ⟨hg, hrest⟩ := ih h
      refine ⟨hg, fun hb x hx => ?_⟩
      rcases mem_cons.mp hx with rfl | hx
      · exact inRange_of_lookupId hid
      · exact hrest hb x hx

theorem onTrMemberships (r : GroupRecord) (ids : List GroupId) :
    Avoids .groupIdRange (onTrMemberships k r ids) := by
  induction ids with
  | nil => exact Avoids.ok _
  | cons id ids ih =>
    refine Avoids.ite_iff.mpr ⟨fun _ => ?_, fun _ => ih⟩
    cases k.stray id with
    | none => exact Avoids.error_iff.mpr (by decide)
    | some b =>
      cases b with
      | false => exact Avoids.ok _
      | true => exact ih

theorem admitToken (hg : g.Bounded) {create : Bool}
    (hids : create = true → ∀ id ∈ ids, InRange id) :
    Inside (fun done => done.2.Bounded) (Server.admitToken k g r ids create) :=
  ite (fun _ => ok hg) fun _ => ite (fun _ => admitGroups hg hids) fun _ =>
    after (onTrMemberships r ids) fun _ _ => ok hg

theorem doRecursiveSearch (hg : g.Bounded) {depth : ℕ}
    {acc : Search} (hid : InRange id) (hacc : ∀ x ∈ acc.groupIds, InRange x) :
    Inside (fun found => ∀ x ∈ found.groupIds, InRange x)
      (g.doRecursiveSearch dir depth id acc) := by
  induction depth generalizing id acc with
  | zero => exact error (by decide)
  | succ depth ih =>
    refine after (idSlot hid) fun o _ => ?_
    cases o with
    | none => exact ok hacc
    | some a =>
      refine after (avoids_deref mapped g a) fun r hr => ite (fun _ => ok hacc) fun _ => ?_
      have hrec := hg a r (deref_eq_ok.mp hr)
      refine foldlM (fun found m hm hfound => ih (hrec.lists dir m hm) hfound) fun x hx => ?_
      rcases mem_append.mp hx with hx | hx
      · exact hacc x hx
      · exact mem_singleton.mp hx ▸ hid

theorem fillClosure (hg : g.Bounded) (hr : BoundedRecord r) :
    Inside (fun ids => ∀ id ∈ ids, InRange id) (g.fillClosure k dir r) := by
  have hsearch : Inside (fun found : Search => ∀ x ∈ found.groupIds, InRange x)
      (foldlM (fun s m => g.doRecursiveSearch dir (groupIdMax + 1) m s) ⟨[], []⟩ (dir.next r)) :=
    foldlM (fun found m hm hfound => doRecursiveSearch hg (hr.lists dir m hm) hfound) (by simp)
  exact bind (bind hsearch fun found hfound => ok hfound) fun ids hids =>
    ite (fun _ => ok hids) fun _ => error (by decide)

section Calls

variable (hs : s.Bounded)

theorem asCaller {P : α → Prop} {p : Port} {refused : α} {body : Fin portMapMax → Addr → Outcome α}
    (hrefused : P refused) (h : ∀ i a, s.Bound p i a → Inside P (body i a)) :
    Inside P (s.asCaller p refused body) := by
  refine ite (fun _ => ok hrefused) fun hp => after (avoids_hashPort mapped _ _) fun i hi => ?_
  cases hr : (s.privPortMap i).record with
  | none => exact ok hrefused
  | some a => exact h i a ⟨hp, hi, hr⟩

abbrev Serves (x : Outcome (Ret × Server)) : Prop := Inside (fun done => done.2.Bounded) x

include hs

theorem withGroups (hg : g.Bounded) : (s.withGroups g).Bounded := ⟨hg, hs.tokens⟩

theorem setReg {j : Fin portMapMax} {e : RegSlot} (he : BoundedSlot e) :
    (s.setReg j e).Bounded := by
  refine ⟨hs.groups, fun i => ?_⟩
  by_cases hi : i = j
  · subst hi
    rw [Server.setReg]
    dsimp only
    rwa [Function.update_self]
  · rw [Server.setReg]
    dsimp only
    rw [Function.update_of_ne hi]
    exact hs.tokens i

theorem openSession (a : Addr) (p : Port) : Serves (s.openSession k a p) := by
  refine after (avoids_deref mapped _ _) fun r hr => ite (fun _ => ok hs) fun _ => ?_
  have hrec := hs.groups a r (deref_eq_ok.mp hr)
  refine bind (fillClosure hs.groups hrec) fun ids hids =>
    after (avoids_hashPort mapped _ _) fun i _ => ok ?_
  exact ⟨setRecord hs.groups (hrec.recached rfl (fun dir => by cases dir <;> rfl) hids), hs.tokens⟩

theorem casLogin (u : GroupName) (w : PassWord) (p : Port) : Serves (s.casLogin k u w p) := by
  refine after (avoids_lookupName mapped _ _) fun o _ => ?_
  cases o with
  | none => exact ok hs
  | some a =>
    exact after (avoids_deref mapped _ _) fun r _ => ite (fun _ => ok hs) fun _ =>
      after (avoids_encryptPassword mapped _) fun _ _ => ite (fun _ => ok hs) fun _ =>
      openSession hs a p

theorem casLoginPriv (p : Port) (u : GroupId) (q : Port) : Serves (s.casLoginPriv k p u q) := by
  refine asCaller hs fun _ _ _ => after (avoids_deref mapped _ _) fun _ _ =>
    ite (fun _ => ok hs) fun _ => ?_
  cases s.groups.lookupId u with
  | none => exact ok hs
  | some a => exact openSession hs a q

theorem casLoginCreate {p q : Port}
    (hids : s.Administrator p → ∀ id ∈ ids, InRange id) : Serves (s.casLoginCreate k p ids q) := by
  refine asCaller hs fun i a hb => after (avoids_deref mapped _ _) fun c hc =>
    ite (fun _ => ok hs) fun hadm => ?_
  have hall := hids ⟨i, a, c, hb, deref_eq_ok.mp hc, by simpa using hadm⟩
  cases ids with
  | nil => exact error (by decide)
  | cons user rest =>
    refine bind (findOrCreate hs.groups (hall user mem_cons_self) hall) fun done hdone => ?_
    obtain ⟨o, g₁⟩ := done
    cases o with
    | none => exact ok (withGroups hs hdone)
    | some login =>
      cases rest with
      | nil => exact error (by decide)
      | cons group rest =>
        have hgroup : InRange group := hall group (by simp)
        refine bind (findOrCreate hdone hgroup (by simp)) fun done hdone => ?_
        obtain ⟨o, g₂⟩ := done
        cases o with
        | none => exact ok (withGroups hs hdone)
        | some other => exact openSession (withGroups hs hdone) login q

theorem casLogout (p : Port) : Serves (s.casLogout p) := by
  refine asCaller hs fun i a _ => after (avoids_deref mapped _ _) fun r hr => ok ?_
  have hrec := hs.groups a r (deref_eq_ok.mp hr)
  refine ⟨setRecord hs.groups (hrec.recached rfl (fun dir => by cases dir <;> rfl) (by simp)),
    fun j => ?_⟩
  rw [logoutState]
  dsimp only
  split_ifs
  · exact ⟨by simp [RegSlot.blank], Or.inr ⟨rfl, rfl⟩⟩
  · exact hs.tokens j

theorem casRegisterToken {p t : Port} {create : Bool}
    (hids : s.Trusts p create → ∀ id ∈ ids, InRange id) :
    Serves (s.casRegisterToken k p ids t create) := by
  refine asCaller hs fun i a hb => after (avoids_deref mapped _ _) fun r hr => ?_
  rw [deref_eq_ok] at hr
  have hrec := hs.groups a r hr
  have hchecked := admitToken (k := k) (r := r) hs.groups
    fun hcreate => hids ⟨i, a, r, hb, hr, Or.inl hcreate⟩
  refine after hchecked.1 fun done hdone => ?_
  have hg : done.2.Bounded := hchecked.2 done hdone
  obtain ⟨b, g⟩ := done
  cases b with
  | false => exact ok (withGroups hs hg)
  | true =>
    have hentry : ∀ id ∈ (if ids = [] then r.trMemberships else ids), InRange id := by
      split_ifs with hnil
      · exact hrec.cache
      · by_cases htrusts : s.Trusts p create
        · exact hids htrusts
        · have hneither := fun h => htrusts ⟨i, a, r, hb, hr, h⟩
          have hcreate : create = false := by simpa using fun h => hneither (Or.inl h)
          have hadmin : checkForMembership sysAdmId r = true := by
            simpa using fun h => hneither (Or.inr h)
          subst hcreate
          rw [Server.admitToken, if_neg hnil, if_pos (by simp [hadmin])] at hdone
          exact (admitGroups_known hdone).2 rfl
    refine after (avoids_hashPort mapped _ _) fun j _ => ite (fun _ => ok ?_) fun _ => ok ?_
    · exact setReg (withGroups hs hg) ⟨by simp, (hs.tokens j).userId⟩
    · exact setReg (withGroups hs hg) ⟨hentry, Or.inl hrec.groupId⟩

theorem casDeleteToken (p t : Port) : Serves (s.casDeleteToken k p t) :=
  asCaller hs fun _ _ _ => after (avoids_hashPort mapped _ _) fun _ _ => ite (fun _ => ok hs)
    fun _ => ok (setReg hs ⟨by simp [RegSlot.blank], Or.inr ⟨rfl, rfl⟩⟩)

omit hs in
theorem ownerOf (c : GroupRecord) (n o : GroupName) : Avoids .groupIdRange (s.ownerOf c n o) := by
  refine Avoids.ite_iff.mpr ⟨fun _ => Avoids.ok _, fun _ => ?_⟩
  refine bind_ne_error (avoids_lookupName mapped _ _) fun x _ => ?_
  cases x with
  | none => exact Avoids.ok _
  | some a =>
    exact bind_ne_error (avoids_deref mapped _ _) fun _ _ =>
      Avoids.ite_iff.mpr ⟨fun _ => Avoids.ok _, fun _ => Avoids.ok _⟩

omit hs in
theorem chooseId {id : GroupId} (h : id = nullId ∨ InRange id) :
    Avoids .groupIdRange (g.chooseId id) := by
  refine Avoids.ite_iff.mpr ⟨fun _ => ?_, fun hid => ?_⟩
  · cases g.freeId with
    | none => exact Avoids.ok _
    | some i => exact Avoids.ok _
  · refine bind_ne_error (idSlot (h.resolve_left hid)) fun o _ => ?_
    cases o with
    | none => exact Avoids.ok _
    | some a => exact Avoids.ok _

theorem createRecord (n : GroupName) (ty : GroupType) (f : FullName) (w : PassWord)
    (o : Option GroupId) (hid : InRange id) :
    Inside (fun done => done.2.2.Bounded) (s.createRecord k n ty f w o id) := by
  rw [Server.createRecord]
  cases k.record 0 with
  | none => exact ok hs
  | some a =>
    have hword : Avoids .groupIdRange (storedPassWord ty w) :=
      Avoids.ite_iff.mpr ⟨fun _ => avoids_encryptPassword mapped _, fun _ => Avoids.ok _⟩
    refine ite (fun _ => error (by decide)) fun _ => after hword fun word _ => ?_
    refine bind (P := fun g : Groups => g.Bounded) ?_ fun g hg => ok (withGroups hs hg)
    refine bind (enterName (setRecord hs.groups ⟨hid, fun dir => ?_, by simp⟩)) fun g hg => ok hg
    cases dir <;> simp [Direction.next]

theorem casCreateGroup {p : Port} {n : GroupName} {ty : GroupType} (f : FullName) (w : PassWord)
    {o : GroupName} (hid : s.AsksForId p n ty o → id = nullId ∨ InRange id) :
    Inside (fun done => done.2.2.Bounded) (s.casCreateGroup k p n ty f w o id) := by
  refine asCaller hs fun i a hb => after (avoids_deref mapped _ _) fun c hc =>
    ite (fun _ => ok hs) fun hadm => after (ownerOf _ _ _) fun x hx => ?_
  cases x with
  | error ret => exact ok hs
  | ok owner =>
    refine after (avoids_lookupName mapped _ _) fun y hy => ?_
    cases y with
    | some b => exact ok hs
    | none =>
      have hasks : s.AsksForId p n ty o :=
        ⟨i, a, c, owner, hb, deref_eq_ok.mp hc, fun hty => by simpa [hty] using hadm, hx, hy⟩
      refine after (chooseId (hid hasks)) fun z hz => ?_
      cases z with
      | error ret => exact ok hs
      | ok id => exact createRecord hs _ _ _ _ _ (chooseId_spec hz).2

theorem casDeleteGroup (p : Port) (n : GroupName) : Serves (s.casDeleteGroup k p n) := by
  refine asCaller hs fun _ _ _ => after (avoids_lookupName mapped _ _) fun o _ => ?_
  cases o with
  | none => exact ok hs
  | some a =>
    exact after (avoids_deref mapped _ _) fun _ _ => after (avoids_deref mapped _ _) fun _ _ =>
      ite (fun _ => ok hs) fun _ => bind (removeGroup hs.groups a) fun g hg => ok (withGroups hs hg)

theorem casChangeOwner (p : Port) (n o : GroupName) : Serves (s.casChangeOwner p n o) := by
  refine asCaller hs fun _ _ _ => after (avoids_lookupName mapped _ _) fun x _ => ?_
  cases x with
  | none => exact ok hs
  | some a =>
    refine after (avoids_deref mapped _ _) fun r hr => after (avoids_deref mapped _ _) fun _ _ =>
      ite (fun _ => ok hs) fun _ => after (avoids_lookupName mapped _ _) fun y _ => ?_
    cases y with
    | none => exact ok hs
    | some b =>
      have hrec := hs.groups a r (deref_eq_ok.mp hr)
      refine after (avoids_deref mapped _ _) fun x _ => ok (withGroups hs (setRecord hs.groups ?_))
      exact hrec.recached rfl (fun dir => by cases dir <;> rfl) hrec.cache

theorem casChangePassword (p : Port) (n : GroupName) (w w' : PassWord) :
    Serves (s.casChangePassword p n w w') := by
  refine asCaller hs fun _ _ _ => after (avoids_lookupName mapped _ _) fun x _ => ?_
  cases x with
  | none => exact ok hs
  | some a =>
    refine after (avoids_deref mapped _ _) fun r hr => ite (fun _ => ok hs) fun _ =>
      after (avoids_deref mapped _ _) fun c _ => ?_
    have hrefusal : Avoids .groupIdRange (passWordRefusal c r w) :=
      Avoids.ite_iff.mpr ⟨fun _ => bind_ne_error (avoids_encryptPassword mapped _) fun _ _ =>
        Avoids.ok _, fun _ => Avoids.ok _⟩
    refine after hrefusal fun y _ => ?_
    cases y with
    | some ret => exact ok hs
    | none =>
      have hrec := hs.groups a r (deref_eq_ok.mp hr)
      refine after (avoids_encryptPassword mapped _) fun _ _ =>
        ok (withGroups hs (setRecord hs.groups ?_))
      exact hrec.recached rfl (fun dir => by cases dir <;> rfl) hrec.cache

theorem casAddToGroup (p : Port) (n m : GroupName) : Serves (s.casAddToGroup p n m) := by
  refine asCaller hs fun _ _ _ => after (avoids_lookupName mapped _ _) fun x _ => ?_
  cases x with
  | none => exact ok hs
  | some a =>
    refine after (avoids_deref mapped _ _) fun r hr => ite (fun _ => ok hs) fun _ =>
      after (avoids_lookupName mapped _ _) fun y _ => ?_
    cases y with
    | none => exact ok hs
    | some b =>
      refine after (avoids_deref mapped _ _) fun x hx => after (avoids_deref mapped _ _) fun _ _ =>
        ite (fun _ => ok hs) fun _ => ?_
      have hr := (hs.groups a r (deref_eq_ok.mp hr)).groupId
      have hx := (hs.groups b x (deref_eq_ok.mp hx)).groupId
      exact bind (appendTo hs.groups hx) fun g hg => bind (appendTo hg hr) fun g hg =>
        ok (withGroups hs hg)

theorem casRemoveFromGroup (p : Port) (n m : GroupName) : Serves (s.casRemoveFromGroup p n m) := by
  refine asCaller hs fun _ _ _ => after (avoids_lookupName mapped _ _) fun x _ => ?_
  cases x with
  | none => exact ok hs
  | some a =>
    refine after (avoids_deref mapped _ _) fun r _ => ite (fun _ => ok hs) fun _ =>
      after (avoids_lookupName mapped _ _) fun y _ => ?_
    cases y with
    | none => exact ok hs
    | some b =>
      exact after (avoids_deref mapped _ _) fun _ _ => after (avoids_deref mapped _ _) fun _ _ =>
        ite (fun _ => ok hs) fun _ => bind (dropFrom hs.groups) fun g hg =>
        bind (dropFrom hg) fun g hg => ok (withGroups hs hg)

theorem step {op : Op} (hop : op.IdsChecked s) : Serves (s.step k op) := by
  cases op with
  | login u w p => exact casLogin hs u w p
  | loginPriv p u q => exact casLoginPriv hs p u q
  | loginCreate p ids q => exact casLoginCreate hs hop
  | logout p => exact casLogout hs p
  | registerToken p ids t create => exact casRegisterToken hs hop
  | deleteToken p t => exact casDeleteToken hs p t
  | createGroup p n ty f w o id => exact bind (casCreateGroup hs f w hop) fun _ h => ok h
  | deleteGroup p n => exact casDeleteGroup hs p n
  | changeOwner p n o => exact casChangeOwner hs p n o
  | changePassword p n w w' => exact casChangePassword hs p n w w'
  | addToGroup p n m => exact casAddToGroup hs p n m
  | removeFromGroup p n m => exact casRemoveFromGroup hs p n m

theorem verifyTokenNames {t : Port} (ht : t = machPortNull →
      ∀ j, hashPort s.regKeys t = .ok j → (s.regPortMap j).userId ≠ nullId) :
    Avoids .groupIdRange (s.casVerifyTokenNames k t) := by
  refine bind_ne_error (avoids_hashPort mapped _ _) fun j hj =>
    Avoids.ite_iff.mpr ⟨fun _ => Avoids.ok _, fun hkey => ?_⟩
  have huser : InRange (s.regPortMap j).userId := by
    rcases (hs.tokens j).userId with huser | ⟨hnull, huser⟩
    · exact huser
    · exact absurd huser (ht ((not_not.mp hkey).symm.trans hnull) j hj)
  refine bind_ne_error (idSlot huser) fun o _ => ?_
  cases o with
  | none => exact Avoids.ok _
  | some a =>
    refine bind_ne_error (avoids_deref mapped _ _) fun r _ =>
      Avoids.ite_iff.mpr ⟨fun _ => Avoids.ok _, fun _ => ?_⟩
    refine bind_ne_error (Avoids.mapM fun id hid => ?_) fun names _ => Avoids.ok _
    refine bind_ne_error (idSlot ((hs.tokens j).groupIds id hid)) fun o _ => ?_
    cases o with
    | none => exact Avoids.ok _
    | some b => exact bind_ne_error (avoids_deref mapped _ _) fun _ _ => Avoids.ok _

omit hs in
theorem verifyTokenIds (t : Port) : Avoids .groupIdRange (s.casVerifyTokenIds t) :=
  bind_ne_error (avoids_hashPort mapped _ _) fun _ _ =>
    Avoids.ite_iff.mpr ⟨fun _ => Avoids.ok _, fun _ => Avoids.ok _⟩

omit hs in
theorem translateGroupId {id : GroupId} (hid : InRange id) :
    Avoids .groupIdRange (s.casTranslateGroupId id) := by
  refine bind_ne_error (idSlot hid) fun o _ => ?_
  cases o with
  | none => exact Avoids.ok _
  | some a => exact bind_ne_error (avoids_deref mapped _ _) fun _ _ => Avoids.ok _

omit hs in
theorem translateGroupName (n : GroupName) : Avoids .groupIdRange (s.casTranslateGroupName n) := by
  refine bind_ne_error (avoids_lookupName mapped _ _) fun o _ => ?_
  cases o with
  | none => exact Avoids.ok _
  | some a => exact bind_ne_error (avoids_deref mapped _ _) fun _ _ => Avoids.ok _

theorem list (dir : Direction) (n : GroupName) (transClosure : Bool) :
    Avoids .groupIdRange (s.casList dir k n transClosure) := by
  refine bind_ne_error (avoids_lookupName mapped _ _) fun o _ => ?_
  cases o with
  | none => exact Avoids.ok _
  | some a =>
    refine bind_ne_error (avoids_deref mapped _ _) fun r hr =>
      Avoids.ite_iff.mpr ⟨fun _ => ?_, fun _ => ?_⟩
    · have hrec := hs.groups a r (deref_eq_ok.mp hr)
      exact bind_ne_error (fillClosure hs.groups hrec).1 fun _ _ => Avoids.ok _
    · exact Avoids.ite_iff.mpr ⟨fun _ => Avoids.ok _, fun _ => Avoids.ok _⟩

theorem handlePortDeath (p : Port) : Inside (fun s' => s'.Bounded) (s.casHandlePortDeath k p) := by
  refine after (avoids_hashPort mapped _ _) fun i _ => after (avoids_hashPort mapped _ _) fun j _ =>
    ite (fun _ => ?_) fun _ => ite (fun _ => ?_) fun _ => ok hs
  · exact bind (casLogout hs p) fun done hdone => ok hdone
  · exact bind (casDeleteToken hs _ p) fun done hdone => ok hdone

theorem serve {c : Call} (hc : c.IdsChecked s) : Serves (s.serve k c) := by
  have hasking {β : Type} {x : Outcome (Ret × β)} (hx : Avoids .groupIdRange x) :
      Serves (asking s x) :=
    map ⟨hx, fun _ _ => hs⟩
  cases c with
  | perform op => exact step hs hc
  | verifyTokenIds t => exact hasking (verifyTokenIds t)
  | verifyTokenNames t => exact hasking (verifyTokenNames hs hc)
  | translateGroupId id => exact hasking (translateGroupId hc)
  | translateGroupName n => exact hasking (translateGroupName n)
  | listMembers n c => exact hasking (list hs .members n c)
  | listMemberships n c => exact hasking (list hs .memberships n c)
  | listAllGroups => exact ok hs
  | handlePortDeath p => exact map (handlePortDeath hs p)

end Calls

end Inside

def Refused (s : Server) (ret : Ret) (s' : Server) : Prop := ret ≠ .success ∧ s' = s

namespace Refused

variable {k : Kernel} {s s' : Server} {ret : Ret} {id : GroupId}

theorem of_ok {ret' : Ret} (hret : ret' ≠ .success)
    (h : (.ok (ret', s) : Outcome (Ret × Server)) = .ok (ret, s')) : Refused s ret s' := by
  cases ok.inj h
  exact ⟨hret, rfl⟩

theorem loginPriv {p q : Port} (hid : ¬InRange id)
    (h : s.casLoginPriv k p id q = .ok (ret, s')) : Refused s ret s' := by
  rcases casLoginPriv_cases h with hrefused | ⟨a, -, ha, -⟩
  · exact hrefused
  · exact absurd (inRange_of_lookupId ha) hid

theorem loginCreate {p q : Port} {ids : List GroupId} (hadmin : ¬s.Administrator p)
    (h : s.casLoginCreate k p ids q = .ok (ret, s')) : Refused s ret s' := by
  rcases asCaller_cases h with h | ⟨i, a, hb, h⟩
  · exact of_ok (by decide) (congrArg ok h.symm)
  · obtain ⟨c, hc, h⟩ := Outcome.bind_eq_ok.mp h
    have hcheck : checkForMembership sysAdmId c = false := by
      by_contra hcheck
      exact hadmin ⟨i, a, c, hb, deref_eq_ok.mp hc, by simpa using hcheck⟩
    rw [if_pos hcheck] at h
    exact of_ok (by decide) h

theorem registerToken {p t : Port} {ids : List GroupId} {create : Bool} (hid : id ∈ ids)
    (hout : ¬InRange id) (htrusts : ¬s.Trusts p create)
    (h : s.casRegisterToken k p ids t create = .ok (ret, s')) : Refused s ret s' := by
  rcases casRegisterToken_cases h with ⟨rfl, rfl⟩ | ⟨i, a, r, g, hb, hr, hcase⟩
  · exact ⟨by decide, rfl⟩
  have hneither := fun h => htrusts ⟨i, a, r, hb, hr, h⟩
  have hcreate : create = false := by simpa using fun h => hneither (Or.inl h)
  have hadmin : checkForMembership sysAdmId r = true := by
    simpa using fun h => hneither (Or.inr h)
  subst hcreate
  have hknown {b : Bool} (hchecked : Server.admitToken k s.groups r ids false = .ok (b, g)) :
      g = s.groups ∧ (b = true → ∀ id ∈ ids, InRange id) := by
    rw [Server.admitToken, if_neg (ne_nil_of_mem hid), if_pos (by simp [hadmin])] at hchecked
    exact Inside.admitGroups_known hchecked
  rcases hcase with ⟨rfl, rfl, hchecked⟩ | ⟨j, -, hchecked, -⟩
  · rw [(hknown hchecked).1]
    exact ⟨by decide, rfl⟩
  · exact absurd ((hknown hchecked).2 rfl id hid) hout

theorem ownerOf {c : GroupRecord} {n o : GroupName}
    (h : s.ownerOf c n o = .ok (.error ret)) : ret ≠ .success := by
  rw [Server.ownerOf] at h
  split_ifs at h
  · cases ok.inj h
  · obtain ⟨x, -, h⟩ := Outcome.bind_eq_ok.mp h
    cases x with
    | none =>
      obtain rfl := error.inj (ok.inj h)
      decide
    | some a =>
      obtain ⟨r, -, h⟩ := Outcome.bind_eq_ok.mp h
      split_ifs at h
      · cases ok.inj h
      · obtain rfl := error.inj (ok.inj h)
        decide

theorem createGroup {p : Port} {n o : GroupName} {ty : GroupType} {f : FullName} {w : PassWord}
    {id' : GroupId} (hasks : ¬s.AsksForId p n ty o)
    (h : s.casCreateGroup k p n ty f w o id = .ok (ret, id', s')) : Refused s ret s' := by
  have keep {ret₀ : Ret} {id₀ : GroupId} (hret : ret₀ ≠ .success)
      (h : (.ok (ret₀, id₀, s) : Outcome (Ret × GroupId × Server)) = .ok (ret, id', s')) :
      Refused s ret s' := by
    obtain ⟨rfl, hsame⟩ := Prod.mk.inj (ok.inj h)
    exact ⟨hret, (Prod.mk.inj hsame).2.symm⟩
  rcases asCaller_cases h with h | ⟨i, a, hb, h⟩
  · exact keep (by decide) (congrArg ok h.symm)
  obtain ⟨c, hc, h⟩ := Outcome.bind_eq_ok.mp h
  split_ifs at h with hadm
  · exact keep (by decide) h
  obtain ⟨x, hx, h⟩ := Outcome.bind_eq_ok.mp h
  cases x with
  | error ret₀ => exact keep (ownerOf hx) h
  | ok owner =>
    obtain ⟨y, hy, h⟩ := Outcome.bind_eq_ok.mp h
    cases y with
    | some b => exact keep (by decide) h
    | none =>
      exact absurd ⟨i, a, c, owner, hb, deref_eq_ok.mp hc,
        fun hty => by simpa [hty] using hadm, hx, hy⟩ hasks

end Refused

namespace Server

variable {s : Server}

theorem Bounded.boundsIds (hs : s.Bounded) {e : Kernel × Call} (he : s.IdsChecked e) :
    BoundsIds s e := by
  refine ⟨(Inside.serve hs he).1, fun id hid hout ret s' h => ?_⟩
  obtain ⟨k, c⟩ := e
  cases c with
  | translateGroupId x => exact absurd (mem_singleton.mp hid ▸ he) hout
  | perform op =>
    cases op with
    | loginPriv p u q => exact Refused.loginPriv (mem_singleton.mp hid ▸ hout) h
    | loginCreate p ids q =>
      exact Refused.loginCreate (fun hadmin => hout (he hadmin id hid)) h
    | registerToken p ids t create =>
      exact Refused.registerToken hid hout (fun htrusts => hout (he htrusts id hid)) h
    | createGroup p n ty f w o x =>
      have hx : x ≠ nullId ∧ id = x := by
        change id ∈ (if x = nullId then [] else [x]) at hid
        split_ifs at hid with hnull
        · cases hid
        · exact ⟨hnull, mem_singleton.mp hid⟩
      obtain ⟨done, hdone, h⟩ := Outcome.bind_eq_ok.mp h
      cases ok.inj h
      refine Refused.createGroup (fun hasks => ?_) hdone
      exact (he hasks).elim hx.1 (hx.2 ▸ hout)
    | _ => cases hid
  | _ => cases hid

theorem Bounded.served (hs : s.Bounded) {e : Kernel × Call} (he : s.IdsChecked e) {s' : Server}
    (h : s.served e = some s') : s'.Bounded := by
  rw [Server.served] at h
  obtain ⟨done, hdone, rfl⟩ := Option.map_eq_some_iff.mp h
  have hok : s.serve e.1 e.2 = .ok done := by
    cases hserve : s.serve e.1 e.2 with
    | error t =>
      rw [hserve] at hdone
      cases hdone
    | ok done' =>
      rw [hserve] at hdone
      exact congrArg ok (Option.some.inj hdone)
  exact (Inside.serve hs he).2 done hok

theorem bounded_boot {g : Groups} (hg : g.Bounded) : (boot g).Bounded := by
  have hzero : InRange RegSlot.zero.userId := by decide
  exact ⟨hg, fun _ => ⟨by simp [boot, RegSlot.zero], Or.inl hzero⟩⟩

theorem group_ids_bounded (g : Groups) (hg : g.Bounded) (es : List (Kernel × Call))
    (hes : Admits served IdsChecked (boot g) es) :
    Admits served BoundsIds (boot g) es :=
  (admits_congr (I := Bounded)
    (fun _ _ hs he => iff_of_true (hs.boundsIds he) he)
    (fun _ _ _ hs he _ h => hs.served he h) (bounded_boot hg) hes).mpr hes

end Server

namespace Sample

theorem groups_bounded : groups.Bounded := by
  intro a r hr
  have hall : ∀ r ∈ [group [115] 1 1 [2] [], group [97] 2 0 [] [1], group [98] 3 0 [] [4],
      group [103] 4 1 [3] [], group [99] 5 0 [] []],
      (r.groupId :: r.members ++ r.memberships).all (fun id => decide (InRange id)) = true ∧
        r.trMemberships = [] := by
    decide +kernel
  obtain ⟨hids, hcache⟩ := hall r (mem_of_getElem? hr)
  have hin {id : GroupId} (h : id ∈ r.groupId :: r.members ++ r.memberships) : InRange id :=
    of_decide_eq_true (all_eq_true.mp hids id h)
  refine ⟨hin (by simp), fun dir => ?_, by simp [hcache]⟩
  cases dir with
  | memberships => exact fun id h => hin (mem_append_right _ h)
  | members => exact fun id h => hin (mem_append_left _ (mem_cons_of_mem _ h))

def askedInRange : List (Kernel × Call) :=
  [(kernel 10, .perform (.login (text 64 [97]) word 5)),
    (kernel 10, .perform (.createGroup 5 (text 64 [120]) asSecondary (text 256 []) word
      (text 64 [115]) nullId)),
    (kernel 20, .perform (.registerToken 5 [4] 7 false)), (kernel 20, .verifyTokenNames 7),
    (kernel 20, .perform (.loginPriv 5 5000 9)), (kernel 20, .translateGroupId 6)]

def loginMember : Kernel × Call := (kernel 10, .perform (.login (text 64 [98]) word 5))

def tokenOutOfRange : Kernel × Call := (kernel 10, .perform (.registerToken 5 [4096] 7 false))

end Sample

namespace Server

theorem group_ids_bounded_askedInRange :
    Admits served BoundsIds (boot Sample.groups) Sample.askedInRange := by
  have hnull : ∀ s : Server, s.IdsChecked (Sample.kernel 20, .verifyTokenNames 7) := by
    intro s ht
    cases ht
  refine group_ids_bounded Sample.groups Sample.groups_bounded Sample.askedInRange ?_
  refine ⟨trivial, fun _ _ => ⟨fun _ => Or.inl rfl, fun _ _ => ⟨fun _ => forall_mem_singleton.mpr (by decide),
    fun s _ => ⟨hnull s, fun _ _ => ⟨trivial, fun _ _ => ⟨?_, fun _ _ => trivial⟩⟩⟩⟩⟩⟩
  exact (by decide : InRange 6)

theorem ids_out_of_range_served :
    ¬Admits served BoundsIds (boot Sample.groups) [(Sample.kernel 10, .translateGroupId 4096)] ∧
      ¬Admits served BoundsIds (boot Sample.groups)
        [Sample.loginMember, Sample.tokenOutOfRange] := by
  constructor
  · intro h
    have htrap : (boot Sample.groups).serve (Sample.kernel 10) (.translateGroupId 4096) =
        .error .groupIdRange := rfl
    exact h.1.inside htrap
  · intro h
    have hrun : check served (boot Sample.groups) [Sample.loginMember] (fun s =>
        decide ((s.serve Sample.tokenOutOfRange.1 Sample.tokenOutOfRange.2).toOption.map Prod.fst =
          some .success)) = true := by
      decide +kernel
    obtain ⟨s, hs, hc⟩ := exec_of_check hrun
    have hlast : Admits served BoundsIds (boot Sample.groups)
        ([Sample.loginMember] ++ [Sample.tokenOutOfRange]) := h
    have hbounds : BoundsIds s Sample.tokenOutOfRange := admits_last hlast hs
    have hret := of_decide_eq_true hc
    cases hserve : s.serve Sample.tokenOutOfRange.1 Sample.tokenOutOfRange.2 with
    | error t =>
      rw [hserve] at hret
      cases hret
    | ok done =>
      rw [hserve] at hret
      have hout : ¬InRange 4096 := by decide
      exact (hbounds.refused 4096 mem_cons_self hout done.1 done.2 hserve).1 (Option.some.inj hret)

end Server

end MachUS.Auth
