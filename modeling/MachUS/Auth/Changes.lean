import MachUS.Auth.NameEntries
import MachUS.Auth.Effects

namespace MachUS.Auth

open Text Relation Outcome Groups

structure Groups.Adds (g g' : Groups) (a : Addr) (r : GroupRecord) : Prop where
  fresh : g.heap a = none
  unmapped : g.groupIdMap r.groupId = none
  range : r.groupId.toNat < groupIdMax
  heap : g'.heap = Function.update g.heap a (some r)
  groupIdMap : g'.groupIdMap = Function.update g.groupIdMap r.groupId (some a)
  entries : 0 < g.names.slots.length → g.Entries g' fun b => if b = a then 1 else 0

def Server.Editing (s : Server) (p : Port) (a : Addr) (r : GroupRecord) : Prop :=
  s.groups.heap a = some r ∧
    ∃ i c caller, s.Bound p i c ∧ s.groups.heap c = some caller ∧ mayEdit caller r.ownerId = true

def Server.Creates (k : Kernel) (s : Server) (p : Port) (n : GroupName) (ty : GroupType)
    (o : GroupName) (id : GroupId) : Prop :=
  ∃ i a c owner id', s.Bound p i a ∧ s.groups.heap a = some c ∧
    (ty = asPrimary → checkForMembership sysAdmId c = true) ∧
    s.ownerOf c (toLower n) (toLower o) = .ok (.ok owner) ∧
    s.groups.lookupName (toLower n) = .ok none ∧ s.groups.chooseId id = .ok (.ok id') ∧
    (k.record 0).isSome = true

def Op.Recruits (k : Kernel) (s : Server) (ms : List GroupId) : Op → Prop
  | .loginCreate p (user :: rest) _ =>
    s.Administrator p ∧ s.groups.lookupId user = none ∧ (k.record 0).isSome = true ∧ ms = rest
  | _ => False

structure NumberedRecord (r : GroupRecord) (id : GroupId) (isUser : Bool) : Prop where
  passWord : ∀ c ∈ r.passWord.bytes, isPrint c = true
  groupName : r.groupName.bytes = formatInt id.toInt32.toInt
  fullName : r.fullName.bytes = recFormat isUser ++ formatInt id.toInt32.toInt

structure NamedRecord (r : GroupRecord) (n : GroupName) (ty : GroupType) (f : FullName)
    (w : PassWord) : Prop where
  groupName : r.groupName = toLower n
  groupType : r.groupType = ty
  fullName : r.fullName = f
  passWord : storedPassWord ty w = .ok r.passWord
  trMemberships : r.trMemberships = []
  members : r.members = []
  memberships : r.memberships = []

inductive Change (k : Kernel) (s : Server) : Op → Groups → Groups → Prop where
  | cache {op : Op} {g : Groups} {a : Addr} {r : GroupRecord} (ids : List GroupId)
      (hr : g.heap a = some r) : Change k s op g (g.setRecord a { r with trMemberships := ids })
  | owner {p : Port} {n o : GroupName} {a b : Addr} {r x : GroupRecord}
      (hr : s.groups.heap a = some r) (hx : s.groups.heap b = some x) :
      Change k s (.changeOwner p n o) s.groups (s.groups.setRecord a { r with ownerId := x.groupId })
  | password {p : Port} {n : GroupName} {w w' : PassWord} {a : Addr} {r : GroupRecord}
      {word : PassWord} (hr : s.groups.heap a = some r) (ht : r.groupType = asPrimary)
      (hw : encryptPassword w' = .ok word) :
      Change k s (.changePassword p n w w') s.groups
        (s.groups.setRecord a { r with passWord := word })
  | record {op : Op} {g g' : Groups} {a : Addr} {r : GroupRecord} {id : GroupId}
      {ms : List GroupId} {isUser : Bool} (hadds : g.Adds g' a r)
      (hblank : BlankRecord r id ms) (hlen : ms.length ≤ membersMax)
      (hnum : NumberedRecord r id isUser) (hms : ms = [] ∨ op.Recruits k s ms) :
      Change k s op g g'
  | group {p : Port} {n : GroupName} {ty : GroupType} {f : FullName} {w : PassWord}
      {o : GroupName} {id : GroupId} {g' : Groups} {a : Addr} {r : GroupRecord}
      (hadds : s.groups.Adds g' a r) (hnamed : NamedRecord r n ty f w)
      (hcreates : s.Creates k p n ty o id) :
      Change k s (.createGroup p n ty f w o id) s.groups g'
  | link {p : Port} {n m : GroupName} {a b : Addr} {r x : GroupRecord} {g₁ g₂ : Groups}
      (ha : s.groups.lookupName n = .ok (some a)) (hr : s.Editing p a r)
      (ht : r.groupType = asSecondary) (hb : s.groups.lookupName (toLower m) = .ok (some b))
      (hx : s.groups.heap b = some x) (h₁ : s.groups.addMember a x.groupId = .ok g₁)
      (h₂ : g₁.addMembership b r.groupId = .ok g₂) : Change k s (.addToGroup p n m) s.groups g₂
  | unlink {p : Port} {n m : GroupName} {a b : Addr} {r x : GroupRecord} {g₁ g₂ : Groups}
      (hr : s.groups.heap a = some r) (hx : s.groups.heap b = some x)
      (h₁ : s.groups.dropMember a x.groupId = .ok g₁)
      (h₂ : g₁.dropMembership b r.groupId = .ok g₂) :
      Change k s (.removeFromGroup p n m) s.groups g₂
  | remove {p : Port} {n : GroupName} {a : Addr} {g' : Groups}
      (ha : s.groups.lookupName (toLower n) = .ok (some a))
      (h : s.groups.removeGroup k a = .ok g') : Change k s (.deleteGroup p n) s.groups g'

namespace Groups

variable {g g' : Groups}

theorem adds_of_enterName {k : Kernel} {a : Addr} {r : GroupRecord}
    (hfresh : g.heap a = none) (hmap : g.groupIdMap r.groupId = none)
    (hrange : r.groupId.toNat < groupIdMax) (h : (g.mapRecord a r).enterName k a = .ok g') :
    g.Adds g' a r := by
  have hsame := SameRecords.enterName h
  refine ⟨hfresh, hmap, hrange, hsame.heap, hsame.groupIdMap, fun hg => ?_⟩
  have he := enterName_entries (g := g.mapRecord a r) hg h
  exact ⟨he.length, he.slots, he.count⟩

theorem adds_of_insertGroup {k : Kernel} {a : Addr} {r : GroupRecord}
    (hfresh : g.heap a = none) (hmap : g.groupIdMap r.groupId = none)
    (hrange : r.groupId.toNat < groupIdMax) (h : g.insertGroup k a r = .ok g') :
    g.Adds g' a r := by
  obtain ⟨g₁, h₁, h⟩ := bind_eq_ok.mp h
  cases h
  have hsame := SameRecords.enterName h₁
  refine ⟨hfresh, hmap, hrange, hsame.heap, ?_, fun hg => ?_⟩
  · exact congrArg (fun m => Function.update m r.groupId (some a)) hsame.groupIdMap
  · have he := enterName_entries (g := g.setRecord a r) hg h₁
    exact ⟨he.length, he.slots, he.count⟩

variable {id : GroupId}

theorem unmapped_of_lookupId (hid : id.toNat < groupIdMax)
    (h : g.lookupId id = none) : g.groupIdMap id = none := by
  rwa [lookupId, if_pos hid] at h

variable {s : Server} {k : Kernel} {op : Op}

theorem casCreateGroupRec_change {i : ℕ} {ms : List GroupId}
    {isUser : Bool} {o : Option Addr} (hnone : g.lookupId id = none)
    (hms : ms.drop 1 = [] ∨ ((k.record i).isSome = true → op.Recruits k s (ms.drop 1)))
    (h : g.casCreateGroupRec k i id ms isUser = .ok (o, g')) :
    ReflTransGen (Change k s op) g g' := by
  rcases casCreateGroupRec_cases h with
    ⟨-, rfl⟩ | ⟨a, r, -, ha, hfree, hid, hr, hlen, hword, hname, hfull, he⟩
  · exact .refl
  · have hid' : r.groupId = id := hr.groupId
    have hmap : g.groupIdMap r.groupId = none := hid' ▸ unmapped_of_lookupId hid hnone
    exact .single (.record (adds_of_enterName hfree hmap (hid' ▸ hid) he) hr hlen
      ⟨hword, hname, hfull⟩ (hms.imp_right fun h => h (by rw [ha]; rfl)))

theorem findOrCreate_change {i : ℕ} {ms : List GroupId} {isUser : Bool} {o : Option Addr}
    (hms : g.lookupId id = none →
      ms.drop 1 = [] ∨ ((k.record i).isSome = true → op.Recruits k s (ms.drop 1)))
    (h : g.findOrCreate k i id ms isUser = .ok (o, g')) : ReflTransGen (Change k s op) g g' := by
  rw [findOrCreate] at h
  split at h
  · cases Except.ok.inj h
    exact .refl
  · rename_i hnone
    exact casCreateGroupRec_change hnone (hms hnone) h

theorem admitGroups_change {create b : Bool} {i : ℕ} {ids : List GroupId}
    (h : admitGroups k create i ids g = .ok (b, g')) : ReflTransGen (Change k s op) g g' := by
  induction ids generalizing i g with
  | nil =>
    cases Except.ok.inj h
    exact .refl
  | cons id ids ih =>
    rw [admitGroups] at h
    split at h
    · exact ih h
    · rename_i hnone
      split_ifs at h
      · cases Except.ok.inj h
        exact .refl
      · obtain ⟨⟨o, g₁⟩, h₁, h⟩ := bind_eq_ok.mp h
        have hfirst : ReflTransGen (Change k s op) g g₁ :=
          casCreateGroupRec_change hnone (Or.inl rfl) h₁
        cases o with
        | none =>
          cases Except.ok.inj h
          exact hfirst
        | some c => exact hfirst.trans (ih h)

end Groups

namespace Server

variable {s s' : Server} {k : Kernel} {ret : Ret} {p : Port}

theorem openSession_change {t : Server} {op : Op} {a : Addr}
    (h : t.openSession k a p = .ok (ret, s')) :
    ReflTransGen (Change k s op) t.groups s'.groups := by
  rcases openSession_cases h with ⟨-, rfl⟩ | ⟨-, r, ids, i, hr, -, -, -, rfl⟩
  · exact .refl
  · exact .single (.cache ids hr)

theorem casLoginCreate_change {p q : Port} {id : List GroupId}
    (h : s.casLoginCreate k p id q = .ok (ret, s')) :
    ReflTransGen (Change k s (.loginCreate p id q)) s.groups s'.groups := by
  rcases asCaller_cases h with h | ⟨i, caller, hb, h⟩
  · cases h
    exact .refl
  · obtain ⟨c, hc, h⟩ := bind_eq_ok.mp h
    split_ifs at h with hadm
    · cases Except.ok.inj h
      exact .refl
    · have hadmin : s.Administrator p :=
        ⟨i, caller, c, hb, deref_eq_ok.mp hc, by simpa using hadm⟩
      cases id with
      | nil => cases h
      | cons user rest =>
        obtain ⟨⟨o, g₁⟩, h₁, h⟩ := bind_eq_ok.mp h
        have hfirst : ReflTransGen (Change k s (.loginCreate p (user :: rest) q)) s.groups g₁ :=
          findOrCreate_change (fun hnone => Or.inr fun hk => ⟨hadmin, hnone, hk, rfl⟩) h₁
        cases o with
        | none =>
          cases Except.ok.inj h
          exact hfirst
        | some login =>
          cases rest with
          | nil => cases h
          | cons group rest =>
            obtain ⟨⟨o, g₂⟩, h₂, h⟩ := bind_eq_ok.mp h
            have hsecond : ReflTransGen (Change k s (.loginCreate p (user :: group :: rest) q))
                g₁ g₂ :=
              findOrCreate_change (fun _ => Or.inl rfl) h₂
            cases o with
            | none =>
              cases Except.ok.inj h
              exact hfirst.trans hsecond
            | some other =>
              exact (hfirst.trans hsecond).trans (openSession_change h)

theorem casRegisterToken_change {p t : Port} {ids : List GroupId} {create : Bool}
    (h : s.casRegisterToken k p ids t create = .ok (ret, s')) :
    ReflTransGen (Change k s (.registerToken p ids t create)) s.groups s'.groups := by
  have hadmit {r : GroupRecord} {b : Bool} {g : Groups}
      (h : admitToken k s.groups r ids create = .ok (b, g)) :
      ReflTransGen (Change k s (.registerToken p ids t create)) s.groups g := by
    rw [admitToken] at h
    split_ifs at h
    · cases Except.ok.inj h
      exact .refl
    · exact admitGroups_change h
    · obtain ⟨ok, -, h⟩ := bind_eq_ok.mp h
      cases Except.ok.inj h
      exact .refl
  rcases casRegisterToken_cases h with ⟨-, rfl⟩ | ⟨i, a, r, g, -, -, hcase⟩
  · exact .refl
  · rcases hcase with ⟨-, rfl, hg⟩ | ⟨j, -, hg, ⟨-, -, -, -, rfl⟩ | ⟨-, -, rfl⟩⟩
    · exact hadmit hg
    · exact hadmit hg
    · exact hadmit hg

theorem chooseId_spec {g : Groups} {id id' : GroupId} (h : g.chooseId id = .ok (.ok id')) :
    g.groupIdMap id' = none ∧ id'.toNat < groupIdMax := by
  rw [chooseId] at h
  split_ifs at h
  · split at h
    · rename_i i hi
      cases Except.ok.inj h
      have hfree := List.find?_some hi
      obtain ⟨m, hm, rfl⟩ := List.mem_map.mp (List.mem_of_find?_eq_some hi)
      have hm' : m < groupIdMax := by
        have := (List.mem_range'_1.mp hm).2
        simp only [groupIdMax] at this ⊢
        omega
      refine ⟨by simpa using hfree, lt_of_le_of_lt ?_ hm'⟩
      rw [UInt32.toNat_ofNat']
      exact Nat.mod_le _ _
    · cases Except.ok.inj h
  · obtain ⟨o, ho, h⟩ := bind_eq_ok.mp h
    obtain ⟨hrange, hmap⟩ := idSlot_eq_ok.mp ho
    cases o with
    | some b => cases Except.ok.inj h
    | none =>
      cases Except.ok.inj h
      exact ⟨hmap, hrange⟩

variable {n o : GroupName}

theorem createRecord_change {ty : GroupType} {f : FullName}
    {w : PassWord} {owner : Option GroupId} {id id' id₀ : GroupId}
    (hmap : s.groups.groupIdMap id = none) (hid : id.toNat < groupIdMax)
    (hcreates : (k.record 0).isSome = true → s.Creates k p n ty o id₀)
    (h : s.createRecord k (toLower n) ty f w owner id = .ok (ret, id', s')) :
    ReflTransGen (Change k s (.createGroup p n ty f w o id₀)) s.groups s'.groups := by
  rw [createRecord] at h
  split at h
  · obtain ⟨-, h⟩ := Prod.mk.inj (Except.ok.inj h)
    obtain rfl := (Prod.mk.inj h).2
    exact .refl
  · rename_i a ha
    split_ifs at h with hfree
    obtain ⟨word, hword, h⟩ := bind_eq_ok.mp h
    obtain ⟨g, hg, h⟩ := bind_eq_ok.mp h
    obtain ⟨-, h⟩ := Prod.mk.inj (Except.ok.inj h)
    obtain rfl := (Prod.mk.inj h).2
    refine .single (.group (adds_of_insertGroup ?_ hmap hid hg)
      ⟨rfl, rfl, rfl, hword, rfl, rfl, rfl⟩ (hcreates (by rw [ha]; rfl)))
    simpa using hfree

theorem casCreateGroup_change {ty : GroupType} {f : FullName} {w : PassWord} {id id' : GroupId}
    (h : s.casCreateGroup k p n ty f w o id = .ok (ret, id', s')) :
    ReflTransGen (Change k s (.createGroup p n ty f w o id)) s.groups s'.groups := by
  have keep {ret₀ ret₁ : Ret} {id₀ id₁ : GroupId} {s₁ : Server}
      (h : (.ok (ret₀, id₀, s) : Outcome (Ret × GroupId × Server)) = .ok (ret₁, id₁, s₁)) :
      ReflTransGen (Change k s (.createGroup p n ty f w o id)) s.groups s₁.groups := by
    obtain rfl := (Prod.mk.inj (Prod.mk.inj (Except.ok.inj h)).2).2
    exact .refl
  rcases asCaller_cases h with h | ⟨i, caller, hb, h⟩
  · exact keep (congrArg Except.ok h.symm)
  · obtain ⟨c, hc, h⟩ := bind_eq_ok.mp h
    split_ifs at h with hadm
    · exact keep h
    · obtain ⟨x, hx, h⟩ := bind_eq_ok.mp h
      cases x with
      | error ret => exact keep h
      | ok owner =>
        obtain ⟨y, hy, h⟩ := bind_eq_ok.mp h
        cases y with
        | some b => exact keep h
        | none =>
          obtain ⟨z, hz, h⟩ := bind_eq_ok.mp h
          cases z with
          | error ret => exact keep h
          | ok id =>
            refine createRecord_change (chooseId_spec hz).1 (chooseId_spec hz).2 (fun hk => ?_) h
            refine ⟨i, caller, c, owner, id, hb, deref_eq_ok.mp hc, fun hty => ?_, hx, hy, hz, hk⟩
            simpa [hty] using hadm

theorem casDeleteGroup_cases (h : s.casDeleteGroup k p n = .ok (ret, s')) :
    (ret ≠ .success ∧ s' = s) ∨
    (ret = .success ∧ ∃ a g, s.groups.lookupName (toLower n) = .ok (some a) ∧
      s.groups.removeGroup k a = .ok g ∧ s' = s.withGroups g) := by
  rcases asCaller_cases h with h | ⟨i, caller, -, h⟩
  · cases h
    exact Or.inl ⟨by simp, rfl⟩
  · obtain ⟨o, ho, h⟩ := bind_eq_ok.mp h
    cases o with
    | none =>
      cases Except.ok.inj h
      exact Or.inl ⟨by simp, rfl⟩
    | some a =>
      obtain ⟨r, -, h⟩ := bind_eq_ok.mp h
      obtain ⟨c, -, h⟩ := bind_eq_ok.mp h
      split_ifs at h
      · cases Except.ok.inj h
        exact Or.inl ⟨by simp, rfl⟩
      · obtain ⟨g, hg, h⟩ := bind_eq_ok.mp h
        cases Except.ok.inj h
        exact Or.inr ⟨rfl, a, g, ho, hg, rfl⟩

theorem casChangeOwner_change (h : s.casChangeOwner p n o = .ok (ret, s')) :
    ReflTransGen (Change k s (.changeOwner p n o)) s.groups s'.groups := by
  rcases asCaller_cases h with h | ⟨i, caller, -, h⟩
  · cases h
    exact .refl
  · obtain ⟨x, -, h⟩ := bind_eq_ok.mp h
    cases x with
    | none =>
      cases Except.ok.inj h
      exact .refl
    | some a =>
      obtain ⟨r, hr, h⟩ := bind_eq_ok.mp h
      obtain ⟨c, -, h⟩ := bind_eq_ok.mp h
      split_ifs at h
      · cases Except.ok.inj h
        exact .refl
      · obtain ⟨y, -, h⟩ := bind_eq_ok.mp h
        cases y with
        | none =>
          cases Except.ok.inj h
          exact .refl
        | some b =>
          obtain ⟨owner, hb, h⟩ := bind_eq_ok.mp h
          cases Except.ok.inj h
          exact .single (.owner (deref_eq_ok.mp hr) (deref_eq_ok.mp hb))

theorem casChangePassword_change {w w' : PassWord}
    (h : s.casChangePassword p n w w' = .ok (ret, s')) :
    ReflTransGen (Change k s (.changePassword p n w w')) s.groups s'.groups := by
  rcases asCaller_cases h with h | ⟨i, caller, -, h⟩
  · cases h
    exact .refl
  · obtain ⟨x, -, h⟩ := bind_eq_ok.mp h
    cases x with
    | none =>
      cases Except.ok.inj h
      exact .refl
    | some a =>
      obtain ⟨r, hr, h⟩ := bind_eq_ok.mp h
      split_ifs at h with ht
      · cases Except.ok.inj h
        exact .refl
      · obtain ⟨c, -, h⟩ := bind_eq_ok.mp h
        obtain ⟨y, -, h⟩ := bind_eq_ok.mp h
        cases y with
        | some ret =>
          cases Except.ok.inj h
          exact .refl
        | none =>
          obtain ⟨word, hword, h⟩ := bind_eq_ok.mp h
          cases Except.ok.inj h
          exact .single (.password (deref_eq_ok.mp hr) (not_not.mp ht) hword)

theorem casAddToGroup_change {n m : GroupName} (h : s.casAddToGroup p n m = .ok (ret, s')) :
    ReflTransGen (Change k s (.addToGroup p n m)) s.groups s'.groups := by
  rcases asCaller_cases h with h | ⟨i, caller, hbound, h⟩
  · cases h
    exact .refl
  · obtain ⟨x, ha, h⟩ := bind_eq_ok.mp h
    cases x with
    | none =>
      cases Except.ok.inj h
      exact .refl
    | some a =>
      obtain ⟨r, hr, h⟩ := bind_eq_ok.mp h
      split_ifs at h with ht
      · cases Except.ok.inj h
        exact .refl
      · obtain ⟨y, hb, h⟩ := bind_eq_ok.mp h
        cases y with
        | none =>
          cases Except.ok.inj h
          exact .refl
        | some b =>
          obtain ⟨added, hx, h⟩ := bind_eq_ok.mp h
          obtain ⟨c, hc, h⟩ := bind_eq_ok.mp h
          split_ifs at h with hmay
          · cases Except.ok.inj h
            exact .refl
          · obtain ⟨g₁, h₁, h⟩ := bind_eq_ok.mp h
            obtain ⟨g₂, h₂, h⟩ := bind_eq_ok.mp h
            cases Except.ok.inj h
            exact .single (.link ha
              ⟨deref_eq_ok.mp hr, i, caller, c, hbound, deref_eq_ok.mp hc,
                by simpa using hmay⟩ (not_not.mp ht) hb (deref_eq_ok.mp hx) h₁ h₂)

theorem casRemoveFromGroup_change {n m : GroupName}
    (h : s.casRemoveFromGroup p n m = .ok (ret, s')) :
    ReflTransGen (Change k s (.removeFromGroup p n m)) s.groups s'.groups := by
  rcases asCaller_cases h with h | ⟨i, caller, -, h⟩
  · cases h
    exact .refl
  · obtain ⟨x, -, h⟩ := bind_eq_ok.mp h
    cases x with
    | none =>
      cases Except.ok.inj h
      exact .refl
    | some a =>
      obtain ⟨r, hr, h⟩ := bind_eq_ok.mp h
      split_ifs at h
      · cases Except.ok.inj h
        exact .refl
      · obtain ⟨y, -, h⟩ := bind_eq_ok.mp h
        cases y with
        | none =>
          cases Except.ok.inj h
          exact .refl
        | some b =>
          obtain ⟨removed, hx, h⟩ := bind_eq_ok.mp h
          obtain ⟨c, -, h⟩ := bind_eq_ok.mp h
          split_ifs at h
          · cases Except.ok.inj h
            exact .refl
          · obtain ⟨g₁, h₁, h⟩ := bind_eq_ok.mp h
            obtain ⟨g₂, h₂, h⟩ := bind_eq_ok.mp h
            cases Except.ok.inj h
            exact .single (.unlink (deref_eq_ok.mp hr) (deref_eq_ok.mp hx) h₁ h₂)

theorem step_changes {op : Op} (h : s.step k op = .ok (ret, s')) :
    ReflTransGen (Change k s op) s.groups s'.groups := by
  cases op with
  | login u w p =>
    rcases casLogin_cases h with ⟨-, rfl⟩ | ⟨a, r, -, -, -, hopen⟩
    · exact .refl
    · exact openSession_change hopen
  | loginPriv p u q =>
    rcases casLoginPriv_cases h with ⟨-, rfl⟩ | ⟨a, -, -, hopen⟩
    · exact .refl
    · exact openSession_change hopen
  | loginCreate p id q => exact casLoginCreate_change h
  | logout p =>
    rcases casLogout_cases h with ⟨-, rfl⟩ | ⟨-, i, a, r, -, hr, rfl⟩
    · exact .refl
    · exact .single (.cache [] hr)
  | registerToken p ids t create => exact casRegisterToken_change h
  | deleteToken p t =>
    rcases casDeleteToken_cases h with rfl | ⟨i, a, j, -, -, -, rfl⟩
    · exact .refl
    · exact .refl
  | createGroup p n ty f w o id =>
    obtain ⟨⟨ret', id', s₁⟩, h₁, h₂⟩ := bind_eq_ok.mp h
    cases Except.ok.inj h₂
    exact casCreateGroup_change h₁
  | deleteGroup p n =>
    rcases casDeleteGroup_cases h with ⟨-, rfl⟩ | ⟨-, a, g, ha, hg, rfl⟩
    · exact .refl
    · exact .single (.remove ha hg)
  | changeOwner p n o => exact casChangeOwner_change h
  | changePassword p n w w' => exact casChangePassword_change h
  | addToGroup p n m => exact casAddToGroup_change h
  | removeFromGroup p n m => exact casRemoveFromGroup_change h

theorem changes_invariant {I : Groups → Prop} {op : Op}
    (hchange : ∀ g g', I g → Change k s op g g' → I g') (h : s.step k op = .ok (ret, s'))
    (hs : I s.groups) : I s'.groups := by
  have run {g : Groups} (hrun : ReflTransGen (Change k s op) s.groups g) : I g := by
    induction hrun with
    | refl => exact hs
    | tail _ hlast ih => exact hchange _ _ ih hlast
  exact run (step_changes h)

end Server

end MachUS.Auth
