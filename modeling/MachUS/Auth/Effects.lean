import MachUS.Auth.Sessions
import MachUS.Foundation.Transition

namespace MachUS.Auth

open Text Outcome Or Groups

theorem hashPort_eq_ok {keys : Fin portMapMax → Port} {p : Port} {i : Fin portMapMax} :
    hashPort keys p = .ok i ↔ Probing.probe keys machPortNull (hashHome p) p = some i := by
  rw [hashPort]
  cases Probing.probe keys machPortNull (hashHome p) p <;> simp

theorem sprintf_bytes {size : ℕ} {format : Bytes} {id : GroupId} {c : CString size}
    (h : sprintf size format id = .ok c) : c.bytes = format ++ formatInt id.toInt32.toInt := by
  rw [sprintf] at h
  split at h
  · rename_i d hd
    cases h
    exact CString.ofBytes?_bytes hd
  · cases h

namespace Groups

structure BlankRecord (r : GroupRecord) (id : GroupId) (memberships : List GroupId) : Prop where
  groupId : r.groupId = id
  groupType : r.groupType = asPrimary
  ownerId : r.ownerId = sysAdmId
  trMemberships : r.trMemberships = []
  members : r.members = []
  memberships : r.memberships = memberships

variable {ms : List GroupId} {k : Kernel} {g g' : Groups} {id : GroupId} {isUser : Bool}

theorem casCreateGroupRec_cases {i : ℕ} {o : Option Addr}
    (h : g.casCreateGroupRec k i id ms isUser = .ok (o, g')) :
    (o = none ∧ g' = g) ∨
    (∃ a r, o = some a ∧ k.record i = some a ∧ g.heap a = none ∧ id.toNat < groupIdMax ∧
      BlankRecord r id (ms.drop 1) ∧ (ms.drop 1).length ≤ membersMax ∧
      (∀ c ∈ r.passWord.bytes, isPrint c = true) ∧
      r.groupName.bytes = formatInt id.toInt32.toInt ∧
      r.fullName.bytes = recFormat isUser ++ formatInt id.toInt32.toInt ∧
      (g.mapRecord a r).enterName k a = .ok g') := by
  rw [casCreateGroupRec] at h
  split at h
  · cases Except.ok.inj h
    exact inl ⟨rfl, rfl⟩
  · rename_i a ha
    split at h
    · cases h
    rename_i hin
    obtain ⟨name, hname, h⟩ := bind_eq_ok.mp h
    obtain ⟨full, hfull, h⟩ := bind_eq_ok.mp h
    obtain ⟨word, -, h⟩ := bind_eq_ok.mp h
    obtain ⟨_, hid, h⟩ := bind_eq_ok.mp h
    obtain ⟨word', hword, h⟩ := bind_eq_ok.mp h
    split_ifs at h with hlen
    obtain ⟨g₁, hg₁, h⟩ := bind_eq_ok.mp h
    cases Except.ok.inj h
    refine inr ⟨a, _, rfl, ha, by simpa using hin, (idSlot_eq_ok.mp hid).1,
      ⟨rfl, rfl, rfl, rfl, rfl, rfl⟩, not_lt.mp hlen, encryptPassword_isPrint hword,
      sprintf_bytes hname, sprintf_bytes hfull, hg₁⟩

theorem lookupId_mapRecord {a : Addr} {r : GroupRecord}
    (h : (g.mapRecord a r).enterName k a = .ok g') (hid : r.groupId.toNat < groupIdMax)
    (id : GroupId) :
    g'.lookupId id = if id = r.groupId then some a else g.lookupId id := by
  rw [lookupId, lookupId, (SameRecords.enterName h).groupIdMap]
  by_cases heq : id = r.groupId
  · subst heq
    simp [mapRecord, hid]
  · simp [mapRecord, heq]

def Extends (g g' : Groups) : Prop := ∀ a r, g.heap a = some r → g'.heap a = some r

theorem casCreateGroupRec_extends {i : ℕ} {o : Option Addr}
    (h : g.casCreateGroupRec k i id ms isUser = .ok (o, g')) : g.Extends g' := by
  rcases casCreateGroupRec_cases h with ⟨-, rfl⟩ | ⟨b, r, -, -, hfree, -, -, -, -, -, -, he⟩
  · exact fun _ _ hr => hr
  · intro a r' hr
    have hne : a ≠ b := by
      rintro rfl
      rw [hfree] at hr
      cases hr
    rw [(SameRecords.enterName he).heap]
    exact (setRecord_heap_of_ne g r hne).trans hr

theorem admitGroups_extends {create : Bool} {i : ℕ} {ids : List GroupId}
    {b : Bool} (h : admitGroups k create i ids g = .ok (b, g')) :
    g.Extends g' := by
  induction ids generalizing i g with
  | nil =>
    cases Except.ok.inj h
    exact fun _ _ hr => hr
  | cons id ids ih =>
    rw [admitGroups] at h
    split at h
    · exact ih h
    · split_ifs at h
      · cases Except.ok.inj h
        exact fun _ _ hr => hr
      · obtain ⟨⟨o, g₁⟩, h₁, h⟩ := bind_eq_ok.mp h
        have hext := casCreateGroupRec_extends h₁
        cases o with
        | none =>
          cases Except.ok.inj h
          exact hext
        | some c => exact fun a r hr => ih h a r (hext a r hr)

theorem findOrCreate_lookupId {i : ℕ} {a : Addr}
    (h : g.findOrCreate k i id ms isUser = .ok (some a, g')) :
    g'.lookupId id = some a ∧ ∀ id' b, g.lookupId id' = some b → g'.lookupId id' = some b := by
  rw [findOrCreate] at h
  split at h
  · rename_i b hb
    obtain ⟨ho, rfl⟩ := Prod.mk.inj (Except.ok.inj h)
    exact ⟨hb.trans ho, fun _ _ h => h⟩
  · rename_i hnone
    rcases casCreateGroupRec_cases h with ⟨ho, -⟩ | ⟨b, r, ho, -, -, hid, hr, -, -, -, -, he⟩
    · cases ho
    · cases ho
      have hlook := lookupId_mapRecord he (hr.groupId ▸ hid)
      rw [hr.groupId] at hlook
      refine ⟨by simp [hlook], fun id' c hc => ?_⟩
      have hne : id' ≠ id := by
        rintro rfl
        rw [hnone] at hc
        cases hc
      rw [hlook, if_neg hne, hc]

end Groups

namespace Server

def Bound (s : Server) (p : Port) (i : Fin portMapMax) (a : Addr) : Prop :=
  p ≠ machPortNull ∧ hashPort s.privKeys p = .ok i ∧ (s.privPortMap i).record = some a

variable {p : Port}

theorem asCaller_cases {α : Type} {s : Server} {refused x : α}
    {body : Fin portMapMax → Addr → Outcome α} (h : s.asCaller p refused body = .ok x) :
    x = refused ∨ ∃ i a, s.Bound p i a ∧ body i a = .ok x := by
  rw [asCaller] at h
  split_ifs at h with hp
  · exact inl (Except.ok.inj h).symm
  · obtain ⟨i, hi, h⟩ := bind_eq_ok.mp h
    cases hr : (s.privPortMap i).record with
    | none =>
      rw [hr] at h
      exact inl (Except.ok.inj h).symm
    | some a =>
      rw [hr] at h
      exact inr ⟨i, a, ⟨hp, hi, hr⟩, h⟩

theorem asCaller_of_bound {α : Type} {s : Server} {i : Fin portMapMax} {a : Addr}
    (refused : α) (body : Fin portMapMax → Addr → Outcome α) (h : s.Bound p i a) :
    s.asCaller p refused body = body i a := by
  obtain ⟨hp, hi, hr⟩ := h
  rw [asCaller, if_neg hp, hi, ok_bind, hr]

variable {k : Kernel} {s s' : Server} {ret : Ret}

theorem openSession_cases {a : Addr} (h : s.openSession k a p = .ok (ret, s')) :
    (ret = .notPrimary ∧ s' = s) ∨
    (ret = .success ∧ ∃ r ids i, s.groups.heap a = some r ∧ r.groupType = asPrimary ∧
      s.groups.fillClosure k .memberships r = .ok ids ∧ hashPort s.privKeys p = .ok i ∧
      s' = s.sessionState a r ids i p) := by
  obtain ⟨r, hr, h⟩ := bind_eq_ok.mp h
  split_ifs at h with ht
  · cases Except.ok.inj h
    exact inl ⟨rfl, rfl⟩
  · obtain ⟨ids, hids, h⟩ := bind_eq_ok.mp h
    obtain ⟨i, hi, h⟩ := bind_eq_ok.mp h
    cases Except.ok.inj h
    exact inr ⟨rfl, r, ids, i, deref_eq_ok.mp hr, not_not.mp ht, hids, hi, rfl⟩

variable {w : PassWord}

theorem casLogin_cases {u : GroupName} (h : s.casLogin k u w p = .ok (ret, s')) :
    (ret ≠ .success ∧ s' = s) ∨
    (∃ a r, s.groups.lookupName (toLower u) = .ok (some a) ∧ s.groups.heap a = some r ∧
      encryptPassword w = .ok r.passWord ∧ s.openSession k a p = .ok (ret, s')) := by
  obtain ⟨o, ho, h⟩ := bind_eq_ok.mp h
  cases o with
  | none =>
    cases Except.ok.inj h
    exact inl ⟨by simp, rfl⟩
  | some a =>
    obtain ⟨r, hr, h⟩ := bind_eq_ok.mp h
    split_ifs at h with ht
    · cases Except.ok.inj h
      exact inl ⟨by simp, rfl⟩
    · obtain ⟨given, hgiven, h⟩ := bind_eq_ok.mp h
      split_ifs at h with hw
      · cases Except.ok.inj h
        exact inl ⟨by simp, rfl⟩
      · obtain rfl := not_not.mp hw
        exact inr ⟨a, r, ho, deref_eq_ok.mp hr, hgiven, h⟩

def Administrator (s : Server) (p : Port) : Prop :=
  ∃ i a c, s.Bound p i a ∧ s.groups.heap a = some c ∧ checkForMembership sysAdmId c = true

theorem casLoginPriv_cases {p q : Port} {u : GroupId} (h : s.casLoginPriv k p u q = .ok (ret, s')) :
    (ret ≠ .success ∧ s' = s) ∨ (∃ a, s.Administrator p ∧ s.groups.lookupId u = some a ∧
      s.openSession k a q = .ok (ret, s')) := by
  rcases asCaller_cases h with h | ⟨i, caller, hb, h⟩
  · cases h
    exact inl ⟨by simp, rfl⟩
  · obtain ⟨c, hr, h⟩ := bind_eq_ok.mp h
    split_ifs at h with hc
    · cases Except.ok.inj h
      exact inl ⟨by simp, rfl⟩
    · cases hu : s.groups.lookupId u with
      | none =>
        rw [hu] at h
        cases Except.ok.inj h
        exact inl ⟨by simp, rfl⟩
      | some a =>
        rw [hu] at h
        exact inr ⟨a, ⟨i, caller, c, hb, deref_eq_ok.mp hr, by simpa using hc⟩, rfl, h⟩

theorem casLoginCreate_cases {p q : Port} {id : List GroupId}
    (h : s.casLoginCreate k p id q = .ok (ret, s')) :
    (ret ≠ .success ∧ ∃ g, s' = s.withGroups g) ∨
    (∃ user group rest login g₁ other g₂, id = user :: group :: rest ∧
      s.groups.findOrCreate k 0 user id true = .ok (some login, g₁) ∧
      g₁.findOrCreate k 1 group [] false = .ok (some other, g₂) ∧
      (s.withGroups g₂).openSession k login q = .ok (ret, s')) := by
  rcases asCaller_cases h with h | ⟨i, caller, -, h⟩
  · obtain ⟨rfl, rfl⟩ := Prod.mk.inj h
    exact inl ⟨by simp, s'.groups, rfl⟩
  · obtain ⟨c, -, h⟩ := bind_eq_ok.mp h
    split_ifs at h with hc
    · cases Except.ok.inj h
      exact inl ⟨by simp, s.groups, rfl⟩
    · cases id with
      | nil => cases h
      | cons user rest =>
        obtain ⟨⟨o, g₁⟩, h₁, h⟩ := bind_eq_ok.mp h
        cases o with
        | none =>
          cases Except.ok.inj h
          exact inl ⟨by simp, g₁, rfl⟩
        | some login =>
          cases rest with
          | nil => cases h
          | cons group rest =>
            obtain ⟨⟨o, g₂⟩, h₂, h⟩ := bind_eq_ok.mp h
            cases o with
            | none =>
              cases Except.ok.inj h
              exact inl ⟨by simp, g₂, rfl⟩
            | some other =>
              exact inr ⟨user, group, rest, login, g₁, other, g₂, rfl, h₁, h₂, h⟩

theorem casLogout_cases (h : s.casLogout p = .ok (ret, s')) :
    (ret = .badPrivatePort ∧ s' = s) ∨
    (ret = .success ∧ ∃ i a r, s.Bound p i a ∧ s.groups.heap a = some r ∧
      s' = s.logoutState p i a r) := by
  rcases asCaller_cases h with h | ⟨i, a, hb, h⟩
  · cases h
    exact inl ⟨rfl, rfl⟩
  · obtain ⟨r, hr, h⟩ := bind_eq_ok.mp h
    cases Except.ok.inj h
    exact inr ⟨rfl, i, a, r, hb, deref_eq_ok.mp hr, rfl⟩

theorem casRegisterToken_cases {p t : Port} {ids : List GroupId}
    {create : Bool} (h : s.casRegisterToken k p ids t create = .ok (ret, s')) :
    (ret = .badPrivatePort ∧ s' = s) ∨ (∃ i a r g, s.Bound p i a ∧ s.groups.heap a = some r ∧
      ((ret = .badGroup ∧ s' = s.withGroups g ∧
          admitToken k s.groups r ids create = .ok (false, g)) ∨
        (∃ j, hashPort s.regKeys t = .ok j ∧ admitToken k s.groups r ids create = .ok (true, g) ∧
          ((ret = .failure ∧ ids = [] ∧ r.trMemberships ≠ [] ∧ k.list = false ∧
              s' = (s.withGroups g).setReg j { s.regPortMap j with groupIds := [] }) ∨
            (ret = .success ∧ ¬(ids = [] ∧ r.trMemberships ≠ [] ∧ k.list = false) ∧
              s' = (s.withGroups g).setReg j (tokenEntry r p ids t)))))) := by
  rcases asCaller_cases h with h | ⟨i, a, hb, h⟩
  · cases h
    exact inl ⟨rfl, rfl⟩
  · obtain ⟨r, hr, h⟩ := bind_eq_ok.mp h
    obtain ⟨⟨ok, g⟩, hg, h⟩ := bind_eq_ok.mp h
    refine inr ⟨i, a, r, g, hb, deref_eq_ok.mp hr, ?_⟩
    cases ok with
    | false =>
      cases Except.ok.inj h
      exact inl ⟨rfl, rfl, hg⟩
    | true =>
      obtain ⟨j, hj, h⟩ := bind_eq_ok.mp h
      refine inr ⟨j, hj, hg, ?_⟩
      split_ifs at h with hf
      · cases Except.ok.inj h
        exact inl ⟨rfl, hf.1, hf.2.1, hf.2.2, rfl⟩
      · cases Except.ok.inj h
        exact inr ⟨rfl, hf, rfl⟩

theorem admitToken_extends {g g' : Groups} {r : GroupRecord} {ids : List GroupId}
    {create b : Bool} (h : admitToken k g r ids create = .ok (b, g')) : g.Extends g' := by
  rw [admitToken] at h
  split_ifs at h
  · cases Except.ok.inj h
    exact fun _ _ hr => hr
  · exact admitGroups_extends h
  · obtain ⟨ok, -, h⟩ := bind_eq_ok.mp h
    cases Except.ok.inj h
    exact fun _ _ hr => hr

theorem casDeleteToken_cases {p t : Port} (h : s.casDeleteToken k p t = .ok (ret, s')) :
    s' = s ∨
    (∃ i a j, s.Bound p i a ∧ hashPort s.regKeys t = .ok j ∧ (s.regPortMap j).privatePort = p ∧
      s' = s.setReg j RegSlot.blank) := by
  rcases asCaller_cases h with h | ⟨i, a, hb, h⟩
  · exact inl (Prod.mk.inj h).2
  · obtain ⟨j, hj, h⟩ := bind_eq_ok.mp h
    split at h
    · exact inl (Prod.mk.inj (Except.ok.inj h)).2.symm
    · rename_i hp
      exact inr ⟨i, a, j, hb, hj, not_not.mp hp, (Prod.mk.inj (Except.ok.inj h)).2.symm⟩

def EditsGroups (s : Server) (x : Outcome (Ret × Server)) : Prop :=
  ∀ ret s', x = .ok (ret, s') → ∃ g, s' = s.withGroups g

theorem EditsGroups.keep (s : Server) (ret : Ret) : s.EditsGroups (.ok (ret, s)) := by
  intro ret' s' h
  exact ⟨s.groups, (Prod.mk.inj (Except.ok.inj h)).2.symm⟩

theorem EditsGroups.put (s : Server) (ret : Ret) (g : Groups) :
    s.EditsGroups (.ok (ret, s.withGroups g)) := by
  intro ret' s' h
  exact ⟨g, (Prod.mk.inj (Except.ok.inj h)).2.symm⟩

theorem EditsGroups.bind {α : Type} {x : Outcome α} {f : α → Outcome (Ret × Server)}
    (h : ∀ a, x = .ok a → s.EditsGroups (f a)) : s.EditsGroups (x >>= f) := by
  intro ret s' hx
  obtain ⟨a, ha, hf⟩ := bind_eq_ok.mp hx
  exact h a ha ret s' hf

theorem EditsGroups.ite {c : Prop} [Decidable c] {x y : Outcome (Ret × Server)}
    (hx : s.EditsGroups x) (hy : s.EditsGroups y) : s.EditsGroups (if c then x else y) := by
  split_ifs
  · exact hx
  · exact hy

theorem EditsGroups.asCaller {body : Fin portMapMax → Addr → Outcome (Ret × Server)}
    (h : ∀ i a, s.EditsGroups (body i a)) : s.EditsGroups (s.asCaller p (ret, s) body) := by
  intro ret' s' hx
  rcases asCaller_cases hx with hx | ⟨i, a, -, hx⟩
  · exact ⟨s.groups, (Prod.mk.inj hx).2⟩
  · exact h i a ret' s' hx

theorem casDeleteGroup_edits (k : Kernel) (s : Server) (p : Port) (n : GroupName) :
    s.EditsGroups (s.casDeleteGroup k p n) := by
  refine .asCaller fun _ _ => .bind fun o _ => ?_
  cases o with
  | none => exact .keep s _
  | some a =>
    refine .bind fun r _ => .bind fun c _ => .ite (.keep s _) (.bind fun g _ => .put s _ g)

theorem casChangeOwner_edits (s : Server) (p : Port) (n o : GroupName) :
    s.EditsGroups (s.casChangeOwner p n o) := by
  refine .asCaller fun _ _ => .bind fun x _ => ?_
  cases x with
  | none => exact .keep s _
  | some a =>
    refine .bind fun r _ => .bind fun c _ => .ite (.keep s _) (.bind fun y _ => ?_)
    cases y with
    | none => exact .keep s _
    | some b => exact .bind fun owner _ => .put s _ _

theorem casChangePassword_edits (s : Server) (p : Port) (n : GroupName) (w w' : PassWord) :
    s.EditsGroups (s.casChangePassword p n w w') := by
  refine .asCaller fun _ _ => .bind fun x _ => ?_
  cases x with
  | none => exact .keep s _
  | some a =>
    refine .bind fun r _ => .ite (.keep s _) (.bind fun c _ => .bind fun y _ => ?_)
    cases y with
    | none => exact .bind fun word _ => .put s _ _
    | some ret => exact .keep s _

theorem casAddToGroup_edits (s : Server) (p : Port) (n m : GroupName) :
    s.EditsGroups (s.casAddToGroup p n m) := by
  refine .asCaller fun _ _ => .bind fun x _ => ?_
  cases x with
  | none => exact .keep s _
  | some a =>
    refine .bind fun r _ => .ite (.keep s _) (.bind fun y _ => ?_)
    cases y with
    | none => exact .keep s _
    | some b =>
      exact .bind fun added _ => .bind fun c _ => .ite (.keep s _)
        (.bind fun g _ => .bind fun g' _ => .put s _ g')

theorem casRemoveFromGroup_edits (s : Server) (p : Port) (n m : GroupName) :
    s.EditsGroups (s.casRemoveFromGroup p n m) := by
  refine .asCaller fun _ _ => .bind fun x _ => ?_
  cases x with
  | none => exact .keep s _
  | some a =>
    refine .bind fun r _ => .ite (.keep s _) (.bind fun y _ => ?_)
    cases y with
    | none => exact .keep s _
    | some b =>
      exact .bind fun removed _ => .bind fun c _ => .ite (.keep s _)
        (.bind fun g _ => .bind fun g' _ => .put s _ g')

theorem createRecord_edits {n : GroupName} {ty : GroupType}
    {f : FullName} {o : Option GroupId} {id id' : GroupId}
    (h : s.createRecord k n ty f w o id = .ok (ret, id', s')) : ∃ g, s' = s.withGroups g := by
  rw [createRecord] at h
  split at h
  · obtain ⟨-, h⟩ := Prod.mk.inj (Except.ok.inj h)
    exact ⟨s.groups, (Prod.mk.inj h).2.symm⟩
  · split_ifs at h
    obtain ⟨word, -, h⟩ := bind_eq_ok.mp h
    obtain ⟨g, -, h⟩ := bind_eq_ok.mp h
    obtain ⟨-, h⟩ := Prod.mk.inj (Except.ok.inj h)
    exact ⟨g, (Prod.mk.inj h).2.symm⟩

theorem casCreateGroup_edits {n o : GroupName} {ty : GroupType} {f : FullName} {id id' : GroupId}
    (h : s.casCreateGroup k p n ty f w o id = .ok (ret, id', s')) : ∃ g, s' = s.withGroups g := by
  have keep {ret₀ ret₁ : Ret} {id₀ id₁ : GroupId} {s₁ : Server}
      (h : (.ok (ret₀, id₀, s) : Outcome (Ret × GroupId × Server)) = .ok (ret₁, id₁, s₁)) :
      ∃ g, s₁ = s.withGroups g :=
    ⟨s.groups, (Prod.mk.inj (Prod.mk.inj (Except.ok.inj h)).2).2.symm⟩
  rcases asCaller_cases h with h | ⟨i, caller, -, h⟩
  · exact keep (congrArg Except.ok h.symm)
  · obtain ⟨c, -, h⟩ := bind_eq_ok.mp h
    split_ifs at h
    · exact keep h
    · obtain ⟨x, -, h⟩ := bind_eq_ok.mp h
      cases x with
      | error ret => exact keep h
      | ok owner =>
        obtain ⟨y, -, h⟩ := bind_eq_ok.mp h
        cases y with
        | some b => exact keep h
        | none =>
          obtain ⟨z, -, h⟩ := bind_eq_ok.mp h
          cases z with
          | error ret => exact keep h
          | ok id => exact createRecord_edits h

end Server

end MachUS.Auth

namespace MachUS.Auth

open Text Relation Transition

def RegSlot.zero : RegSlot := ⟨machPortNull, machPortNull, [], 0⟩

namespace Server

def boot (g : Groups) : Server := ⟨g, fun _ => PrivSlot.blank, fun _ => RegSlot.zero⟩

def next (s : Server) (e : Kernel × Op) : Option Server := (s.step e.1 e.2).toOption.map Prod.snd

theorem next_eq_some {s s' : Server} {e : Kernel × Op} :
    s.next e = some s' ↔ ∃ ret, s.step e.1 e.2 = .ok (ret, s') := by
  rw [next]
  cases h : s.step e.1 e.2 with
  | error t => simp [Except.toOption]
  | ok x =>
    obtain ⟨ret, s₁⟩ := x
    simp [Except.toOption]

def Reachable (s : Server) : Prop :=
  ∃ g, ReflTransGen (Under next Free) (boot g) s

theorem reachable_of_exec {g : Groups} {s : Server} {es : List (Kernel × Op)}
    (h : exec next (boot g) es = some s) : s.Reachable :=
  ⟨g, run_of_exec (free_admits _ _) h⟩

end Server

namespace Sample

def text (size : ℕ) (b : Bytes)
    (h : decide (b.length < size ∧ (0 : UInt8) ∉ b) = true := by exact Eq.refl true) :
    CString size := ⟨b, (of_decide_eq_true h).1, (of_decide_eq_true h).2⟩

def kernel (a : Addr) : Kernel where
  record := fun i => some (a + i)
  list := true
  table := true
  vmDeallocate := .success
  strayKr := .success
  stray := fun _ => none

def word : PassWord := ⟨[112, 119] ++ List.replicate 14 0, by decide⟩

def stored : PassWord := (encryptPassword word).toOption.getD PassWord.zero

def group (name : Bytes) (id : GroupId) (type : GroupType) (members memberships : List GroupId)
    (h : decide (name.length < 64 ∧ (0 : UInt8) ∉ name) = true := by exact Eq.refl true) :
    GroupRecord where
  groupName := text 64 name h
  groupId := id
  groupType := type
  fullName := text 256 []
  ownerId := sysAdmId
  passWord := if type = asPrimary then stored else PassWord.zero
  trMemberships := []
  members := members
  memberships := memberships

def groups : Groups where
  heap := fun a => [group [115] 1 1 [2] [], group [97] 2 0 [] [1], group [98] 3 0 [] [4],
    group [103] 4 1 [3] [], group [99] 5 0 [] []][a]?
  groupIdMap := fun id => if 1 ≤ id ∧ id ≤ 5 then some (id.toNat - 1) else none
  names :=
    { slots := (List.range 32).map fun i =>
        [(19, 0), (1, 1), (2, 2), (7, 3), (3, 4)].lookup i
      limit := 25
      numEntries := 5 }

def server : Server := Server.boot groups

end Sample

end MachUS.Auth
