import MachUS.Auth.TokenAuthenticity

namespace MachUS.Auth

open Text Probing Server Outcome Option Groups Except Function

def SameAnswers (r : GroupRecord) (ids : List GroupId) : Prop :=
  ∀ id, checkForMembership id { r with trMemberships := ids } = checkForMembership id r

theorem sameAnswers_iff {r : GroupRecord} {ids : List GroupId} :
    SameAnswers r ids ↔
      ∀ id, (id = r.groupId ∨ id ∈ ids) ↔ (id = r.groupId ∨ id ∈ r.trMemberships) := by
  refine forall_congr' fun id => ?_
  rw [Bool.eq_iff_iff, checkForMembership_iff, checkForMembership_iff]

theorem sameAnswers_nil {r : GroupRecord} :
    SameAnswers r [] ↔ ∀ id ∈ r.trMemberships, id = r.groupId := by
  rw [sameAnswers_iff]
  refine forall_congr' fun id => ?_
  simp only [List.not_mem_nil, or_false]
  constructor
  · intro h hid
    exact h.mpr (Or.inr hid)
  · intro h
    exact ⟨Or.inl, fun hid => hid.elim (fun h => h) h⟩

namespace Server

structure Isolated (s s' : Server) (l : Ledger) (q : Port) (a : Addr) (r : GroupRecord) :
    Prop where
  binding : ∃ i, s'.Bound q i a
  answers : ∃ r', s'.groups.heap a = some r' ∧
    ∀ id, checkForMembership id r' = checkForMembership id r
  tokens : ∀ t e, l.tokens t = some e → e.owner = q → s'.casVerifyTokenIds t = s.casVerifyTokenIds t

def TokensApart (s : Server) (l : Ledger) (q : Port) (gone : Fin portMapMax → Prop) : Prop :=
  ∀ t e j, l.tokens t = some e → e.owner = q → s.regKeys j = t →
    ∀ i, gone i → ¬Before (hashHome t) i j

end Server

namespace Op

def ApartFrom (q : Port) : Op → Prop
  | .login _ _ r => r ≠ q
  | .loginPriv p _ r => p ≠ q ∧ r ≠ q
  | .logout p => p ≠ q
  | .registerToken p _ _ _ => p ≠ q
  | .deleteToken p _ => p ≠ q
  | _ => False

def OpensAs (s : Server) (a : Addr) (r : GroupRecord) : Op → Prop
  | .login u w _ => s.groups.lookupName (toLower u) = .ok (some a) ∧ r.groupType = asPrimary ∧
      encryptPassword w = .ok r.passWord
  | .loginPriv p u _ => s.Administrator p ∧ s.groups.lookupId u = some a ∧
      r.groupType = asPrimary
  | _ => False

def SparesSession (k : Kernel) (s : Server) (l : Ledger) (q : Port) (a : Addr) (r : GroupRecord)
    (op : Op) : Prop :=
  match op with
  | .logout p => ∀ i b, s.Bound p i b →
      (∀ j, s.privKeys j = q → ¬Before (hashHome q) i j) ∧
      (b = a → ∀ id ∈ r.trMemberships, id = r.groupId) ∧
      s.TokensApart l q (fun j => (s.regPortMap j).privatePort = p)
  | .registerToken p ids t create => ∀ i b c e, s.Bound p i b → s.groups.heap b = some c →
      l.tokens t = some e → e.owner = q →
      (∃ g, admitToken k s.groups c ids create = .ok (true, g)) →
      if ids = [] ∧ c.trMemberships ≠ [] ∧ k.list = false then e.groupIds = []
      else c.groupId = e.userId ∧ (if ids = [] then c.trMemberships else ids) = e.groupIds
  | .deleteToken p t =>
      s.TokensApart l q (fun j => s.regKeys j = t ∧ (s.regPortMap j).privatePort = p)
  | _ => op.OpensAs s a r → ∀ ids, s.groups.doTransitiveClosure .memberships r = .ok ids →
      ∀ id, (id = r.groupId ∨ id ∈ ids) ↔ (id = r.groupId ∨ id ∈ r.trMemberships)

end Op

namespace PortInv

variable {s s' : Server} {l : Ledger} {q : Port} {a : Addr} {r : GroupRecord} {k : Kernel}

theorem isolated_refl (h : PortInv s l) (hq : l.sessions q = some a)
    (hr : s.groups.heap a = some r) : s.Isolated s l q a r :=
  ⟨h.bound_iff.mpr hq, ⟨r, hr, fun _ => rfl⟩, fun _ _ _ _ => rfl⟩

variable {i : Fin portMapMax} {p : Port}

theorem binding_kept (h : PortInv s l) (hq : l.sessions q = some a) (hp : p ≠ q)
    (hi : hashPort s.privKeys p = .ok i) {e : PrivSlot}
    (he : e.mappedPort = p) (hmap : s'.privPortMap = update s.privPortMap i e) :
    ∃ j, s'.Bound q j a := by
  obtain ⟨hne, -⟩ := h.priv.slot q a hq
  obtain ⟨j, hj, hkey, ha⟩ := h.priv.find_live hq
  obtain ⟨hij, hj'⟩ := probe_update_of_ne hne hj hkey hp (hashPort_eq_ok.mp hi)
  have hkeys : s'.privKeys = update s.privKeys i p := by
    funext x
    rw [privKeys, hmap]
    by_cases hx : x = i
    · subst hx
      simp [he]
    · simp [hx, privKeys]
  refine ⟨j, hne, ?_, ?_⟩
  · rw [hkeys]
    exact hashPort_eq_ok.mpr hj'
  · rw [hmap, update_of_ne hij.symm]
    exact ha

variable {b : Addr}

section

variable (h : PortInv s l) (hq : l.sessions q = some a) (hr : s.groups.heap a = some r)

include h hq hr

theorem isolated_openSession (hp : p ≠ q) {c : GroupRecord}
    {ids : List GroupId} (hi : hashPort s.privKeys p = .ok i) (hc : s.groups.heap b = some c) :
    s.Isolated (s.sessionState b c ids i p) l q a r ↔ (b = a → SameAnswers r ids) := by
  have hbind : ∃ j, (s.sessionState b c ids i p).Bound q j a :=
    h.binding_kept hq hp hi (e := ⟨p, some b⟩) rfl rfl
  constructor
  · rintro hiso rfl
    obtain rfl : c = r := some.inj (hc.symm.trans hr)
    obtain ⟨r', hr', hans⟩ := hiso.answers
    have hrec : (s.sessionState b c ids i p).groups.heap b = some { c with trMemberships := ids } :=
      setRecord_heap_self _ _ _
    rw [hrec] at hr'
    cases hr'
    exact hans
  · intro hsame
    refine ⟨hbind, ?_, fun _ _ _ _ => rfl⟩
    by_cases hba : b = a
    · subst hba
      obtain rfl : c = r := some.inj (hc.symm.trans hr)
      exact ⟨_, setRecord_heap_self _ _ _, hsame rfl⟩
    · exact ⟨r, (setRecord_heap_of_ne _ _ (Ne.symm hba)).trans hr, fun _ => rfl⟩

theorem isolated_opens (hp : p ≠ q) (ret : Ret) {opens : Prop}
    (hopen : opens → r.groupType = asPrimary ∧ s.openSession k a p = .ok (ret, s'))
    (hother : ¬opens → s' = s ∨ ∃ b c, s.groups.heap b = some c ∧ b ≠ a ∧
      s.openSession k b p = .ok (ret, s')) :
    s.Isolated s' l q a r ↔ (opens → ∀ ids, s.groups.doTransitiveClosure .memberships r = .ok ids →
        SameAnswers r ids) := by
  by_cases hopens : opens
  · obtain ⟨htype, hstep⟩ := hopen hopens
    rcases openSession_cases hstep with ⟨rfl, rfl⟩ | ⟨rfl, c, ids, i, hc, ht, hids, hi, rfl⟩
    · obtain ⟨c, hc, hs⟩ := bind_eq_ok.mp hstep
      obtain rfl : c = r := some.inj ((deref_eq_ok.mp hc).symm.trans hr)
      rw [if_neg (not_not.mpr htype)] at hs
      obtain ⟨ids, -, hs⟩ := bind_eq_ok.mp hs
      obtain ⟨i, -, hs⟩ := bind_eq_ok.mp hs
      cases (Prod.mk.inj (ok.inj hs)).1
    · obtain rfl : c = r := some.inj (hc.symm.trans hr)
      rw [h.isolated_openSession hq hr hp hi hr]
      obtain ⟨ids', hids', hfill⟩ := bind_eq_ok.mp hids
      have hclosure : s.groups.doTransitiveClosure .memberships c = .ok ids := by
        split_ifs at hfill
        rwa [← ok.inj hfill]
      constructor
      · intro hsame _ ids₂ h₂
        rw [hclosure] at h₂
        rw [← ok.inj h₂]
        exact hsame rfl
      · intro hsame _
        exact hsame hopens ids hclosure
  · simp only [hopens, false_imp_iff, iff_true]
    rcases hother hopens with rfl | ⟨b, c, hc, hne, hstep⟩
    · exact h.isolated_refl hq hr
    · rcases openSession_cases hstep with ⟨-, rfl⟩ | ⟨-, c', ids, i, hc', -, -, hi, rfl⟩
      · exact h.isolated_refl hq hr
      · exact (h.isolated_openSession hq hr hp hi hc').mpr fun hba => absurd hba hne

theorem isolated_login {u : GroupName} {w : PassWord} {ret : Ret}
    (hp : p ≠ q) (hstep : s.casLogin k u w p = .ok (ret, s')) :
    s.Isolated s' l q a r ↔ (Op.login u w p).SparesSession k s l q a r := by
  have hspares : (Op.login u w p).SparesSession k s l q a r ↔
      ((Op.login u w p).OpensAs s a r → ∀ ids,
        s.groups.doTransitiveClosure .memberships r = .ok ids → SameAnswers r ids) := by
    simp only [sameAnswers_iff]
    rfl
  rw [hspares]
  refine h.isolated_opens (k := k) hq hr hp ret ?_ ?_
  · rintro ⟨hname, htype, hword⟩
    refine ⟨htype, ?_⟩
    rw [casLogin, hname, ok_bind] at hstep
    simpa only [deref_eq_ok.mpr hr, ok_bind, htype, hword, ne_eq,
      not_true_eq_false, if_false] using hstep
  · intro hno
    rcases casLogin_cases hstep with ⟨-, rfl⟩ | ⟨b, c, hb, hc, hw, hopen⟩
    · exact Or.inl rfl
    · rcases openSession_cases hopen with ⟨-, rfl⟩ | ⟨-, c', ids, i, hc', ht, -⟩
      · exact Or.inl rfl
      · obtain rfl : c' = c := some.inj (hc'.symm.trans hc)
        refine Or.inr ⟨b, c', hc, ?_, hopen⟩
        rintro rfl
        obtain rfl : c' = r := some.inj (hc.symm.trans hr)
        exact hno ⟨hb, ht, hw⟩

theorem isolated_loginPriv {u : GroupId} {p p' : Port} {ret : Ret}
    (hp : p' ≠ q) (hstep : s.casLoginPriv k p u p' = .ok (ret, s')) :
    s.Isolated s' l q a r ↔ (Op.loginPriv p u p').SparesSession k s l q a r := by
  have hspares : (Op.loginPriv p u p').SparesSession k s l q a r ↔
      ((Op.loginPriv p u p').OpensAs s a r → ∀ ids,
        s.groups.doTransitiveClosure .memberships r = .ok ids → SameAnswers r ids) := by
    simp only [sameAnswers_iff]
    rfl
  rw [hspares]
  refine h.isolated_opens (k := k) hq hr hp ret ?_ ?_
  · rintro ⟨⟨i, b, c, hb, hc, hadm⟩, hid, htype⟩
    refine ⟨htype, ?_⟩
    rw [casLoginPriv, asCaller_of_bound _ _ hb, deref_eq_ok.mpr hc,
      ok_bind, if_neg (by simp [hadm]), hid] at hstep
    exact hstep
  · intro hno
    rcases casLoginPriv_cases hstep with ⟨-, rfl⟩ | ⟨b, hadm, hb, hopen⟩
    · exact Or.inl rfl
    · rcases openSession_cases hopen with ⟨-, rfl⟩ | ⟨-, c, ids, i, hc, ht, -⟩
      · exact Or.inl rfl
      · refine Or.inr ⟨b, c, hc, ?_, hopen⟩
        rintro rfl
        obtain rfl : c = r := some.inj (hc.symm.trans hr)
        exact hno ⟨hadm, hb, ht⟩

end

theorem verify_blank_iff (h : PortInv s l) {t : Port} (ht : t ≠ machPortNull)
    {j : Fin portMapMax} (hj : s.regKeys j = t) {gone : Fin portMapMax → Prop}
    [DecidablePred gone] (hg : ¬gone j)
    (hmap : s'.regPortMap = fun i => if gone i then RegSlot.blank else s.regPortMap i) :
    s'.casVerifyTokenIds t = s.casVerifyTokenIds t ↔ ∀ i, gone i → ¬Before (hashHome t) i j := by
  have hkeys : s'.regKeys = blank machPortNull s.regKeys gone := by
    funext i
    rw [regKeys, hmap, blank]
    by_cases hgi : gone i
    · simp [hgi, RegSlot.blank]
    · simp [hgi, regKeys]
  have hfind : probe s.regKeys machPortNull (hashHome t) t = some j :=
    h.reg.chained.probe_live ht hj
  rw [← probe_blank_iff hfind hj hg, ← hkeys, casVerifyTokenIds_hit (hashPort_eq_ok.mpr hfind) hj]
  constructor
  · intro hv
    obtain ⟨i, hi, hv'⟩ := bind_eq_ok.mp hv
    have hki : s'.regKeys i = t := by
      by_contra hne
      rw [casVerifyTokenIds_miss hi hne] at hv
      cases (Prod.mk.inj (ok.inj hv)).1
    have hgi : ¬gone i := by
      intro hgone
      rw [hkeys, blank, if_pos hgone] at hki
      exact ht hki.symm
    rw [hkeys, blank_of_not hgi] at hki
    obtain rfl : i = j := h.reg.chained.injective (i := i) (j := j) (hki.trans_ne ht)
      (hki.trans hj.symm)
    exact hashPort_eq_ok.mp hi
  · intro hv
    have hslot : s'.regPortMap j = s.regPortMap j := by
      rw [hmap]
      exact if_neg hg
    have hkj : s'.regKeys j = t := by
      rw [regKeys, hslot]
      exact hj
    rw [casVerifyTokenIds_hit (hashPort_eq_ok.mpr hv) hkj, hslot]

theorem tokens_blank_iff (h : PortInv s l) {gone : Fin portMapMax → Prop} [DecidablePred gone]
    (hown : ∀ j, (s.regPortMap j).privatePort = q → ¬gone j)
    (hmap : s'.regPortMap = fun i => if gone i then RegSlot.blank else s.regPortMap i) :
    (∀ t e, l.tokens t = some e → e.owner = q →
      s'.casVerifyTokenIds t = s.casVerifyTokenIds t) ↔ s.TokensApart l q gone := by
  have hlive : ∀ t e, l.tokens t = some e → e.owner = q → ∃ j, s.regKeys j = t ∧ ¬gone j := by
    intro t e he howner
    obtain ⟨j, -, hkey, hpp, -⟩ := h.reg.find_live he
    exact ⟨j, hkey, hown j (hpp.symm.trans howner)⟩
  constructor
  · intro hv t e j he howner hj
    have ht : t ≠ machPortNull := (h.reg.slot t e he).1
    obtain ⟨i, hi, hg⟩ := hlive t e he howner
    obtain rfl : i = j := h.reg.chained.injective (i := i) (j := j) (hi.trans_ne ht)
      (hi.trans hj.symm)
    exact (h.verify_blank_iff ht hj hg hmap).mp (hv t e he howner)
  · intro hap t e he howner
    have ht : t ≠ machPortNull := (h.reg.slot t e he).1
    obtain ⟨j, hj, hg⟩ := hlive t e he howner
    exact (h.verify_blank_iff ht hj hg hmap).mpr (hap t e j he howner hj)

theorem bound_slot (h : PortInv s l) (hb : s.Bound p i b) : s.privKeys i = p := by
  obtain ⟨j, hj, hkey, -⟩ := h.priv.find_live (h.bound_iff.mp ⟨i, hb⟩)
  obtain rfl : i = j := ok.inj (hb.2.1.symm.trans (privLayout_find.mp hj))
  exact hkey

theorem binding_logout_iff (h : PortInv s l) (hq : l.sessions q = some a) (hp : p ≠ q)
    (hb : s.Bound p i b) (c : GroupRecord) :
    (∃ j, (s.logoutState p i b c).Bound q j a) ↔
      ∀ j, s.privKeys j = q → ¬Before (hashHome q) i j := by
  obtain ⟨hne, -⟩ := h.priv.slot q a hq
  obtain ⟨j, hj, hkey, ha⟩ := h.priv.find_live hq
  have hip := h.bound_slot hb
  have hji : j ≠ i := by
    rintro rfl
    exact hp (hip.symm.trans hkey)
  have hkeys : (s.logoutState p i b c).privKeys = blank machPortNull s.privKeys (· = i) := by
    funext x
    by_cases hx : x = i
    · subst hx
      simp [privKeys, logoutState, blank, PrivSlot.blank]
    · simp [privKeys, logoutState, blank, hx]
  have hiff := probe_blank_iff hj hkey (g := (· = i)) hji
  constructor
  · rintro ⟨j', -, hj', hr'⟩ x hx
    have hj'i : j' ≠ i := by
      rintro rfl
      simp [logoutState, PrivSlot.blank] at hr'
    have hkj' : s.privKeys j' = q := by
      have hkeep : (s.logoutState p i b c).privKeys j' = s.privKeys j' := by
        rw [hkeys]
        exact if_neg hj'i
      rcases (probe_stops (hashPort_eq_ok.mp hj')).1 with hs | hs
      · rwa [hkeep] at hs
      · rw [hkeep] at hs
        have hvac := h.priv.empty j' hs
        simp only [logoutState, update_of_ne hj'i] at hr'
        rw [show s.privPortMap j' = PrivSlot.blank from hvac] at hr'
        cases hr'
    have inj {x y : Fin portMapMax} (hx : s.privKeys x = q) (hy : s.privKeys y = q) : x = y :=
      h.priv.chained.injective (i := x) (j := y) (hx.trans_ne hne) (hx.trans hy.symm)
    obtain rfl : j' = j := inj hkj' hkey
    obtain rfl : x = j' := inj hx hkj'
    rw [hkeys, hashPort_eq_ok] at hj'
    exact hiff.mp hj' i rfl
  · intro hbefore
    refine ⟨j, hne, ?_, ?_⟩
    · rw [hkeys, hashPort_eq_ok]
      refine hiff.mpr ?_
      rintro x rfl
      exact hbefore j hkey
    · simp only [logoutState, update_of_ne hji]
      exact ha

theorem answers_logout_iff (hr : s.groups.heap a = some r)
    {c : GroupRecord} (hc : s.groups.heap b = some c) :
    (∃ r', (s.logoutState p i b c).groups.heap a = some r' ∧
      ∀ id, checkForMembership id r' = checkForMembership id r) ↔
      (b = a → ∀ id ∈ r.trMemberships, id = r.groupId) := by
  by_cases hba : b = a
  · subst hba
    obtain rfl : c = r := some.inj (hc.symm.trans hr)
    rw [← sameAnswers_nil]
    simp [logoutState, SameAnswers]
  · have hkeep : (s.logoutState p i b c).groups.heap a = some r :=
      (setRecord_heap_of_ne _ _ (Ne.symm hba)).trans hr
    simp [hkeep, hba]

theorem isolated_logout (h : PortInv s l) (hq : l.sessions q = some a)
    (hr : s.groups.heap a = some r) {ret : Ret} (hp : p ≠ q)
    (hstep : s.casLogout p = .ok (ret, s')) :
    s.Isolated s' l q a r ↔ (Op.logout p).SparesSession k s l q a r := by
  rcases casLogout_cases hstep with ⟨rfl, rfl⟩ | ⟨rfl, i, b, c, hb, hc, rfl⟩
  · refine iff_of_true (h.isolated_refl hq hr) fun i b hb => ?_
    obtain ⟨x, hx⟩ := h.bound_iff.mpr (h.bound_iff.mp ⟨i, hb⟩)
    rw [casLogout, asCaller_of_bound _ _ hb] at hstep
    obtain ⟨c, -, hs⟩ := bind_eq_ok.mp hstep
    cases (Prod.mk.inj (ok.inj hs)).1
  · have hown : ∀ j, (s.regPortMap j).privatePort = q → ¬(s.regPortMap j).privatePort = p := by
      intro j hj hj'
      exact hp (hj'.symm.trans hj)
    have htok := @tokens_blank_iff s (s.logoutState p i b c) l q h _ _ hown rfl
    constructor
    · intro hiso i' b' hb'
      obtain rfl : i' = i := ok.inj (hb'.2.1.symm.trans hb.2.1)
      obtain rfl : b' = b := some.inj (hb'.2.2.symm.trans hb.2.2)
      exact ⟨(h.binding_logout_iff hq hp hb c).mp hiso.binding,
        (answers_logout_iff hr hc).mp hiso.answers, htok.mp hiso.tokens⟩
    · intro hsp
      obtain ⟨h1, h2, h3⟩ := hsp i b hb
      exact ⟨(h.binding_logout_iff hq hp hb c).mpr h1, (answers_logout_iff hr hc).mpr h2,
        htok.mpr h3⟩

end PortInv

end MachUS.Auth

namespace MachUS.Auth

open Relation Probing Transition Ledger

namespace PortInv

variable {s s' : Server} {l : Ledger} {q : Port} {a : Addr} {r : GroupRecord} {k : Kernel}

theorem isolated_tokens (h : PortInv s l) (hq : l.sessions q = some a)
    (hr : s.groups.heap a = some r) (hpriv : s'.privPortMap = s.privPortMap)
    (hheap : s.groups.Extends s'.groups) :
    s.Isolated s' l q a r ↔ ∀ t e, l.tokens t = some e → e.owner = q →
      s'.casVerifyTokenIds t = s.casVerifyTokenIds t := by
  refine ⟨Server.Isolated.tokens, fun htok => ⟨?_, ⟨r, hheap a r hr, fun _ => rfl⟩, htok⟩⟩
  obtain ⟨i, hne, hi, ha⟩ := h.bound_iff.mpr hq
  refine ⟨i, hne, ?_, by rw [hpriv]; exact ha⟩
  have hkeys : s'.privKeys = s.privKeys := by
    funext x
    rw [Server.privKeys, hpriv]
    rfl
  rw [hkeys]
  exact hi

theorem deleteToken_effect (h : PortInv s l) {p t : Port} {ret : Ret}
    (hstep : s.casDeleteToken k p t = .ok (ret, s')) :
    (s' = s ∧ ∀ i, s.regKeys i = t → (s.regPortMap i).privatePort = p → t = machPortNull) ∨
    (s'.groups = s.groups ∧ s'.privPortMap = s.privPortMap ∧ s'.regPortMap =
      fun i => if s.regKeys i = t ∧ (s.regPortMap i).privatePort = p then RegSlot.blank
        else s.regPortMap i) := by
  by_cases hex : ∃ i, s.regKeys i = t ∧ (s.regPortMap i).privatePort = p ∧ t ≠ machPortNull
  · obtain ⟨j, hj, hpp, ht⟩ := hex
    obtain ⟨e, he, howner, -⟩ := h.reg.full j (hj.trans_ne ht)
    obtain ⟨b, hb⟩ := h.owner _ _ he
    rw [howner.trans hpp] at hb
    obtain ⟨i, hbound⟩ := h.bound_iff.mpr hb
    have hfind : hashPort s.regKeys t = .ok j :=
      hashPort_eq_ok.mpr (h.reg.chained.probe_live ht hj)
    rw [Server.casDeleteToken, Server.asCaller_of_bound _ _ hbound, hfind, Outcome.ok_bind,
      if_neg (not_not.mpr hpp)] at hstep
    cases Except.ok.inj hstep
    refine Or.inr ⟨rfl, rfl, ?_⟩
    funext i
    have huniq : (s.regKeys i = t ∧ (s.regPortMap i).privatePort = p) ↔ i = j := by
      constructor
      · rintro ⟨hi, -⟩
        exact h.reg.chained.injective (i := i) (j := j) (hi.trans_ne ht) (hi.trans hj.symm)
      · rintro rfl
        exact ⟨hj, hpp⟩
    simp only [huniq, Server.setReg, Function.update_apply]
  · refine Or.inl ⟨?_, fun i hi hpp => ?_⟩
    · rcases Server.casDeleteToken_cases hstep with rfl | ⟨i, b, j, hb, hj, hpp, -⟩
      · rfl
      · have hne := h.privatePort_eq_iff hb.1 hpp
        have hjt : s.regKeys j = t := (probe_stops (hashPort_eq_ok.mp hj)).1.resolve_right hne
        exact absurd ⟨j, hjt, hpp, hjt ▸ hne⟩ hex
    · by_contra ht
      exact hex ⟨i, hi, hpp, ht⟩

theorem isolated_deleteToken (h : PortInv s l) (hq : l.sessions q = some a)
    (hr : s.groups.heap a = some r) {p t : Port} {ret : Ret} (hp : p ≠ q)
    (hstep : s.casDeleteToken k p t = .ok (ret, s')) :
    s.Isolated s' l q a r ↔ (Op.deleteToken p t).SparesSession k s l q a r := by
  rcases h.deleteToken_effect hstep with ⟨rfl, hnone⟩ | ⟨hgroups, hpriv, hmap⟩
  · refine iff_of_true (h.isolated_refl hq hr) ?_
    rintro t' e j he - hj i ⟨hi, hpp⟩ hbefore
    have hnull := hnone i hi hpp
    have ht' : t' ≠ machPortNull := (h.reg.slot t' e he).1
    have hfree := h.reg.chained j (hj.trans_ne ht') i
      (by rw [show regLayout.keys s'.regPortMap j = t' from hj]; exact hbefore)
    exact hfree (Or.inr (hi.trans hnull))
  · rw [h.isolated_tokens hq hr hpriv (by rw [hgroups]; exact fun _ _ h => h)]
    refine h.tokens_blank_iff (fun j hj hgone => ?_) hmap
    exact hp (hgone.2.symm.trans hj)

variable {j : Fin portMapMax} {e : Registration}

theorem verify_other (h : PortInv s l) {t t' : Port} (he : l.tokens t = some e) (hne : t' ≠ t)
    (hj : hashPort s.regKeys t' = .ok j) {slot : RegSlot}
    (hslot : slot.mappedPort = t' ∨ slot.mappedPort = s.regKeys j)
    (hmap : s'.regPortMap = Function.update s.regPortMap j slot) :
    s'.casVerifyTokenIds t = s.casVerifyTokenIds t := by
  have ht : t ≠ machPortNull := (h.reg.slot t e he).1
  obtain ⟨i, hi, hkey, -⟩ := h.token_slot he
  obtain ⟨hji, hi'⟩ := probe_update_of_ne ht (hashPort_eq_ok.mp hi) hkey hne (hashPort_eq_ok.mp hj)
  have hkeys : s'.regKeys = Function.update s.regKeys j slot.mappedPort := by
    funext x
    rw [Server.regKeys, hmap]
    by_cases hx : x = j
    · subst hx
      simp
    · simp [hx, Server.regKeys]
  have hfind : hashPort s'.regKeys t = .ok i := by
    rw [hkeys]
    rcases hslot with hslot | hslot
    · rw [hslot]
      exact hashPort_eq_ok.mpr hi'
    · rw [hslot, Function.update_eq_self]
      exact hi
  have hsame : s'.regPortMap i = s.regPortMap i := by
    rw [hmap, Function.update_of_ne hji.symm]
  have hkey' : s'.regKeys i = t := by
    rw [Server.regKeys, hsame]
    exact hkey
  rw [Server.casVerifyTokenIds_hit hfind hkey', Server.casVerifyTokenIds_hit hi hkey, hsame]

theorem verify_same (h : PortInv s l) {t : Port} (he : l.tokens t = some e)
    (hj : hashPort s.regKeys t = .ok j) {slot : RegSlot}
    (hslot : slot.mappedPort = t) (hmap : s'.regPortMap = Function.update s.regPortMap j slot) :
    s'.casVerifyTokenIds t = s.casVerifyTokenIds t ↔
      slot.userId = e.userId ∧ slot.groupIds = e.groupIds := by
  obtain ⟨i, hi, hkey, huser, hids⟩ := h.token_slot he
  obtain rfl : i = j := Except.ok.inj (hi.symm.trans hj)
  have hkeys : s'.regKeys = s.regKeys := by
    funext x
    rw [Server.regKeys, hmap]
    by_cases hx : x = i
    · subst hx
      simp [hslot, hkey]
    · simp [hx, Server.regKeys]
  have hnew : s'.regPortMap i = slot := by
    rw [hmap, Function.update_self]
  rw [Server.casVerifyTokenIds_hit (hkeys ▸ hi) (hkeys ▸ hkey),
    Server.casVerifyTokenIds_hit hi hkey, hnew, huser, hids]
  simp

section

variable (h : PortInv s l) (hq : l.sessions q = some a) (hr : s.groups.heap a = some r)

include h hq hr

theorem isolated_overwrite {t : Port} (he : l.tokens t = some e)
    (howner : e.owner = q) (hj : hashPort s.regKeys t = .ok j) {g : Groups}
    (hg : s.groups.Extends g) (slot : RegSlot) (hslot : slot.mappedPort = t) :
    s.Isolated ((s.withGroups g).setReg j slot) l q a r ↔
      slot.userId = e.userId ∧ slot.groupIds = e.groupIds := by
  rw [@isolated_tokens s ((s.withGroups g).setReg j slot) l q a r h hq hr rfl hg]
  constructor
  · intro htok
    exact (h.verify_same he hj hslot rfl).mp (htok t e he howner)
  · intro hsame t' e' he' _
    by_cases htt : t = t'
    · subst htt
      exact (h.verify_same he hj hslot rfl).mpr hsame
    · exact h.verify_other he' htt hj (Or.inl hslot) rfl

theorem isolated_registerToken {p t : Port} {ids : List GroupId} {create : Bool} {ret : Ret}
    (hstep : s.casRegisterToken k p ids t create = .ok (ret, s')) :
    s.Isolated s' l q a r ↔ (Op.registerToken p ids t create).SparesSession k s l q a r := by
  by_cases hex : ∃ i b c e g, s.Bound p i b ∧ s.groups.heap b = some c ∧ l.tokens t = some e ∧
      e.owner = q ∧ Server.admitToken k s.groups c ids create = .ok (true, g)
  · obtain ⟨i, b, c, e, g, hb, hc, he, howner, hg⟩ := hex
    obtain ⟨j, hj, hkey, huser, hids⟩ := h.token_slot he
    have hspares : (Op.registerToken p ids t create).SparesSession k s l q a r ↔
        if ids = [] ∧ c.trMemberships ≠ [] ∧ k.list = false then e.groupIds = []
        else c.groupId = e.userId ∧ (if ids = [] then c.trMemberships else ids) = e.groupIds := by
      constructor
      · intro hsp
        exact hsp i b c e hb hc he howner ⟨g, hg⟩
      · intro hif i' b' c' e' hb' hc' he' _ _
        obtain rfl : b' = b := by
          obtain rfl : i' = i := Except.ok.inj (hb'.2.1.symm.trans hb.2.1)
          exact Option.some.inj (hb'.2.2.symm.trans hb.2.2)
        obtain rfl : c' = c := Option.some.inj (hc'.symm.trans hc)
        obtain rfl : e' = e := Option.some.inj (he'.symm.trans he)
        exact hif
    rw [hspares]
    rw [Server.casRegisterToken, Server.asCaller_of_bound _ _ hb, Groups.deref_eq_ok.mpr hc,
      Outcome.ok_bind, hg, Outcome.ok_bind] at hstep
    simp only [hj, Outcome.ok_bind] at hstep
    have hext := Server.admitToken_extends hg
    split_ifs at hstep with hlist
    · cases Except.ok.inj hstep
      rw [if_pos hlist, h.isolated_overwrite hq hr he howner hj hext
        { s.regPortMap j with groupIds := [] } hkey]
      simp only [huser, true_and]
      exact eq_comm
    · cases Except.ok.inj hstep
      rw [if_neg hlist, h.isolated_overwrite hq hr he howner hj hext _ rfl]
      rfl
  · refine iff_of_true ?_ ?_
    · rcases Server.casRegisterToken_cases hstep with ⟨-, rfl⟩ | ⟨i, b, c, g, hb, hc, hcase⟩
      · exact h.isolated_refl hq hr
      · have hkeep {j : Fin portMapMax} {slot : RegSlot} (hj : hashPort s.regKeys t = .ok j)
            (hg : Server.admitToken k s.groups c ids create = .ok (true, g))
            (hslot : slot.mappedPort = t ∨ slot.mappedPort = s.regKeys j) :
            s.Isolated ((s.withGroups g).setReg j slot) l q a r := by
          refine (@isolated_tokens s ((s.withGroups g).setReg j slot) l q a r h hq hr rfl
            (Server.admitToken_extends hg)).mpr ?_
          intro t' e' he' howner
          refine h.verify_other he' ?_ hj hslot rfl
          rintro rfl
          exact hex ⟨i, b, c, e', g, hb, hc, he', howner, hg⟩
        rcases hcase with ⟨-, rfl, hg⟩ | ⟨j, hj, hg, ⟨-, -, -, -, rfl⟩ | ⟨-, -, rfl⟩⟩
        · exact (@isolated_tokens s (s.withGroups g) l q a r h hq hr rfl
            (Server.admitToken_extends hg)).mpr fun _ _ _ _ => rfl
        · exact hkeep hj hg (Or.inr rfl)
        · exact hkeep hj hg (Or.inl rfl)
    · intro i b c e hb hc he howner hadmit
      obtain ⟨g, hg⟩ := hadmit
      exact absurd ⟨i, b, c, e, g, hb, hc, he, howner, hg⟩ hex

end

end PortInv

theorem session_isolation_iff (g : Groups) (s : Server) (l : Ledger)
    (hrun : ReflTransGen (Under next Op.Chained) (Server.boot g, empty)
      (s, l)) (k : Kernel) (op : Op) (ret : Ret) (s' : Server) (q : Port) (a : Addr)
    (r : GroupRecord) (hq : l.sessions q = some a) (hr : s.groups.heap a = some r)
    (hop : op.ApartFrom q) (hstep : s.step k op = .ok (ret, s')) :
    s.Isolated s' l q a r ↔ op.SparesSession k s l q a r := by
  have h : PortInv s l := PortInv.run hrun (portInv_boot g)
  cases op with
  | login u w p => exact h.isolated_login hq hr hop hstep
  | loginPriv p u p' => exact h.isolated_loginPriv hq hr hop.2 hstep
  | logout p => exact h.isolated_logout hq hr hop hstep
  | registerToken p ids t create => exact h.isolated_registerToken hq hr hstep
  | deleteToken p t => exact h.isolated_deleteToken hq hr hop hstep
  | _ => exact hop.elim

namespace Sample

def twoSessions : List (Kernel × Op) :=
  [(kernel 10, .login (text 64 [98]) word 5), (kernel 10, .login (text 64 [98]) word 6)]

theorem twoSessions_state : ∃ s l r s',
    exec next (server, empty) twoSessions = some (s, l) ∧
    Admits next Op.Chained (server, empty) twoSessions ∧
    l.sessions 5 = some 2 ∧ s.groups.heap 2 = some r ∧ r.groupId = 3 ∧ r.trMemberships = [4] ∧
    s.Bound 6 6 2 ∧ s.step (kernel 10) (.logout 6) = .ok (.success, s') := by
  have hadmits : Admits next Op.Chained (server, empty) twoSessions := by
    decide +kernel
  have h : check next (server, empty) twoSessions (fun y =>
      decide (y.2.sessions 5 = some 2) &&
      decide ((y.1.groups.heap 2).map (fun r => (r.groupId, r.trMemberships)) = some (3, [4])) &&
      decide (hashPort y.1.privKeys 6 = .ok 6) &&
      decide ((y.1.privPortMap 6).record = some 2)) = true := by
    decide +kernel
  obtain ⟨⟨s, l⟩, hrun, hc⟩ := exec_of_check h
  simp only [Bool.and_eq_true, decide_eq_true_eq] at hc
  obtain ⟨⟨⟨h1, h2⟩, h3⟩, h4⟩ := hc
  obtain ⟨r, hr, hfields⟩ := Option.map_eq_some_iff.mp h2
  obtain ⟨hid, htr⟩ := Prod.mk.inj hfields
  have hb : s.Bound 6 6 2 := ⟨by decide, h3, h4⟩
  refine ⟨s, l, r, s.logoutState 6 6 2 r, hrun, hadmits, h1, hr, hid, htr, hb, ?_⟩
  rw [Server.step, Server.casLogout, Server.asCaller_of_bound _ _ hb, Groups.deref_eq_ok.mpr hr,
    Outcome.ok_bind]

end Sample

theorem session_isolation_iff_twoSessions : ∃ s l r s',
    exec next (Sample.server, empty) Sample.twoSessions = some (s, l) ∧
    s.step (Sample.kernel 10) (.logout 6) = .ok (.success, s') ∧
    (s.Isolated s' l 5 2 r ↔ (Op.logout 6).SparesSession (Sample.kernel 10) s l 5 2 r) := by
  obtain ⟨s, l, r, s', hrun, hadmits, hq, hr, -, -, -, hstep⟩ := Sample.twoSessions_state
  exact ⟨s, l, r, s', hrun, hstep, session_isolation_iff Sample.groups s l
    (run_of_exec hadmits hrun) (Sample.kernel 10) (.logout 6) .success s' 5 2 r hq hr
    (by decide : (6 : Port) ≠ 5) hstep⟩

theorem logout_clears_other_session : ∃ s l r s',
    ReflTransGen (Under next Free) (Sample.server, empty) (s, l) ∧
    l.sessions 5 = some 2 ∧ s.groups.heap 2 = some r ∧ (Op.logout 6).ApartFrom 5 ∧
    s.step (Sample.kernel 10) (.logout 6) = .ok (.success, s') ∧ ¬s.Isolated s' l 5 2 r := by
  obtain ⟨s, l, r, s', hrun, -, hq, hr, hid, htr, hb, hstep⟩ := Sample.twoSessions_state
  refine ⟨s, l, r, s', run_of_exec (free_admits _ _) hrun, hq, hr,
    (by decide : (6 : Port) ≠ 5), hstep, fun hiso => ?_⟩
  obtain ⟨r', hr', hans⟩ := hiso.answers
  rw [Server.step, Server.casLogout, Server.asCaller_of_bound _ _ hb, Groups.deref_eq_ok.mpr hr,
    Outcome.ok_bind] at hstep
  cases Except.ok.inj hstep
  rw [show (s.logoutState 6 6 2 r).groups.heap 2 = some { r with trMemberships := [] } from
    Groups.setRecord_heap_self _ _ _] at hr'
  cases hr'
  have hfour := hans 4
  simp [checkForMembership, hid, htr] at hfour

end MachUS.Auth
