import MachUS.Auth.Effects

namespace MachUS.Auth

open Text Option

def Groups.nameNow (g : Groups) (id : GroupId) : Option GroupName :=
  (g.groupIdMap id).bind fun a => (g.heap a).map GroupRecord.groupName

structure Registration where
  owner : Port
  userId : GroupId
  groupIds : List GroupId
  userName : Option GroupName
  groupNames : List (Option GroupName)
  deriving DecidableEq

structure Ledger where
  sessions : Port → Option Addr
  tokens : Port → Option Registration

namespace Ledger

def empty : Ledger := ⟨fun _ => none, fun _ => none⟩

def opened (l : Ledger) (p : Port) (a : Option Addr) : Ledger :=
  { l with sessions := Function.update l.sessions p a }

def closed (l : Ledger) (p : Port) : Ledger where
  sessions := Function.update l.sessions p none
  tokens t := (l.tokens t).filter fun e => e.owner ≠ p

def entry (g : Groups) (r : GroupRecord) (p : Port) (ids : List GroupId) : Registration :=
  ⟨p, r.groupId, ids, g.nameNow r.groupId, ids.map g.nameNow⟩

def registered (l : Ledger) (g g' : Groups) (p : Port) (ids : List GroupId) (t : Port) :
    Ledger where
  sessions := l.sessions
  tokens := Function.update l.tokens t ((l.sessions p).bind fun a => (g.heap a).map fun r =>
    entry g' r p (if ids = [] then r.trMemberships else ids))

def deleted (l : Ledger) (p t : Port) : Ledger where
  sessions := l.sessions
  tokens t' := if t' = t then (l.tokens t).filter fun e => e.owner ≠ p else l.tokens t'

def enter (l : Ledger) (s s' : Server) (ret : Ret) : Op → Ledger
  | .login u _ p =>
    if ret = .success then l.opened p (s.groups.lookupName (toLower u)).toOption.join else l
  | .loginPriv _ u q => if ret = .success then l.opened q (s.groups.lookupId u) else l
  | .loginCreate _ id q =>
    if ret = .success then l.opened q (s'.groups.lookupId (id.headD nullId)) else l
  | .logout p => if ret = .success then l.closed p else l
  | .registerToken p ids t _ => if ret = .success then l.registered s.groups s'.groups p ids t else l
  | .deleteToken p t => l.deleted p t
  | _ => l

theorem deleted_keep {l : Ledger} {p t : Port} (ht : ∀ e, l.tokens t = some e → e.owner ≠ p) :
    l.deleted p t = l := by
  have htok : (fun t' => if t' = t then (l.tokens t).filter fun e => e.owner ≠ p
      else l.tokens t') = l.tokens := by
    funext t'
    by_cases htt : t' = t
    · subst htt
      cases he : l.tokens t' with
      | none => simp
      | some e => simp [Option.filter, ht e he]
    · simp [htt]
  rw [deleted, htok]

end Ledger

def Ledger.next (x : Server × Ledger) (e : Kernel × Op) : Option (Server × Ledger) :=
  (x.1.step e.1 e.2).toOption.map fun done => (done.2, x.2.enter x.1 done.2 done.1 e.2)

theorem Ledger.next_eq_some {x y : Server × Ledger} {e : Kernel × Op} :
    Ledger.next x e = some y ↔
      ∃ ret, x.1.step e.1 e.2 = .ok (ret, y.1) ∧ y.2 = x.2.enter x.1 y.1 ret e.2 := by
  rw [Ledger.next]
  obtain ⟨s, l⟩ := y
  cases h : x.1.step e.1 e.2 with
  | error t => simp [Except.toOption]
  | ok done =>
    obtain ⟨ret, s₁⟩ := done
    simp only [Except.toOption, map_some, some.injEq, Prod.mk.injEq, Except.ok.injEq]
    constructor
    · rintro ⟨rfl, rfl⟩
      exact ⟨ret, ⟨rfl, rfl⟩, rfl⟩
    · rintro ⟨ret', ⟨rfl, rfl⟩, rfl⟩
      exact ⟨rfl, rfl⟩

def Op.newPort : Op → Port
  | .login _ _ p => p
  | .loginPriv _ _ q => q
  | .loginCreate _ _ q => q
  | .registerToken _ _ t _ => t
  | _ => machPortNull

def Ledger.Live (l : Ledger) (p : Port) : Prop :=
  (l.sessions p).isSome = true ∨ (l.tokens p).isSome = true

variable {l : Ledger}

theorem Ledger.live_opened {p q : Port} {a : Option Addr} (hq : q ≠ p)
    (h : (l.opened p a).Live q) : l.Live q := by
  simpa [Live, opened, hq] using h

theorem Ledger.live_registered {g g' : Groups} {p t q : Port}
    {ids : List GroupId} (hq : q ≠ t) (h : (l.registered g g' p ids t).Live q) : l.Live q := by
  simpa [Live, registered, hq] using h

theorem Ledger.live_closed {p q : Port} (h : (l.closed p).Live q) : l.Live q := by
  rcases h with h | h
  · by_cases hq : q = p
    · subst hq
      simp [closed] at h
    · exact Or.inl (by simpa [closed, hq] using h)
  · exact Or.inr (isSome_of_isSome_filter _ _ h)

theorem Ledger.live_deleted {p t q : Port} (h : (l.deleted p t).Live q) : l.Live q := by
  rcases h with h | h
  · exact Or.inl h
  · by_cases hq : q = t
    · subst hq
      simp only [deleted, if_true] at h
      exact Or.inr (isSome_of_isSome_filter _ _ h)
    · exact Or.inr (by simpa [deleted, hq] using h)

theorem Ledger.live_enter {s s' : Server} {ret : Ret} {op : Op} {p : Port}
    (h : (l.enter s s' ret op).Live p) : l.Live p ∨ p = op.newPort := by
  by_cases hp : p = op.newPort
  · exact Or.inr hp
  refine Or.inl ?_
  cases op with
  | logout q =>
    simp only [enter] at h
    split_ifs at h
    · exact live_closed h
    · exact h
  | deleteToken q t => exact live_deleted h
  | login | loginPriv | loginCreate =>
    simp only [enter] at h
    split_ifs at h
    · exact live_opened hp h
    · exact h
  | registerToken =>
    simp only [enter] at h
    split_ifs at h
    · exact live_registered hp h
    · exact h
  | _ => exact h

theorem Ledger.live_exec {x y : Server × Ledger} {es : List (Kernel × Op)}
    (h : Transition.exec Ledger.next x es = some y) {p : Port} (hp : y.2.Live p) :
    x.2.Live p ∨ p ∈ es.map fun e => e.2.newPort := by
  induction es generalizing x with
  | nil =>
    cases h
    exact Or.inl hp
  | cons e es ih =>
    obtain ⟨z, hz, h⟩ := bind_eq_some_iff.mp h
    obtain ⟨ret, -, hl⟩ := Ledger.next_eq_some.mp hz
    rcases ih h with hlive | hmem
    · rw [hl] at hlive
      exact (live_enter hlive).imp id fun hnew => List.mem_cons.mpr (Or.inl hnew)
    · exact Or.inr (List.mem_cons_of_mem _ hmem)

theorem Ledger.exec_ncard {s : Server} {y : Server × Ledger} {es : List (Kernel × Op)}
    (h : Transition.exec Ledger.next (s, Ledger.empty) es = some y) :
    Set.ncard {p | y.2.Live p} ≤ es.length := by
  have hsub : {p | y.2.Live p} ⊆ ↑(es.map fun e => e.2.newPort).toFinset := by
    intro p hp
    rcases live_exec h hp with hlive | hmem
    · simp [Live, empty] at hlive
    · simpa using hmem
  calc Set.ncard {p | y.2.Live p}
      ≤ Set.ncard (↑(es.map fun e => e.2.newPort).toFinset : Set Port) :=
        Set.ncard_le_ncard hsub (Finset.finite_toSet _)
    _ = (es.map fun e => e.2.newPort).toFinset.card := Set.ncard_coe_finset _
    _ ≤ (es.map fun e => e.2.newPort).length := List.toFinset_card_le _
    _ = es.length := List.length_map _

end MachUS.Auth

namespace MachUS.Auth

open Relation Probing Ledger Function

def privLayout : Layout portMapMax Port PrivSlot Addr where
  home := hashHome
  null := machPortNull
  key := PrivSlot.mappedPort
  vacant e := e = PrivSlot.blank
  holds e a := e.record = some a

def regLayout : Layout portMapMax Port RegSlot Registration where
  home := hashHome
  null := machPortNull
  key := RegSlot.mappedPort
  vacant e := e.privatePort = machPortNull ∧ e.groupIds = []
  holds e x := x.owner = e.privatePort ∧ x.userId = e.userId ∧ x.groupIds = e.groupIds

theorem privLayout_find {s : Server} {p : Port} {i : Fin portMapMax} :
    privLayout.find s.privPortMap p = some i ↔ hashPort s.privKeys p = .ok i :=
  hashPort_eq_ok.symm

theorem regLayout_find {s : Server} {t : Port} {j : Fin portMapMax} :
    regLayout.find s.regPortMap t = some j ↔ hashPort s.regKeys t = .ok j :=
  hashPort_eq_ok.symm

structure PortInv (s : Server) (l : Ledger) : Prop where
  priv : privLayout.Stores s.privPortMap l.sessions
  reg : regLayout.Stores s.regPortMap l.tokens
  owner : ∀ t e, l.tokens t = some e → ∃ a, l.sessions e.owner = some a

theorem portInv_boot (g : Groups) : PortInv (Server.boot g) empty where
  priv := Layout.stores_const rfl rfl
  reg := Layout.stores_const rfl ⟨rfl, rfl⟩
  owner := by simp [empty]

namespace PortInv

variable {s : Server} {l : Ledger}

theorem withGroups (h : PortInv s l) (g : Groups) : PortInv (s.withGroups g) l :=
  ⟨h.priv, h.reg, h.owner⟩

variable {p : Port}

theorem bound_iff (h : PortInv s l) {a : Addr} : (∃ i, s.Bound p i a) ↔ l.sessions p = some a := by
  constructor
  · rintro ⟨i, hp, hi, hr⟩
    cases hl : l.sessions p with
    | none =>
      have hv := (h.priv.find_absent hp hl (privLayout_find.mpr hi)).2
      rw [show s.privPortMap i = PrivSlot.blank from hv] at hr
      cases hr
    | some b =>
      obtain ⟨j, hj, -, hb⟩ := h.priv.find_live hl
      obtain rfl : i = j := Except.ok.inj (hi.symm.trans (privLayout_find.mp hj))
      exact hb.symm.trans hr
  · intro hl
    obtain ⟨i, hi, -, ha⟩ := h.priv.find_live hl
    exact ⟨i, (h.priv.slot p a hl).1, privLayout_find.mp hi, ha⟩

theorem opened (h : PortInv s l) (hp : p ≠ machPortNull) {i : Fin portMapMax}
    (hi : hashPort s.privKeys p = .ok i) (a : Addr) :
    PortInv (s.setPriv i ⟨p, some a⟩) (l.opened p (some a)) where
  priv := h.priv.insert hp (privLayout_find.mpr hi) (e := ⟨p, some a⟩) rfl rfl
  reg := h.reg
  owner := by
    intro t e he
    obtain ⟨b, hb⟩ := h.owner t e he
    by_cases hep : e.owner = p
    · exact ⟨a, by simp [Ledger.opened, hep]⟩
    · exact ⟨b, by simp [Ledger.opened, hep, hb]⟩

variable {j : Fin portMapMax}

theorem registered (h : PortInv s l) {p t : Port} (ht : t ≠ machPortNull)
    (hj : hashPort s.regKeys t = .ok j) {a : Addr} (hp : l.sessions p = some a) {r : GroupRecord}
    (hr : s.groups.heap a = some r) (g : Groups) (ids : List GroupId) :
    PortInv (s.setReg j (Server.tokenEntry r p ids t)) (l.registered s.groups g p ids t) := by
  have hl : l.registered s.groups g p ids t =
      { l with tokens := update l.tokens t (some (entry g r p
        (if ids = [] then r.trMemberships else ids))) } := by
    simp [Ledger.registered, hp, hr]
  rw [hl]
  refine ⟨h.priv, h.reg.insert ht (regLayout_find.mpr hj) (e := Server.tokenEntry r p ids t)
    rfl ⟨rfl, rfl, rfl⟩, ?_⟩
  intro t' e he
  by_cases htt : t' = t
  · subst htt
    simp only [update_self, Option.some.injEq] at he
    subst he
    exact ⟨a, hp⟩
  · exact h.owner t' e (by simpa [htt] using he)

theorem privatePort_eq_iff (h : PortInv s l) (hp : p ≠ machPortNull)
    (hj : (s.regPortMap j).privatePort = p) :
    s.regKeys j ≠ machPortNull := by
  intro hk
  exact hp (hj.symm.trans (h.reg.empty j hk).1)

theorem closed (h : PortInv s l) {i : Fin portMapMax} {a : Addr} {r : GroupRecord}
    (hb : s.Bound p i a)
    (hpriv : Spares hashHome machPortNull s.privKeys (fun j => s.privKeys j = p))
    (hreg : Spares hashHome machPortNull s.regKeys (fun j => (s.regPortMap j).privatePort = p)) :
    PortInv (s.logoutState p i a r) (l.closed p) := by
  obtain ⟨hp, hi, hr⟩ := hb
  have hl : l.sessions p = some a := h.bound_iff.mp ⟨i, hp, hi, hr⟩
  have hip : s.privKeys i = p := by
    obtain ⟨j, hj, hkey, -⟩ := h.priv.find_live hl
    obtain rfl : i = j := Except.ok.inj (hi.symm.trans (privLayout_find.mp hj))
    exact hkey
  have huniq : ∀ j, s.privKeys j = p ↔ j = i := by
    intro j
    constructor
    · intro hj
      exact h.priv.chained.injective (i := j) (j := i) (hj.trans_ne hp) (hj.trans hip.symm)
    · rintro rfl
      exact hip
  refine ⟨?_, ?_, ?_⟩
  · have hmap : (s.logoutState p i a r).privPortMap =
        fun j => if s.privKeys j = p then PrivSlot.blank else s.privPortMap j := by
      funext j
      simp only [huniq, Server.logoutState, update_apply]
    rw [hmap]
    refine h.priv.erase rfl rfl hpriv ?_ ?_
    · intro j _
      change update l.sessions p none (s.privKeys j) = _
      by_cases hj : s.privKeys j = p
      · simp [hj]
      · rw [update_of_ne hj, if_neg hj]
        rfl
    · intro q b hq
      by_cases hqp : q = p
      · subst hqp
        simp [Ledger.closed] at hq
      · simpa [Ledger.closed, hqp] using hq
  · refine h.reg.erase rfl ⟨rfl, rfl⟩ hreg ?_ ?_
    · intro j hj
      obtain ⟨e, he, hh⟩ := h.reg.full j hj
      change (l.tokens (regLayout.keys s.regPortMap j)).filter _ = _
      rw [he]
      have howner : e.owner = (s.regPortMap j).privatePort := hh.1
      by_cases hp' : (s.regPortMap j).privatePort = p
      · simp [Option.filter, howner, hp']
      · simp [Option.filter, howner, hp']
    · intro t e ht
      exact (Option.filter_eq_some_iff.mp ht).1
  · intro t e ht
    obtain ⟨he, hne⟩ := Option.filter_eq_some_iff.mp ht
    obtain ⟨b, hb⟩ := h.owner t e he
    have hne' : e.owner ≠ p := by simpa using hne
    exact ⟨b, by simp [Ledger.closed, hne', hb]⟩

theorem deleted_blank (h : PortInv s l) {p t : Port} (hp : p ≠ machPortNull)
    (hj : hashPort s.regKeys t = .ok j) (hown : (s.regPortMap j).privatePort = p)
    (hreg : Spares hashHome machPortNull s.regKeys
      (fun i => s.regKeys i = t ∧ (s.regPortMap i).privatePort = p)) :
    PortInv (s.setReg j RegSlot.blank) (l.deleted p t) := by
  have hjne : s.regKeys j ≠ machPortNull := h.privatePort_eq_iff hp hown
  have hjt : s.regKeys j = t :=
    ((probe_stops (hashPort_eq_ok.mp hj)).1).resolve_right hjne
  have huniq : ∀ i, (s.regKeys i = t ∧ (s.regPortMap i).privatePort = p) ↔ i = j := by
    intro i
    constructor
    · rintro ⟨hi, -⟩
      exact h.reg.chained.injective (i := i) (j := j) (hi.trans_ne (hjt ▸ hjne)) (hi.trans hjt.symm)
    · rintro rfl
      exact ⟨hjt, hown⟩
  obtain ⟨e, he, hh⟩ := h.reg.full j hjne
  have hkey : regLayout.keys s.regPortMap j = t := hjt
  rw [hkey] at he
  have howner : e.owner = p := hh.1.trans hown
  have htok : (l.deleted p t).tokens = fun t' => if t' = t then none else l.tokens t' := by
    funext t'
    simp [deleted, he, Option.filter, howner]
  refine ⟨h.priv, ?_, ?_⟩
  · have hmap : (s.setReg j RegSlot.blank).regPortMap = fun i =>
        if s.regKeys i = t ∧ (s.regPortMap i).privatePort = p then RegSlot.blank
        else s.regPortMap i := by
      funext i
      simp only [huniq, Server.setReg, update_apply]
    rw [hmap, htok]
    refine h.reg.erase rfl ⟨rfl, rfl⟩ hreg ?_ ?_
    · intro i hi
      change (if s.regKeys i = t then none else _) = _
      by_cases hit : s.regKeys i = t
      · have hij : i = j := by
          refine h.reg.chained.injective (i := i) (j := j) hi (hit.trans hjt.symm)
        subst hij
        simp [hit, hown]
      · simp only [hit, false_and, if_false]
    · intro t' e' he'
      split_ifs at he'
      exact he'
  · intro t' e' he'
    rw [htok] at he'
    simp only at he'
    split_ifs at he'
    exact h.owner t' e' he'

end PortInv

def Op.KeepsChains (k : Kernel) (s : Server) : Op → Prop
  | .login _ _ p => p ≠ machPortNull
  | .loginPriv _ _ q => q ≠ machPortNull
  | .loginCreate _ _ q => q ≠ machPortNull
  | .logout p =>
    Spares hashHome machPortNull s.privKeys (fun j => s.privKeys j = p) ∧
      Spares hashHome machPortNull s.regKeys (fun j => (s.regPortMap j).privatePort = p)
  | .registerToken _ ids t _ =>
    t ≠ machPortNull ∧ (ids = [] → k.list = true ∨ ∀ j, s.regKeys j ≠ t)
  | .deleteToken p t =>
    Spares hashHome machPortNull s.regKeys
      (fun j => s.regKeys j = t ∧ (s.regPortMap j).privatePort = p)
  | _ => True

instance Op.KeepsChains.decidable (k : Kernel) (s : Server) :
    ∀ op : Op, Decidable (op.KeepsChains k s)
  | .login _ _ p => inferInstanceAs (Decidable (p ≠ machPortNull))
  | .loginPriv _ _ q => inferInstanceAs (Decidable (q ≠ machPortNull))
  | .loginCreate _ _ q => inferInstanceAs (Decidable (q ≠ machPortNull))
  | .logout p => inferInstanceAs (Decidable (
      Spares hashHome machPortNull s.privKeys (fun j => s.privKeys j = p) ∧
        Spares hashHome machPortNull s.regKeys (fun j => (s.regPortMap j).privatePort = p)))
  | .registerToken _ ids t _ => inferInstanceAs (Decidable (
      t ≠ machPortNull ∧ (ids = [] → k.list = true ∨ ∀ j, s.regKeys j ≠ t)))
  | .deleteToken p t => inferInstanceAs (Decidable (
      Spares hashHome machPortNull s.regKeys
        (fun j => s.regKeys j = t ∧ (s.regPortMap j).privatePort = p)))
  | .createGroup .. => isTrue trivial
  | .deleteGroup .. => isTrue trivial
  | .changeOwner .. => isTrue trivial
  | .changePassword .. => isTrue trivial
  | .addToGroup .. => isTrue trivial
  | .removeFromGroup .. => isTrue trivial

def Op.Chained (x : Server × Ledger) (e : Kernel × Op) : Prop := e.2.KeepsChains e.1 x.1

instance (x : Server × Ledger) (e : Kernel × Op) : Decidable (Op.Chained x e) :=
  inferInstanceAs (Decidable (e.2.KeepsChains e.1 x.1))

namespace PortInv

variable {s s' : Server} {l : Ledger} {k : Kernel} {ret : Ret}

section

variable (h : PortInv s l)

include h

theorem openSession {a : Addr} {p : Port} (hp : p ≠ machPortNull)
    (hstep : s.openSession k a p = .ok (ret, s')) :
    (ret ≠ .success ∧ PortInv s' l) ∨ (ret = .success ∧ PortInv s' (l.opened p (some a)) ∧
      s'.groups.groupIdMap = s.groups.groupIdMap) := by
  rcases Server.openSession_cases hstep with ⟨rfl, rfl⟩ | ⟨rfl, r, ids, i, -, -, -, hi, rfl⟩
  · exact Or.inl ⟨by simp, h⟩
  · exact Or.inr ⟨rfl, (h.withGroups (s.groups.setRecord a { r with trMemberships := ids })).opened
      hp hi a, rfl⟩

theorem login {u : GroupName} {w : PassWord} {p : Port}
    (hp : p ≠ machPortNull) (hstep : s.casLogin k u w p = .ok (ret, s')) :
    PortInv s' (l.enter s s' ret (.login u w p)) := by
  rcases Server.casLogin_cases hstep with ⟨hret, rfl⟩ | ⟨a, r, ha, -, -, hopen⟩
  · simpa [enter, hret] using h
  · rcases h.openSession hp hopen with ⟨hret, h'⟩ | ⟨rfl, h', -⟩
    · simpa [enter, hret] using h'
    · simpa [enter, ha, Except.toOption] using h'

theorem loginPriv {u : GroupId} {p q : Port} (hq : q ≠ machPortNull)
    (hstep : s.casLoginPriv k p u q = .ok (ret, s')) :
    PortInv s' (l.enter s s' ret (.loginPriv p u q)) := by
  rcases Server.casLoginPriv_cases hstep with ⟨hret, rfl⟩ | ⟨a, -, ha, hopen⟩
  · simpa [enter, hret] using h
  · rcases h.openSession hq hopen with ⟨hret, h'⟩ | ⟨rfl, h', -⟩
    · simpa [enter, hret] using h'
    · simpa [enter, ha] using h'

theorem loginCreate {id : List GroupId} {p q : Port} (hq : q ≠ machPortNull)
    (hstep : s.casLoginCreate k p id q = .ok (ret, s')) :
    PortInv s' (l.enter s s' ret (.loginCreate p id q)) := by
  rcases Server.casLoginCreate_cases hstep with
    ⟨hret, g, rfl⟩ | ⟨user, group, rest, login, g₁, other, g₂, rfl, h₁, h₂, hopen⟩
  · simpa [enter, hret] using h.withGroups g
  · rcases (h.withGroups g₂).openSession hq hopen with ⟨hret, h'⟩ | ⟨rfl, h', hmap⟩
    · simpa [enter, hret] using h'
    · have hlook : s'.groups.lookupId user = some login := by
        have hu := (Groups.findOrCreate_lookupId h₂).2 user login
          (Groups.findOrCreate_lookupId h₁).1
        rw [Groups.lookupId, hmap]
        exact hu
      simpa [enter, hlook] using h'

theorem logout {p : Port} (hk : (Op.logout p).KeepsChains k s)
    (hstep : s.casLogout p = .ok (ret, s')) : PortInv s' (l.enter s s' ret (.logout p)) := by
  rcases Server.casLogout_cases hstep with ⟨rfl, rfl⟩ | ⟨rfl, i, a, r, hb, -, rfl⟩
  · simpa [enter] using h
  · simpa [enter] using h.closed hb hk.1 hk.2

theorem refused_list {t : Port} {j : Fin portMapMax}
    (hj : hashPort s.regKeys t = .ok j) (hnew : ∀ i, s.regKeys i ≠ t) :
    s.setReg j { s.regPortMap j with groupIds := [] } = s := by
  have hnull := probe_absent hnew (hashPort_eq_ok.mp hj)
  have hids := (h.reg.empty j hnull).2
  have hsame : { s.regPortMap j with groupIds := [] } = s.regPortMap j := by
    rw [← hids]
  rw [hsame, Server.setReg, update_eq_self]

theorem registerToken {p t : Port} {ids : List GroupId} {create : Bool}
    (hk : (Op.registerToken p ids t create).KeepsChains k s)
    (hstep : s.casRegisterToken k p ids t create = .ok (ret, s')) :
    PortInv s' (l.enter s s' ret (.registerToken p ids t create)) := by
  rcases Server.casRegisterToken_cases hstep with ⟨rfl, rfl⟩ | ⟨i, a, r, g, hb, hr, hcase⟩
  · simpa [enter] using h
  rcases hcase with ⟨rfl, rfl, -⟩ | ⟨j, hj, -, ⟨rfl, hids, -, hlist, rfl⟩ | ⟨rfl, -, rfl⟩⟩
  · simpa [enter] using h.withGroups g
  · have hnew : ∀ i, s.regKeys i ≠ t := (hk.2 hids).resolve_left (by simp [hlist])
    have hsame := (h.withGroups g).refused_list hj hnew
    change PortInv ((s.withGroups g).setReg j { (s.withGroups g).regPortMap j with groupIds := [] })
      _
    rw [hsame]
    simpa [enter] using h.withGroups g
  · have hl : l.sessions p = some a := h.bound_iff.mp ⟨i, hb⟩
    have h' := h.registered hk.1 hj hl hr g ids
    exact ⟨h'.priv, h'.reg, h'.owner⟩

theorem deleteToken {p t : Port} (hk : (Op.deleteToken p t).KeepsChains k s)
    (hstep : s.casDeleteToken k p t = .ok (ret, s')) :
    PortInv s' (l.enter s s' ret (.deleteToken p t)) := by
  change PortInv s' (l.deleted p t)
  by_cases hown : ∃ e, l.tokens t = some e ∧ e.owner = p
  · obtain ⟨e, he, rfl⟩ := hown
    obtain ⟨a, ha⟩ := h.owner t e he
    obtain ⟨i, hb⟩ := h.bound_iff.mpr ha
    obtain ⟨j, hj, -, hh⟩ := h.reg.find_live he
    have hj' := regLayout_find.mp hj
    have hpp : (s.regPortMap j).privatePort = e.owner := hh.1.symm
    rw [Server.casDeleteToken, Server.asCaller_of_bound _ _ hb, hj', Outcome.ok_bind,
      if_neg (not_not.mpr hpp)] at hstep
    cases Except.ok.inj hstep
    exact h.deleted_blank hb.1 hj' hpp hk
  · rw [deleted_keep (by simpa using hown)]
    rcases Server.casDeleteToken_cases hstep with rfl | ⟨i, a, j, hb, hj, hpp, -⟩
    · exact h
    · have hne := h.privatePort_eq_iff hb.1 hpp
      have hjt : s.regKeys j = t :=
        ((probe_stops (hashPort_eq_ok.mp hj)).1).resolve_right hne
      obtain ⟨e, he, hh⟩ := h.reg.full j hne
      refine absurd ⟨e, ?_, hh.1.trans hpp⟩ hown
      rw [← hjt]
      exact he

theorem edits {x : Outcome (Ret × Server)} (hx : s.EditsGroups x)
    (hstep : x = .ok (ret, s')) : PortInv s' l := by
  obtain ⟨g, rfl⟩ := hx ret s' hstep
  exact h.withGroups g

theorem step {op : Op} (hk : op.KeepsChains k s)
    (hstep : s.step k op = .ok (ret, s')) : PortInv s' (l.enter s s' ret op) := by
  cases op with
  | login u w p => exact h.login hk hstep
  | loginPriv p u q => exact h.loginPriv hk hstep
  | loginCreate p id q => exact h.loginCreate hk hstep
  | logout p => exact h.logout hk hstep
  | registerToken p ids t create => exact h.registerToken hk hstep
  | deleteToken p t => exact h.deleteToken hk hstep
  | createGroup p n ty f w o id =>
    obtain ⟨⟨ret', id', s₁⟩, h₁, h₂⟩ := Outcome.bind_eq_ok.mp hstep
    cases Except.ok.inj h₂
    obtain ⟨g, rfl⟩ := Server.casCreateGroup_edits h₁
    exact h.withGroups g
  | deleteGroup p n => exact h.edits (Server.casDeleteGroup_edits k s p n) hstep
  | changeOwner p n o => exact h.edits (Server.casChangeOwner_edits s p n o) hstep
  | changePassword p n w w' => exact h.edits (Server.casChangePassword_edits s p n w w') hstep
  | addToGroup p n m => exact h.edits (Server.casAddToGroup_edits s p n m) hstep
  | removeFromGroup p n m => exact h.edits (Server.casRemoveFromGroup_edits s p n m) hstep

end

theorem run {x y : Server × Ledger}
    (hrun : ReflTransGen (Transition.Under next Op.Chained) x y) (h : PortInv x.1 x.2) :
    PortInv y.1 y.2 := by
  refine Transition.invariant (I := fun x => PortInv x.1 x.2) (fun x e y hx he hy => ?_) hrun h
  obtain ⟨ret, hstep, hl⟩ := next_eq_some.mp hy
  rw [hl]
  exact hx.step he hstep

end PortInv

end MachUS.Auth
