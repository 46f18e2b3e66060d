import MachUS.Ux.Protections

namespace MachUS.Ux.Prot

open Function List

inductive CredFault where
  | index
  | unset
  deriving DecidableEq

abbrev CredRun := Except CredFault

def nsrReference : Rights := 0x80

def oRdonly : BitVec 32 := 0

def ngroups : ℕ := 16

def nsCredLen (n : ℕ) : ℕ := (8 + n * 4) / 4

def defaultNsCredLen : ℕ := nsCredLen 16

def toShort (x : Id) : BitVec 16 := x.setWidth 16

def ofShort (x : BitVec 16) : Id := x.signExtend 32

structure FileServer where
  access : FsAccess
  anonAuthid : Id
  privUid : Id
  privGid : Id
  devMode : BitVec 32

-- An element of cr_groups that has not been set is none.
structure FsCred where
  authid : ℕ → Option Id
  crUid : BitVec 16
  crGid : BitVec 16
  crGroups : ℕ → Option (BitVec 16)

namespace FsCred

def putAuthid (c : FsCred) (k : ℕ) (id : Id) : CredRun FsCred :=
  if 2 + k < defaultNsCredLen then .ok { c with authid := update c.authid k (some id) }
  else .error .index

def putGroup (c : FsCred) (k : ℕ) (g : BitVec 16) : CredRun FsCred :=
  if k < ngroups then .ok { c with crGroups := update c.crGroups k (some g) }
  else .error .index

def group (c : FsCred) (k : ℕ) : CredRun (BitVec 16) :=
  if k < ngroups then
    match c.crGroups k with
    | some g => .ok g
    | none => .error .unset
  else .error .index

def scan (c : FsCred) (p : BitVec 16 → Bool) : ℕ → ℕ → CredRun Bool
  | 0, i => do
    let _ ← c.group i
    .ok false
  | n + 1, i => do
    let g ← c.group i
    if g = 0 then .ok false else if p g then .ok true else scan c p n (i + 1)

end FsCred

inductive TokenIds where
  | anonymous
  | refused
  | ids (user : Id) (groups : List Id)

namespace FileServer

variable (s : FileServer)

def emptyCred : FsCred := ⟨fun _ => none, 0, 0, fun _ => none⟩

def anonCred : FsCred :=
  { authid := update (fun _ => none) 0 (some s.anonAuthid)
    crUid := toShort (s.access.fsAuthidToUid s.anonAuthid)
    crGid := toShort (s.access.fsAuthidToGid s.anonAuthid)
    crGroups := update (fun _ => none) 0 (some 0) }

def putOther (i : ℕ) (id : Id) (c : FsCred) : CredRun FsCred :=
  if i < ngroups - 1 then c.putGroup (i - 1) (toShort (s.access.fsAuthidToGid id)) else .ok c

def fillGroups : List Id → ℕ → FsCred → CredRun FsCred
  | [], _, c => .ok c
  | id :: rest, i, c => do
    let c ← c.putAuthid (i + 1) id
    let c ← s.putOther i id c
    fillGroups rest (i + 1) c

def fsTranslateToken : TokenIds → CredRun (Option FsCred)
  | .anonymous => .ok (some s.anonCred)
  | .refused => .ok none
  | .ids _ [] => .ok none
  | .ids user (first :: others) => do
    let xferCount :=
      if (first :: others).length > defaultNsCredLen - 1 then defaultNsCredLen - 1
      else (first :: others).length
    let c ← emptyCred.putAuthid 0 user
    let c ← c.putAuthid 1 first
    let c ← s.fillGroups (others.take (xferCount - 1)) 1
      { c with
        crUid := toShort (s.access.fsAuthidToUid user)
        crGid := toShort (s.access.fsAuthidToGid first) }
    let c ← c.putGroup (xferCount - 1) 0
    .ok (some c)

def fsClass (attr : FsAttr) (c : FsCred) (mode : Mode) : CredRun (Mode × Rights) :=
  if c.crUid = attr.vaUid then .ok (mode >>> 6, nsrReference ||| nsrAdmin)
  else if c.crGid = attr.vaGid then .ok (mode >>> 3, nsrReference)
  else do
    let hit ← c.scan (fun g => g = attr.vaGid || ofShort g = s.privGid) ngroups 0
    .ok (if hit then mode >>> 3 else mode, nsrReference)

def fsPrivileged (c : FsCred) : CredRun Bool :=
  if ofShort c.crUid = s.privUid then .ok true
  else if ofShort c.crGid = s.privGid then .ok true
  else c.scan (fun g => ofShort g = s.privGid) ngroups 0

def fsCheckAccessFromData (attr : FsAttr) (access : Rights) (c : FsCred) : CredRun Bool :=
  let mode := attr.vaMode.setWidth 32 &&& 0o777
  if nsrWrite &&& access ≠ 0 ∧ s.devMode = oRdonly then .ok false
  else if nsrExecute &&& access ≠ 0 ∧ mode &&& 0o111 = 0 then .ok false
  else do
    let (mode, maxAccess) ← s.fsClass attr c mode
    let maxAccess := maxAccess ||| fsConvertAccessFs2ns (mode &&& 0o7)
    if maxAccess &&& access = access then .ok true else s.fsPrivileged c

end FileServer

theorem toShort_ofShort (x : BitVec 16) : toShort (ofShort x) = x := by
  apply BitVec.eq_of_getLsbD_eq
  intro i hi
  simp only [toShort, ofShort, BitVec.getLsbD_setWidth, BitVec.getLsbD_signExtend]
  simp [hi, show i < 32 by omega]

theorem ofShort_inj {x y : BitVec 16} : ofShort x = ofShort y ↔ x = y :=
  ⟨fun h => by rw [← toShort_ofShort x, h, toShort_ofShort], congrArg ofShort⟩

namespace FileServer

variable (s : FileServer) (attr : FsAttr) (access : Rights) (uid : Id) (gids : List Id)

def Privileged : Prop := uid = s.privUid ∨ s.privGid ∈ gids

instance : Decidable (s.Privileged uid gids) :=
  inferInstanceAs (Decidable (uid = s.privUid ∨ s.privGid ∈ gids))

def classRights : Rights :=
  let mode : Mode := attr.vaMode.setWidth 32 &&& 0o777
  if uid = ofShort attr.vaUid then
    nsrReference ||| nsrAdmin ||| fsConvertAccessFs2ns ((mode >>> 6) &&& 0o7)
  else if ofShort attr.vaGid ∈ gids then
    nsrReference ||| fsConvertAccessFs2ns ((mode >>> 3) &&& 0o7)
  else nsrReference ||| fsConvertAccessFs2ns (mode &&& 0o7)

def Grants : Prop :=
  ¬(nsrWrite &&& access ≠ 0 ∧ s.devMode = oRdonly) ∧
  ¬(nsrExecute &&& access ≠ 0 ∧ (attr.vaMode.setWidth 32 &&& 0o777 : Mode) &&& 0o111 = 0) ∧
  (s.Privileged uid gids ∨ classRights attr uid gids &&& access = access)

instance : Decidable (s.Grants attr access uid gids) :=
  inferInstanceAs (Decidable (_ ∧ _ ∧ _))

variable {s attr access uid gids}

theorem Grants.congr {uid' : Id} {gids' : List Id} (hu : uid = uid')
    (hg : ∀ g, g ∈ gids ↔ g ∈ gids') :
    s.Grants attr access uid gids ↔ s.Grants attr access uid' gids' := by
  simp only [Grants, Privileged, classRights, hu, hg]

end FileServer

section Scan

variable {c : FsCred} {p : BitVec 16 → Bool} {s : FileServer}

def visible (gids : List (BitVec 16)) : List (BitVec 16) := gids.takeWhile (· ≠ 0)

theorem visible_cons (x : BitVec 16) (l : List (BitVec 16)) :
    visible (x :: l) = if x = 0 then [] else x :: visible l := by
  rw [visible, takeWhile_cons]
  by_cases hx : x = 0
  · rw [if_neg (by simpa using hx), if_pos hx]
  · rw [if_pos (by simpa using hx), if_neg hx, visible]

structure Lists (c : FsCred) (i : ℕ) (l : List (BitVec 16)) : Prop where
  element : ∀ j x, l[j]? = some x → c.crGroups (i + j) = some x
  last : c.crGroups (i + l.length) = some 0
  bound : i + l.length < ngroups

theorem Lists.group {i : ℕ} {x : BitVec 16} {l : List (BitVec 16)} (h : Lists c i (x :: l)) :
    c.group i = .ok x := by
  have hlt : i < ngroups := (Nat.le_add_right _ _).trans_lt h.bound
  have helement := h.element 0 x rfl
  rw [Nat.add_zero] at helement
  rw [FsCred.group, if_pos hlt, helement]

theorem Lists.group_last {i : ℕ} (h : Lists c i []) : c.group i = .ok 0 := by
  have hlt : i < ngroups := h.bound
  have hlast : c.crGroups i = some 0 := h.last
  rw [FsCred.group, if_pos hlt, hlast]

theorem Lists.tail {i : ℕ} {x : BitVec 16} {l : List (BitVec 16)} (h : Lists c i (x :: l)) :
    Lists c (i + 1) l := by
  refine ⟨fun j y hy => ?_, ?_, ?_⟩
  · have helement := h.element (j + 1) y (by simpa using hy)
    rwa [show i + (j + 1) = i + 1 + j by omega] at helement
  · have hlast := h.last
    rwa [length_cons, show i + (l.length + 1) = i + 1 + l.length by omega] at hlast
  · have hbound := h.bound
    rw [length_cons] at hbound
    omega

theorem ok_bind {α β : Type} (x : α) (f : α → CredRun β) : (Except.ok x >>= f) = f x := rfl

theorem scan_spec {n i : ℕ} {l : List (BitVec 16)} (h : Lists c i l) (hn : n + i = ngroups) :
    c.scan p n i = .ok ((visible l).any p) := by
  induction l generalizing n i with
  | nil =>
    have hbound : i + 0 < ngroups := h.bound
    obtain ⟨n, rfl⟩ := Nat.exists_eq_add_of_le' (show 1 ≤ n by omega)
    rw [FsCred.scan, h.group_last, ok_bind, if_pos rfl]
    rfl
  | cons x l ih =>
    have hbound := h.bound
    rw [length_cons] at hbound
    obtain ⟨n, rfl⟩ := Nat.exists_eq_add_of_le' (show 1 ≤ n by omega)
    rw [FsCred.scan, h.group, ok_bind]
    rw [visible_cons]
    by_cases hx : x = 0
    · rw [if_pos hx, if_pos hx]
      rfl
    · rw [if_neg hx, if_neg hx, ih h.tail (by omega), any_cons]
      cases p x <;> rfl

variable {attr : FsAttr} {access : Rights} {l : List (BitVec 16)}

def seen (gid : BitVec 16) (l : List (BitVec 16)) : List Id := (gid :: visible l).map ofShort

theorem mem_seen {gid : BitVec 16} {g : Id} :
    g ∈ seen gid l ↔ ofShort gid = g ∨ ∃ x ∈ visible l, ofShort x = g := by
  simp [seen, eq_comm]

theorem ofShort_mem_seen {gid x : BitVec 16} :
    ofShort x ∈ seen gid l ↔ gid = x ∨ x ∈ visible l := by
  simp [mem_seen, ofShort_inj]

theorem fsPrivileged_eq (h : Lists c 0 l) :
    s.fsPrivileged c = .ok (decide (s.Privileged (ofShort c.crUid) (seen c.crGid l))) := by
  rw [FileServer.fsPrivileged, scan_spec h (n := ngroups) rfl]
  simp only [FileServer.Privileged, mem_seen]
  by_cases huid : ofShort c.crUid = s.privUid
  · simp [huid]
  · by_cases hgid : ofShort c.crGid = s.privGid
    · simp [hgid]
    · rw [if_neg huid, if_neg hgid, any_eq]
      simp [huid, hgid]

variable (s attr) in
theorem fsClass_spec (h : Lists c 0 l) :
    ∃ mode r, s.fsClass attr c (attr.vaMode.setWidth 32 &&& 0o777) = .ok (mode, r) ∧
      (r ||| fsConvertAccessFs2ns (mode &&& 0o7) =
        FileServer.classRights attr (ofShort c.crUid) (seen c.crGid l) ∨
        s.Privileged (ofShort c.crUid) (seen c.crGid l)) := by
  rw [FileServer.fsClass, scan_spec h (n := ngroups) rfl]
  by_cases huid : c.crUid = attr.vaUid
  · rw [if_pos huid]
    refine ⟨_, _, rfl, Or.inl ?_⟩
    rw [FileServer.classRights, if_pos (congrArg ofShort huid)]
  have huid' : ¬ofShort c.crUid = ofShort attr.vaUid := fun h => huid (ofShort_inj.mp h)
  rw [if_neg huid]
  by_cases hgid : c.crGid = attr.vaGid
  · rw [if_pos hgid]
    refine ⟨_, _, rfl, Or.inl ?_⟩
    rw [FileServer.classRights, if_neg huid', if_pos (ofShort_mem_seen.mpr (Or.inl hgid))]
  rw [if_neg hgid, ok_bind]
  refine ⟨_, _, rfl, ?_⟩
  by_cases hfile : attr.vaGid ∈ visible l
  · left
    have hhit : (visible l).any (fun g => g = attr.vaGid || ofShort g = s.privGid) = true :=
      any_eq_true.mpr ⟨_, hfile, by simp⟩
    rw [hhit, if_pos rfl, FileServer.classRights, if_neg huid',
      if_pos (ofShort_mem_seen.mpr (Or.inr hfile))]
  · by_cases hpriv : ∃ x ∈ visible l, ofShort x = s.privGid
    · exact Or.inr (Or.inr (mem_seen.mpr (Or.inr hpriv)))
    · left
      have hmiss : (visible l).any (fun g => g = attr.vaGid || ofShort g = s.privGid) = false := by
        rw [any_eq_false]
        intro x hx hor
        rw [Bool.or_eq_true, decide_eq_true_iff, decide_eq_true_iff] at hor
        rcases hor with rfl | hor
        · exact hfile hx
        · exact hpriv ⟨x, hx, hor⟩
      have hnot : ¬ofShort attr.vaGid ∈ seen c.crGid l := by
        rw [ofShort_mem_seen]
        exact not_or.mpr ⟨hgid, hfile⟩
      rw [hmiss, if_neg Bool.false_ne_true, FileServer.classRights, if_neg huid', if_neg hnot]

variable (s attr access) in
theorem check_eq (h : Lists c 0 l) : s.fsCheckAccessFromData attr access c =
    .ok (decide (s.Grants attr access (ofShort c.crUid) (seen c.crGid l))) := by
  obtain ⟨mode, r, hclass, hrights⟩ := fsClass_spec s attr h
  rw [FileServer.fsCheckAccessFromData]
  by_cases hwrite : nsrWrite &&& access ≠ 0 ∧ s.devMode = oRdonly
  · rw [if_pos hwrite]
    exact congrArg Except.ok (decide_eq_false fun hg => hg.1 hwrite).symm
  rw [if_neg hwrite]
  by_cases hexec : nsrExecute &&& access ≠ 0 ∧
      (attr.vaMode.setWidth 32 &&& 0o777 : Mode) &&& 0o111 = 0
  · rw [if_pos hexec]
    exact congrArg Except.ok (decide_eq_false fun hg => hg.2.1 hexec).symm
  rw [if_neg hexec, hclass, ok_bind]
  rw [fsPrivileged_eq h]
  have hgrants : s.Grants attr access (ofShort c.crUid) (seen c.crGid l) ↔
      s.Privileged (ofShort c.crUid) (seen c.crGid l) ∨
        FileServer.classRights attr (ofShort c.crUid) (seen c.crGid l) &&& access = access :=
    ⟨fun hg => hg.2.2, fun hg => ⟨hwrite, hexec, hg⟩⟩
  simp only [hgrants]
  rcases hrights with heq | hpriv
  · rw [heq]
    split_ifs with hall
    · rw [decide_eq_true (Or.inr hall)]
    · simp only [hall, or_false]
  · simp only [hpriv, true_or, decide_true, ite_self]

end Scan

section Translate

variable {s : FileServer} {c : FsCred}

def shortGid (s : FileServer) (id : Id) : BitVec 16 := toShort (s.access.fsAuthidToGid id)

theorem putAuthid_ok {k : ℕ} (h : k ≤ 15) (id : Id) :
    c.putAuthid k id = .ok { c with authid := update c.authid k (some id) } :=
  if_pos (show 2 + k < 18 by omega)

theorem putGroup_ok {k : ℕ} (h : k < ngroups) (g : BitVec 16) :
    c.putGroup k g = .ok { c with crGroups := update c.crGroups k (some g) } := if_pos h

theorem putOther_ok {i : ℕ} (h : i < 15) (id : Id) : s.putOther i id c =
    .ok { c with crGroups := update c.crGroups (i - 1) (some (shortGid s id)) } := by
  have hput : i - 1 < ngroups := by
    rw [ngroups]
    omega
  rw [FileServer.putOther, if_pos (show i < ngroups - 1 from h), putGroup_ok hput, shortGid]

variable (s) in
theorem fillGroups_ok (ids : List Id) {i : ℕ} (hi : 1 ≤ i) (h : i + ids.length ≤ 15) :
    ∃ c', s.fillGroups ids i c = .ok c' ∧ c'.crUid = c.crUid ∧ c'.crGid = c.crGid ∧
      (∀ j x, (ids.map (shortGid s))[j]? = some x → c'.crGroups (i - 1 + j) = some x) ∧
      ∀ k < i - 1, c'.crGroups k = c.crGroups k := by
  induction ids generalizing i c with
  | nil => exact ⟨c, rfl, rfl, rfl, by simp, fun _ _ => rfl⟩
  | cons id ids ih =>
    rw [length_cons] at h
    obtain ⟨c', hrun, huid, hgid, hgroups, hkept⟩ := ih (i := i + 1)
      (c := { c with
        authid := update c.authid (i + 1) (some id)
        crGroups := update c.crGroups (i - 1) (some (shortGid s id)) })
      (by omega) (by omega)
    refine ⟨c', ?_, huid, hgid, fun j x hx => ?_, fun k hk => ?_⟩
    · rw [FileServer.fillGroups, putAuthid_ok (by omega), ok_bind, putOther_ok (by omega), ok_bind]
      exact hrun
    · rcases j with _ | j
      · have hfirst := (hkept (i - 1) (by omega)).trans (update_self _ _ _)
        rw [Nat.add_zero, hfirst]
        simpa using hx
      · have hnext := hgroups j x (by simpa using hx)
        rwa [show i + 1 - 1 + j = i - 1 + (j + 1) by omega] at hnext
    · exact (hkept k (by omega)).trans (update_of_ne (by omega) _ _)

theorem fillGroups_fault {ids : List Id} {i : ℕ} (hi : i ≤ 15) (hpos : 1 ≤ i)
    (h : 16 ≤ i + ids.length) : s.fillGroups ids i c = .error .index := by
  induction ids generalizing i c with
  | nil =>
    rw [length_nil] at h
    omega
  | cons id ids ih =>
    rw [length_cons] at h
    rw [FileServer.fillGroups]
    rcases Nat.lt_or_eq_of_le hi with hlt | rfl
    · rw [putAuthid_ok (by omega), ok_bind, putOther_ok hlt, ok_bind]
      exact ih (by omega) (by omega) (by omega)
    · rfl

variable (s) in
theorem fsTranslateToken_ok (user first : Id) {others : List Id} (h : others.length ≤ 14) :
    ∃ c, s.fsTranslateToken (.ids user (first :: others)) = .ok (some c) ∧
      c.crUid = toShort (s.access.fsAuthidToUid user) ∧ c.crGid = shortGid s first ∧
      Lists c 0 (others.map (shortGid s)) := by
  have hcount : ¬(first :: others).length > defaultNsCredLen - 1 := by
    rw [length_cons, show defaultNsCredLen - 1 = 17 by decide]
    omega
  rw [FileServer.fsTranslateToken]
  simp only [if_neg hcount]
  rw [putAuthid_ok (by omega), ok_bind, putAuthid_ok (by omega), ok_bind]
  rw [length_cons, Nat.add_sub_cancel, take_length]
  obtain ⟨c', hrun, huid, hgid, hgroups, -⟩ := fillGroups_ok s others (i := 1)
    (c := { FileServer.emptyCred with
      authid := update (update FileServer.emptyCred.authid 0 (some user)) 1 (some first)
      crUid := toShort (s.access.fsAuthidToUid user)
      crGid := toShort (s.access.fsAuthidToGid first) }) (by omega) (by omega)
  refine ⟨{ c' with crGroups := update c'.crGroups others.length (some 0) }, ?_, huid,
    hgid, fun j x hx => ?_, ?_, ?_⟩
  · rw [hrun, ok_bind, putGroup_ok (by rw [ngroups]; omega), ok_bind]
  · have hj : j < others.length := by
      have hlt := (List.getElem?_eq_some_iff.mp hx).1
      rwa [List.length_map] at hlt
    have hgroup := hgroups j x hx
    rw [Nat.sub_self, Nat.zero_add] at hgroup
    rw [Nat.zero_add]
    exact (update_of_ne (by omega) _ _).trans hgroup
  · rw [Nat.zero_add, List.length_map]
    exact update_self _ _ _
  · rw [Nat.zero_add, List.length_map, ngroups]
    omega

theorem fsTranslateToken_fault {user first : Id} {others : List Id} (h : 15 ≤ others.length) :
    s.fsTranslateToken (.ids user (first :: others)) = .error .index := by
  rw [FileServer.fsTranslateToken]
  rw [putAuthid_ok (by omega), ok_bind, putAuthid_ok (by omega), ok_bind]
  rw [fillGroups_fault (by omega) (by omega)]
  · rfl
  · rw [length_take, length_cons, show defaultNsCredLen - 1 = 17 by decide]
    split_ifs <;> omega

end Translate

section Decision

namespace FileServer

variable (s : FileServer)

def checkToken (t : TokenIds) (attr : FsAttr) (access : Rights) : CredRun Bool := do
  match ← s.fsTranslateToken t with
  | none => .ok false
  | some c => s.fsCheckAccessFromData attr access c

def userUid (user : Id) : Id := ofShort (toShort (s.access.fsAuthidToUid user))

def groupGids (groups : List Id) : List Id := groups.map fun id => ofShort (shortGid s id)

def reached : List Id → List Id
  | [] => []
  | first :: others => first :: others.takeWhile (· ≠ 0)

def Decides (user : Id) (groups : List Id) : Prop :=
  ∀ attr access, s.checkToken (.ids user groups) attr access =
    .ok (decide (groups ≠ [] ∧ s.Grants attr access (s.userUid user) (s.groupGids groups)))

def Reaches (user : Id) (groups : List Id) : Prop :=
  groups.length ≤ 15 ∧ (s.Privileged (s.userUid user) (reached (s.groupGids groups)) ∨
    ∀ g ∈ s.groupGids groups, g ∈ reached (s.groupGids groups))

end FileServer

variable {s : FileServer} {user : Id} {groups : List Id} {attr : FsAttr} {access : Rights}

theorem visible_map (l : List (BitVec 16)) :
    (visible l).map ofShort = (l.map ofShort).takeWhile (· ≠ 0) := by
  rw [visible, takeWhile_map]
  have hzero : (fun x : BitVec 16 => decide (x ≠ 0)) =
      (fun x : Id => decide (x ≠ 0)) ∘ ofShort := by
    funext x
    exact decide_eq_decide.mpr (not_congr (ofShort_inj (y := 0)).symm)
  rw [hzero]

theorem seen_eq (first : Id) (others : List Id) :
    seen (shortGid s first) (others.map (shortGid s)) =
      FileServer.reached (s.groupGids (first :: others)) := by
  rw [seen, map_cons, visible_map, map_map]
  rfl

theorem mem_of_mem_reached {g : Id} {l : List Id} (h : g ∈ FileServer.reached l) : g ∈ l := by
  cases l with
  | nil => exact h
  | cons x l =>
    rcases mem_cons.mp h with rfl | h
    · exact mem_cons_self
    · exact mem_cons_of_mem _ ((takeWhile_subset _) h)

theorem Privileged.of_reached {uid : Id} {l : List Id}
    (h : s.Privileged uid (FileServer.reached l)) : s.Privileged uid l :=
  h.imp_right mem_of_mem_reached

theorem checkToken_eq (hne : groups ≠ []) (hlen : groups.length ≤ 15) :
    s.checkToken (.ids user groups) attr access =
      .ok (decide (s.Grants attr access (s.userUid user)
        (FileServer.reached (s.groupGids groups)))) := by
  obtain ⟨first, others, rfl⟩ := exists_cons_of_ne_nil hne
  rw [length_cons] at hlen
  obtain ⟨c, hrun, huid, hgid, hlists⟩ := fsTranslateToken_ok s user first
    (show others.length ≤ 14 by omega)
  rw [FileServer.checkToken, hrun, ok_bind]
  have hcheck := check_eq s attr access hlists
  rwa [huid, hgid, seen_eq] at hcheck

theorem checkToken_fault (h : 16 ≤ groups.length) :
    s.checkToken (.ids user groups) attr access = .error .index := by
  have hne : groups ≠ [] := by
    rintro rfl
    simp at h
  obtain ⟨first, others, rfl⟩ := exists_cons_of_ne_nil hne
  rw [length_cons] at h
  rw [FileServer.checkToken, fsTranslateToken_fault (by omega)]
  rfl

theorem Grants.iff_reached
    (h : s.Privileged (s.userUid user) (FileServer.reached (s.groupGids groups)) ∨
      ∀ g ∈ s.groupGids groups, g ∈ FileServer.reached (s.groupGids groups)) :
    s.Grants attr access (s.userUid user) (FileServer.reached (s.groupGids groups)) ↔
      s.Grants attr access (s.userUid user) (s.groupGids groups) := by
  rcases h with h | h
  · simp only [FileServer.Grants, h, Privileged.of_reached h, true_or]
  · exact FileServer.Grants.congr rfl fun g => ⟨mem_of_mem_reached, h g⟩

theorem FileServer.Reaches.decides (h : s.Reaches user groups) : s.Decides user groups := by
  intro attr access
  by_cases hne : groups = []
  · subst hne
    rfl
  · rw [checkToken_eq hne h.1]
    simp only [Grants.iff_reached h.2, ne_eq, hne, not_false_eq_true, true_and]

def fileOfGroup (uid gid : BitVec 16) : FsAttr := ⟨uid + 1, gid, 0o40⟩

theorem grants_fileOfGroup {uid gid : BitVec 16} {gids : List Id} :
    s.Grants (fileOfGroup uid gid) nsrRead (ofShort uid) gids ↔
      s.Privileged (ofShort uid) gids ∨ ofShort gid ∈ gids := by
  have hother : ¬ofShort uid = ofShort (fileOfGroup uid gid).vaUid := by
    rw [ofShort_inj, fileOfGroup]
    intro h
    simp at h
  have hrights : FileServer.classRights (fileOfGroup uid gid) (ofShort uid) gids &&& nsrRead =
      nsrRead ↔ ofShort gid ∈ gids := by
    rw [FileServer.classRights, if_neg hother]
    by_cases hmem : ofShort gid ∈ gids
    · rw [if_pos (show ofShort (fileOfGroup uid gid).vaGid ∈ gids from hmem)]
      have hread : (nsrReference ||| fsConvertAccessFs2ns
          ((((0o40 : BitVec 16).setWidth 32 &&& 0o777) >>> 3) &&& 0o7)) &&& nsrRead = nsrRead := by
        decide
      exact iff_of_true hread hmem
    · rw [if_neg (show ¬ofShort (fileOfGroup uid gid).vaGid ∈ gids from hmem)]
      have hnone : ¬(nsrReference ||| fsConvertAccessFs2ns
          (((0o40 : BitVec 16).setWidth 32 &&& 0o777) &&& 0o7)) &&& nsrRead = nsrRead := by
        decide
      exact iff_of_false hnone hmem
  rw [FileServer.Grants, hrights]
  have hwrite : nsrWrite &&& nsrRead = 0 := by decide
  have hexec : nsrExecute &&& nsrRead = 0 := by decide
  simp only [hwrite, hexec, ne_eq, not_true_eq_false, false_and, not_false_eq_true, true_and]

theorem FileServer.Decides.reaches (h : s.Decides user groups) : s.Reaches user groups := by
  have hlen : groups.length ≤ 15 := by
    by_contra hlen
    have hrun := h ⟨0, 0, 0⟩ 0
    rw [checkToken_fault (by omega)] at hrun
    cases hrun
  refine ⟨hlen, or_iff_not_imp_left.mpr fun hpriv g hg => ?_⟩
  have hne : groups ≠ [] := by
    rintro rfl
    simp [groupGids] at hg
  obtain ⟨id, -, rfl⟩ := mem_map.mp hg
  have hread := h (fileOfGroup (toShort (s.access.fsAuthidToUid user)) (shortGid s id)) nsrRead
  rw [checkToken_eq hne hlen] at hread
  have hiff := decide_eq_decide.mp (Except.ok.inj hread)
  rw [userUid, grants_fileOfGroup, grants_fileOfGroup] at hiff
  exact (hiff.mpr ⟨hne, Or.inr hg⟩).resolve_left hpriv

theorem groupGids_perm {groups' : List Id} (h : groups.Perm groups') (g : Id) :
    g ∈ s.groupGids groups ↔ g ∈ s.groupGids groups' := (h.map _).mem_iff

/-- A token is decided right for every file and every access, whatever the order of its groups,
exactly when it has no more than fifteen groups and the scans reach what they should. -/
theorem access_decision_iff (s : FileServer) (user : Id) (groups : List Id) :
    (s.Decides user groups ↔ s.Reaches user groups) ∧
      ∀ groups', groups.Perm groups' → s.Reaches user groups →
        ((∀ attr access, s.checkToken (.ids user groups') attr access =
          s.checkToken (.ids user groups) attr access) ↔ s.Reaches user groups') := by
  refine ⟨⟨FileServer.Decides.reaches, FileServer.Reaches.decides⟩, fun groups' hperm hreach => ?_⟩
  have hright : ∀ attr access, decide (groups ≠ [] ∧
      s.Grants attr access (s.userUid user) (s.groupGids groups)) =
      decide (groups' ≠ [] ∧ s.Grants attr access (s.userUid user) (s.groupGids groups')) := by
    intro attr access
    have hnil : groups ≠ [] ↔ groups' ≠ [] :=
      not_congr ⟨fun h => (h ▸ hperm).nil_eq.symm, fun h => (h ▸ hperm).eq_nil⟩
    exact decide_eq_decide.mpr (and_congr hnil (FileServer.Grants.congr rfl (groupGids_perm hperm)))
  constructor
  · intro hsame
    apply FileServer.Decides.reaches
    intro attr access
    rw [hsame, hreach.decides, hright]
  · intro hreach' attr access
    rw [hreach.decides, hreach'.decides, hright]

def plainServer : FileServer := ⟨FsAccess.plain, 2, 0, 1, 2⟩

theorem access_decision_of_two_groups : plainServer.Reaches 1100 [2005, 2007] ∧
    plainServer.checkToken (.ids 1100 [2007, 2005]) ⟨3, 7, 0o640⟩ nsrRead =
      plainServer.checkToken (.ids 1100 [2005, 2007]) ⟨3, 7, 0o640⟩ nsrRead := by
  have hgids : plainServer.groupGids [2005, 2007] = [5, 7] := by decide
  have hgids' : plainServer.groupGids [2007, 2005] = [7, 5] := by decide
  have hreach : plainServer.Reaches 1100 [2005, 2007] := by
    rw [FileServer.Reaches, hgids]
    exact ⟨by decide, Or.inr (by simp [FileServer.reached])⟩
  have hswap : plainServer.Reaches 1100 [2007, 2005] := by
    rw [FileServer.Reaches, hgids']
    exact ⟨by decide, Or.inr (by simp [FileServer.reached])⟩
  have hall := access_decision_iff plainServer 1100 [2005, 2007]
  exact ⟨hreach, (hall.2 [2007, 2005] (Perm.swap _ _ _) hreach).mpr hswap _ _⟩

theorem group_behind_gid_zero : ¬ plainServer.Decides 1100 [2005, 2000, 2007] ∧
    plainServer.checkToken (.ids 1100 [2005, 2000, 2007]) ⟨3, 7, 0o640⟩ nsrRead = .ok false ∧
    plainServer.checkToken (.ids 1100 [2005, 2007, 2000]) ⟨3, 7, 0o640⟩ nsrRead = .ok true := by
  refine ⟨fun hdecides => ?_, by decide, by decide⟩
  have hright := hdecides ⟨3, 7, 0o640⟩ nsrRead
  revert hright
  decide

end Decision

end MachUS.Ux.Prot

namespace MachUS.Ux.Prot

open Function

namespace StdAuth

abbrev Authids := ℕ → Option Id

def put (authid : Authids) (k : ℕ) (id : Id) : CredRun Authids :=
  if 2 + k < defaultNsCredLen then .ok (update authid k (some id)) else .error .index

def transfer : List Id → ℕ → Authids → CredRun Authids
  | [], _, authid => .ok authid
  | id :: rest, i, authid => do
    let authid ← put authid (i + 1) id
    transfer rest (i + 1) authid

def nsTranslateToken (authAnonId : Id) : TokenIds → CredRun (Option (ℕ × Authids))
  | .anonymous => .ok (some (1, update (fun _ => none) 0 (some authAnonId)))
  | .refused => .ok none
  | .ids _ [] => .ok none
  | .ids user (first :: others) => do
    let groups := first :: others
    let xferCount :=
      if groups.length > defaultNsCredLen - 1 then defaultNsCredLen - 1 else groups.length
    let authid ← put (fun _ => none) 0 user
    let authid ← transfer (groups.take xferCount) 0 authid
    .ok (some (xferCount + 1, authid))

theorem put_ok (authid : Authids) {k : ℕ} (h : k ≤ 15) (id : Id) :
    put authid k id = .ok (update authid k (some id)) :=
  if_pos (show 2 + k < 18 by omega)

theorem put_fault (authid : Authids) {k : ℕ} (h : 16 ≤ k) (id : Id) :
    put authid k id = .error .index :=
  if_neg (show ¬2 + k < 18 by omega)

theorem transfer_fault_iff (ids : List Id) {i : ℕ} (hi : i ≤ 15) (authid : Authids) :
    transfer ids i authid = .error .index ↔ 15 < i + ids.length := by
  induction ids generalizing i authid with
  | nil => exact iff_of_false (by rintro ⟨⟩) (by simpa using hi)
  | cons id ids ih =>
    rw [transfer, List.length_cons]
    rcases Nat.lt_or_eq_of_le hi with hlt | rfl
    · rw [put_ok authid hlt id]
      exact (ih hlt _).trans (by omega)
    · rw [put_fault authid le_rfl id]
      exact iff_of_true rfl (by omega)

end StdAuth

open StdAuth

def TokenIds.Fits : TokenIds → Prop
  | .ids _ groups => groups.length ≤ 15
  | _ => True

theorem fs_contained_iff (s : FileServer) (user first : Id) (others : List Id) :
    s.fsTranslateToken (.ids user (first :: others)) ≠ .error .index ↔ others.length ≤ 14 := by
  rcases Nat.lt_or_ge others.length 15 with hlt | hge
  · obtain ⟨c, hc, -⟩ := fsTranslateToken_ok s user first (Nat.le_of_lt_succ hlt)
    exact iff_of_true (by rw [hc]; rintro ⟨⟩) (Nat.le_of_lt_succ hlt)
  · exact iff_of_false (not_not.mpr (fsTranslateToken_fault hge)) (by omega)

theorem std_contained_iff (authAnonId user first : Id) (others : List Id) :
    nsTranslateToken authAnonId (.ids user (first :: others)) ≠ .error .index ↔
      others.length ≤ 14 := by
  rw [nsTranslateToken, put_ok _ (Nat.zero_le _), ok_bind]
  have hiff := transfer_fault_iff ((first :: others).take
    (if (first :: others).length > defaultNsCredLen - 1 then defaultNsCredLen - 1
      else (first :: others).length)) (Nat.zero_le 15) (update (fun _ => none) 0 (some user))
  rw [List.length_take, List.length_cons, show defaultNsCredLen - 1 = 17 by decide] at hiff
  have hlen : others.length ≤ 14 ↔
      ¬15 < 0 + min (if others.length + 1 > 17 then 17 else others.length + 1)
        (others.length + 1) := by
    split_ifs <;> omega
  rw [hlen, ← hiff, List.length_cons, show defaultNsCredLen - 1 = 17 by decide]
  cases transfer ((first :: others).take _) 0 _ with
  | ok authid => exact iff_of_true (by rintro ⟨⟩) (by rintro ⟨⟩)
  | error fault =>
    refine not_congr ⟨fun h => ?_, fun h => ?_⟩
    · exact congrArg Except.error (Except.error.inj h)
    · exact congrArg Except.error (Except.error.inj h)

theorem credentials_contained_iff (s : FileServer) (authAnonId : Id) (t : TokenIds) :
    (s.fsTranslateToken t ≠ .error .index ↔ t.Fits) ∧
      (nsTranslateToken authAnonId t ≠ .error .index ↔ t.Fits) := by
  cases t with
  | anonymous => exact ⟨iff_of_true (by rintro ⟨⟩) trivial, iff_of_true (by rintro ⟨⟩) trivial⟩
  | refused => exact ⟨iff_of_true (by rintro ⟨⟩) trivial, iff_of_true (by rintro ⟨⟩) trivial⟩
  | ids user groups =>
    cases groups with
    | nil =>
      have hfits : (TokenIds.ids user []).Fits := Nat.zero_le _
      exact ⟨iff_of_true (by rintro ⟨⟩) hfits, iff_of_true (by rintro ⟨⟩) hfits⟩
    | cons first others =>
      rw [TokenIds.Fits, List.length_cons, Nat.succ_le_succ_iff]
      exact ⟨fs_contained_iff s user first others, std_contained_iff authAnonId user first others⟩

theorem sixteen_groups_overrun :
    plainServer.fsTranslateToken (.ids 1100 (List.replicate 16 2005)) = .error .index ∧
      nsTranslateToken 2 (.ids 1100 (List.replicate 16 2005)) = .error .index := by
  constructor
  · exact fsTranslateToken_fault (by simp)
  · rfl

end MachUS.Ux.Prot
