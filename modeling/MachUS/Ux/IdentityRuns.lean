import MachUS.Ux.Identity

namespace MachUS.Ux

open Transition List Cred

def Alike (gid : Authid) (xs ys : List Authid) : Prop :=
  (∀ g ∈ xs, g ≠ gid → g ∈ ys) ∧ ∀ g ∈ ys, g ≠ gid → g ∈ xs

def Stands (ident : Ident) (uid gid : Authid) (groups : List Authid) : Prop :=
  ident.take 2 = [uid, gid] ∧ Alike gid (ident.drop 2) groups

section Groups

variable {gid uid g : Authid} {xs ys zs : List Authid} {ident : Ident}

theorem Alike.symm (h : Alike gid xs ys) : Alike gid ys xs := ⟨h.2, h.1⟩

theorem Alike.trans (h : Alike gid xs ys) (h' : Alike gid ys zs) : Alike gid xs zs :=
  ⟨fun g hg hne => h'.1 g (h.1 g hg hne) hne, fun g hg hne => h.2 g (h'.2 g hg hne) hne⟩

theorem alike_filter : Alike gid (xs.filter (· ≠ gid)) xs :=
  ⟨fun _ h _ => mem_of_mem_filter h, fun _ h hne => mem_filter.mpr ⟨h, decide_eq_true hne⟩⟩

theorem unixCred_stands : Stands (Uxident.unixCred uid gid xs).authid uid gid xs :=
  ⟨Eq.refl _, alike_filter⟩

theorem Stands.congr (h : Stands ident uid gid xs) : Stands ident uid gid ys ↔ Alike gid xs ys :=
  ⟨fun h' => h.2.symm.trans h'.2, fun halike => ⟨h.1, h.2.trans halike⟩⟩

end Groups

namespace Uxident

variable {a : FsAccess} {x y : Uxident} {gid : Authid}

theorem length_groupList : x.groupList.length = x.ngroups := by
  rw [groupList, length_map, length_range]

theorem groupList_addGroup : (x.addGroup gid).groupList =
    if gid ∈ x.groupList then x.groupList
    else if x.groupList.length < maxGroups then x.groupList ++ [gid]
    else x.groupList := by
  rw [length_groupList]
  unfold addGroup
  split_ifs with hmem hroom
  · rfl
  · change (range (x.ngroups + 1)).map (Function.update x.groups x.ngroups gid) = _
    rw [range_succ, map_append, map_singleton, Function.update_self]
    refine congrArg (· ++ [gid]) (map_congr_left fun i hi => ?_)
    exact Function.update_of_ne (Nat.ne_of_lt (mem_range.mp hi)) ..
  · rfl

theorem groupList_removeGroup : (x.removeGroup gid).groupList = x.groupList.erase gid := by
  unfold removeGroup
  cases hfind : (range x.ngroups).find? fun i => x.groups i = gid with
  | none =>
    refine (erase_of_not_mem fun hmem => ?_).symm
    obtain ⟨i, hi, heq⟩ := mem_map.mp hmem
    exact absurd (decide_eq_true heq) (find?_eq_none.mp hfind i hi)
  | some i =>
    obtain ⟨hi, hlt, hbefore⟩ := find?_range_eq_some.mp hfind
    have hlength := length_groupList (x := x)
    have hilt : i < x.ngroups := mem_range.mp hlt
    have hget (j : ℕ) (hj : j < x.groupList.length) : x.groupList[j] = x.groups j := by
      simp only [groupList, getElem_map, getElem_range]
    have hidx : x.groupList.idxOf gid = i := by
      refine (findIdx_eq (by omega)).mpr ⟨?_, fun j hj => ?_⟩
      · rw [hget]
        exact beq_iff_eq.mpr (of_decide_eq_true hi)
      · rw [hget]
        have hne := hbefore j hj
        simp only [Bool.not_eq_true', decide_eq_false_iff_not] at hne
        exact beq_eq_false_iff_ne.mpr hne
    rw [erase_eq_eraseIdx_of_idxOf hidx]
    have hshort : (x.groupList.eraseIdx i).length = x.ngroups - 1 := by
      rw [length_eraseIdx_of_lt (by omega), hlength]
    refine ext_getElem ?_ fun j hj hj' => ?_
    · rw [hshort]
      exact length_groupList
    · rw [getElem_eraseIdx]
      simp only [groupList, getElem_map, getElem_range]
      split_ifs <;> first | rfl | omega

def replaceGroup (groups : List Authid) (o g : Authid) : List Authid :=
  if g ∈ groups.erase o then groups.erase o
  else if (groups.erase o).length < maxGroups then groups.erase o ++ [g]
  else groups.erase o

def Unseen (groups : List Authid) (o rgid egid : Authid) : Prop :=
  (o ∈ groups → o ∈ groups.erase o) ∧
    (rgid = egid ∨ rgid ∈ groups ∨ maxGroups ≤ (groups.erase o).length)

theorem mem_replaceGroup {groups : List Authid} {o rgid g : Authid} :
    g ∈ replaceGroup groups o rgid ↔
      g ∈ groups.erase o ∨ g = rgid ∧ (groups.erase o).length < maxGroups := by
  unfold replaceGroup
  split_ifs with hmem hroom
  · exact ⟨.inl, fun h => h.elim id fun h => h.1 ▸ hmem⟩
  · simp only [mem_append, mem_singleton, hroom, and_true]
  · simp only [hroom, and_false, or_false]

theorem replaceGroup_alike (groups : List Authid) {o rgid : Authid} (egid : Authid) (hne : rgid ≠ o) :
    Alike egid groups (replaceGroup groups o rgid) ∧ Alike rgid groups (replaceGroup groups o rgid) ↔
      Unseen groups o rgid egid := by
  constructor
  · intro ⟨he, hr⟩
    refine ⟨fun ho => ?_, ?_⟩
    · rcases mem_replaceGroup.mp (hr.1 o ho hne.symm) with h | ⟨h, -⟩
      · exact h
      · exact absurd h.symm hne
    · by_contra h
      simp only [not_or, Nat.not_le] at h
      obtain ⟨heff, hmem, hroom⟩ := h
      exact hmem (he.2 rgid (mem_replaceGroup.mpr (.inr ⟨rfl, hroom⟩)) heff)
  · intro ⟨hold, hnew⟩
    have hinto (g : Authid) (hg : g ∈ groups) : g ∈ replaceGroup groups o rgid := by
      refine mem_replaceGroup.mpr (.inl ?_)
      rcases eq_or_ne g o with rfl | hgo
      · exact hold hg
      · exact (mem_erase_of_ne hgo).mpr hg
    refine ⟨⟨fun g hg _ => hinto g hg, fun g hg hge => ?_⟩, fun g hg _ => hinto g hg, fun g hg hgr => ?_⟩
    · rcases mem_replaceGroup.mp hg with h | ⟨rfl, hroom⟩
      · exact mem_of_mem_erase h
      · rcases hnew with heff | hmem | hfull
        · exact absurd heff hge
        · exact hmem
        · exact absurd hroom (Nat.not_lt.mpr hfull)
    · rcases mem_replaceGroup.mp hg with h | ⟨rfl, -⟩
      · exact mem_of_mem_erase h
      · exact absurd rfl hgr

theorem groupList_replace (rgid : Authid) :
    ((x.removeGroup x.rGid).addGroup rgid).groupList = replaceGroup x.groupList x.rGid rgid := by
  rw [groupList_addGroup, groupList_removeGroup]
  rfl

theorem replaced_uids {o g : Authid} : ((x.removeGroup o).addGroup g).rUid = x.rUid ∧
    ((x.removeGroup o).addGroup g).eUid = x.eUid := by
  unfold addGroup removeGroup
  split_ifs <;> split <;> exact ⟨rfl, rfl⟩

def Holds (x : Uxident) (g : Authid) : Prop := g = x.rGid ∨ g = x.eGid ∨ g ∈ x.groupList

instance (x : Uxident) (g : Authid) : Decidable (x.Holds g) := inferInstanceAs (Decidable (_ ∨ _))

structure Consistent (x : Uxident) : Prop where
  euEg : Stands x.euEg x.eUid x.eGid x.groupList
  ruRg : Stands x.ruRg x.rUid x.rGid x.groupList

structure Within (x y : Uxident) : Prop where
  rUid : y.rUid = x.rUid ∨ y.rUid = x.eUid
  eUid : y.eUid = x.rUid ∨ y.eUid = x.eUid
  rGid : y.rGid = x.rGid ∨ y.rGid = x.eGid
  eGid : y.eGid = x.rGid ∨ y.eGid = x.eGid
  euEg : ∀ g ∈ y.euEg.drop 2, x.Holds g
  ruRg : ∀ g ∈ y.ruRg.drop 2, x.Holds g

structure Unchanged (x y : Uxident) : Prop where
  rUid : y.rUid = x.rUid
  eUid : y.eUid = x.eUid
  rGid : y.rGid = x.rGid
  eGid : y.eGid = x.eGid
  groups : y.groupList = x.groupList
  euEg : y.euEg = x.euEg
  ruRg : y.ruRg = x.ruRg

instance (x y : Uxident) : Decidable (x.Within y) :=
  decidable_of_iff ((y.rUid = x.rUid ∨ y.rUid = x.eUid) ∧ (y.eUid = x.rUid ∨ y.eUid = x.eUid) ∧
      (y.rGid = x.rGid ∨ y.rGid = x.eGid) ∧ (y.eGid = x.rGid ∨ y.eGid = x.eGid) ∧
      (∀ g ∈ y.euEg.drop 2, x.Holds g) ∧ ∀ g ∈ y.ruRg.drop 2, x.Holds g)
    ⟨fun ⟨ru, eu, rg, eg, e, r⟩ => ⟨ru, eu, rg, eg, e, r⟩,
      fun h => ⟨h.rUid, h.eUid, h.rGid, h.eGid, h.euEg, h.ruRg⟩⟩

instance (x y : Uxident) : Decidable (x.Unchanged y) :=
  decidable_of_iff (y.rUid = x.rUid ∧ y.eUid = x.eUid ∧ y.rGid = x.rGid ∧ y.eGid = x.eGid ∧
      y.groupList = x.groupList ∧ y.euEg = x.euEg ∧ y.ruRg = x.ruRg)
    ⟨fun ⟨ru, eu, rg, eg, g, e, r⟩ => ⟨ru, eu, rg, eg, g, e, r⟩,
      fun h => ⟨h.rUid, h.eUid, h.rGid, h.eGid, h.groups, h.euEg, h.ruRg⟩⟩

structure History where
  ident : Uxident
  overran : Bool
  gained : Bool
  spoilt : Bool

namespace History

def boot (ident : Ident) (translated : Bool) (groups : ℕ → Authid) : History :=
  ⟨create ident translated groups, false, false, false⟩

variable (a)

def next (h : History) (c : Call) : Option History :=
  let o := h.ident.call a c
  some
    { ident := o.after
      overran := h.overran || o.overran
      gained := h.gained || (!a.isRoot h.ident.rUid && decide ¬ h.ident.Within o.after)
      spoilt := h.spoilt || decide (o.code ≠ .success ∧ ¬ h.ident.Unchanged o.after) }

structure Sound (h : History) : Prop where
  consistent : h.ident.Consistent
  overran : h.overran = false
  gained : h.gained = false
  spoilt : h.spoilt = false

end History

def Settles (made : Made) (euEg ruRg : Option Cred) (Q : Prop) : Prop :=
  (∀ c ∈ euEg, c.overran = false) ∧ (euEg = none ∨ made.euEg = none →
    (∀ c ∈ ruRg, c.overran = false) ∧ (ruRg = none ∨ made.ruRg = none → Q))

variable {made : Made} {euEg ruRg : Option Cred} {Q : Prop}

variable (x y made euEg ruRg Q) in
theorem remake_cases : (∃ code overran, x.remake made euEg ruRg y = ⟨.failed code, x, overran⟩ ∧
      (overran = false ↔ Settles made euEg ruRg Q)) ∨
    (∃ overran, x.remake made euEg ruRg y = ⟨.success,
        { y with
          euEg := euEg.elim x.euEg authid
          ruRg := ruRg.elim x.ruRg authid }, overran⟩ ∧
      (overran = false ∧ Q ↔ Settles made euEg ruRg Q)) := by
  obtain ⟨me, mr⟩ := made
  cases euEg <;> cases me <;> cases ruRg <;> cases mr <;> simp [remake, Settles, and_assoc]

variable (a x) in
structure Good (o : Outcome) : Prop where
  consistent : o.after.Consistent
  overran : o.overran = false
  within : a.isRoot x.rUid = false → x.Within o.after
  unchanged : o.code ≠ .success → x.Unchanged o.after

theorem Unchanged.rfl : x.Unchanged x := ⟨.refl _, .refl _, .refl _, .refl _, .refl _, .refl _, .refl _⟩

theorem Stands.holds {ident : Ident} {uid gid g : Authid} (h : Stands ident uid gid x.groupList)
    (hgid : gid = x.rGid ∨ gid = x.eGid) (hg : g ∈ ident.drop 2) : x.Holds g := by
  by_cases heq : g = gid
  · exact heq ▸ hgid.elim .inl fun h => .inr (.inl h)
  · exact .inr (.inr (h.2.1 g hg heq))

theorem Consistent.within (h : x.Consistent) : x.Within x :=
  ⟨.inl rfl, .inr rfl, .inl rfl, .inr rfl, fun _ hg => Stands.holds h.euEg (.inr rfl) hg,
    fun _ hg => Stands.holds h.ruRg (.inl rfl) hg⟩

theorem Consistent.refused {code : IdentCode} (h : x.Consistent) : Good a x ⟨code, x, false⟩ :=
  ⟨h, rfl, fun _ => h.within, fun _ => .rfl⟩

theorem good_remake (hx : x.Consistent)
    (hQ : (Consistent { y with euEg := euEg.elim x.euEg authid, ruRg := ruRg.elim x.ruRg authid } ∧
      (a.isRoot x.rUid = false → x.Within
        { y with euEg := euEg.elim x.euEg authid, ruRg := ruRg.elim x.ruRg authid })) ↔ Q) :
    Good a x (x.remake made euEg ruRg y) ↔ Settles made euEg ruRg Q := by
  rcases remake_cases x y made euEg ruRg Q with
    ⟨code, overran, heq, hsettles⟩ | ⟨overran, heq, hsettles⟩
  · rw [heq, ← hsettles]
    exact ⟨fun h => h.overran, fun h => ⟨hx, h, fun _ => hx.within, fun _ => .rfl⟩⟩
  · rw [heq, ← hsettles]
    exact ⟨fun h => ⟨h.overran, hQ.mp ⟨h.consistent, h.within⟩⟩,
      fun ⟨hfits, h⟩ => ⟨(hQ.mpr h).1, hfits, (hQ.mpr h).2, fun hne => absurd rfl hne⟩⟩

def Refused (a : FsAccess) (x : Uxident) (r e r' e' : Authid) : Prop :=
  (r' = r ∧ e' = e) ∨ (r' ≠ r ∧ r' ≠ e ∧ ¬ a.isRoot x.rUid) ∨ (e' ≠ r ∧ e' ≠ e ∧ ¬ a.isRoot x.rUid)

def Spared (a : FsAccess) (x : Uxident) : Call → Prop
  | .setReuid uxRuid uxEuid made =>
    let ruid := if uxRuid = -1 then x.rUid else a.uidToAuthid uxRuid
    let euid := if uxEuid = -1 then x.eUid else a.uidToAuthid uxEuid
    ¬ Refused a x x.rUid x.eUid ruid euid →
      Settles made (if euid = x.eUid then none else some (unixCred euid x.eGid x.groupList))
        (if ruid = x.rUid then none else some (unixCred ruid x.rGid x.groupList)) True
  | .setRegid uxRgid uxEgid made =>
    let rgid := if uxRgid = -1 then x.rGid else a.gidToAuthid uxRgid
    let egid := if uxEgid = -1 then x.eGid else a.gidToAuthid uxEgid
    ¬ Refused a x x.rGid x.eGid rgid egid →
      Settles made (if egid = x.eGid then none else some (unixCred x.eUid egid x.groupList))
        (if rgid = x.rGid then none else some (unixCred x.rUid rgid x.groupList))
        (rgid ≠ x.rGid → Unseen x.groupList x.rGid rgid egid)
  | .setGroups gidset ngroups made =>
    let n := (ngroups % 2 ^ 32).toNat
    let groups := (range n).map fun i => a.gidToAuthid (gidset i)
    let stored := (range n).map x.groups
    n ≤ maxGroups →
      Settles made (some (unixCred x.eUid x.eGid groups)) (some (unixCred x.rUid x.rGid groups))
        (Alike x.eGid groups stored ∧ Alike x.rGid groups stored ∧
          (a.isRoot x.rUid = false → ∀ g ∈ groups, x.Holds g))

theorem allowed {r e r' e' : Authid} (h : ¬ Refused a x r e r' e') (hroot : a.isRoot x.rUid = false) :
    (r' = r ∨ r' = e) ∧ (e' = r ∨ e' = e) := by
  simp only [Refused, not_or, not_and, hroot, Bool.false_eq_true, not_false_eq_true, not_true_eq_false,
    imp_false, not_not] at h
  obtain ⟨-, hr, he⟩ := h
  exact ⟨or_iff_not_imp_left.mpr hr, or_iff_not_imp_left.mpr he⟩

theorem good_unless_refused {r e r' e' : Authid} {o : Outcome} {P : Prop} (hx : x.Consistent)
    (hgood : ¬ Refused a x r e r' e' → (Good a x o ↔ P)) :
    Good a x (if r' = r ∧ e' = e then ⟨.objectExists, x, false⟩
      else if r' ≠ r ∧ r' ≠ e ∧ ¬ a.isRoot x.rUid then ⟨.invalidAccess, x, false⟩
      else if e' ≠ r ∧ e' ≠ e ∧ ¬ a.isRoot x.rUid then ⟨.invalidAccess, x, false⟩
      else o) ↔ (¬ Refused a x r e r' e' → P) := by
  split_ifs with hsame hreal heff
  · exact iff_of_true hx.refused fun h => absurd (.inl hsame) h
  · exact iff_of_true hx.refused fun h => absurd (.inr (.inl hreal)) h
  · exact iff_of_true hx.refused fun h => absurd (.inr (.inr heff)) h
  · have hallowed : ¬ Refused a x r e r' e' := by
      rintro (h | h | h)
      · exact hsame h
      · exact hreal h
      · exact heff h
    exact (hgood hallowed).trans ⟨fun h _ => h, fun h => h hallowed⟩

theorem stands_made {uid gid uid' gid' : Authid} {ident : Ident} {groups : List Authid}
    (h : Stands ident uid gid groups) {c : Option Cred}
    (hc : c = none ∧ uid' = uid ∧ gid' = gid ∨ c = some (unixCred uid' gid' groups)) :
    Stands (c.elim ident authid) uid' gid' groups := by
  rcases hc with ⟨rfl, rfl, rfl⟩ | rfl
  · exact h
  · exact unixCred_stands

theorem setReuid_good (hx : x.Consistent) {uxRuid uxEuid : ℤ} :
    Good a x (x.setReuid a uxRuid uxEuid made) ↔ Spared a x (.setReuid uxRuid uxEuid made) := by
  simp only [setReuid, Spared]
  generalize (if uxRuid = -1 then x.rUid else a.uidToAuthid uxRuid) = ruid
  generalize (if uxEuid = -1 then x.eUid else a.uidToAuthid uxEuid) = euid
  refine good_unless_refused hx fun hallowed => good_remake hx (iff_true_intro ?_)
  have heu : Stands ((if euid = x.eUid then none else some (unixCred euid x.eGid x.groupList)).elim
      x.euEg authid) euid x.eGid x.groupList := by
    refine stands_made hx.euEg ?_
    split_ifs with heq
    · exact .inl ⟨rfl, heq, rfl⟩
    · exact .inr rfl
  have hru : Stands ((if ruid = x.rUid then none else some (unixCred ruid x.rGid x.groupList)).elim
      x.ruRg authid) ruid x.rGid x.groupList := by
    refine stands_made hx.ruRg ?_
    split_ifs with heq
    · exact .inl ⟨rfl, heq, rfl⟩
    · exact .inr rfl
  refine ⟨⟨heu, hru⟩, fun hroot => ?_⟩
  obtain ⟨hr, he⟩ := allowed hallowed hroot
  exact ⟨hr, he, .inl rfl, .inr rfl, fun _ hg => Stands.holds heu (.inr rfl) hg,
    fun _ hg => Stands.holds hru (.inl rfl) hg⟩

theorem setRegid_good (hx : x.Consistent) {uxRgid uxEgid : ℤ} :
    Good a x (x.setRegid a uxRgid uxEgid made) ↔ Spared a x (.setRegid uxRgid uxEgid made) := by
  simp only [setRegid, Spared]
  generalize (if uxRgid = -1 then x.rGid else a.gidToAuthid uxRgid) = rgid
  generalize (if uxEgid = -1 then x.eGid else a.gidToAuthid uxEgid) = egid
  refine good_unless_refused hx fun hallowed => good_remake hx ?_
  have heu : Stands ((if egid = x.eGid then none else some (unixCred x.eUid egid x.groupList)).elim
      x.euEg authid) x.eUid egid x.groupList := by
    refine stands_made hx.euEg ?_
    split_ifs with heq
    · exact .inl ⟨rfl, rfl, heq⟩
    · exact .inr rfl
  have hru : Stands ((if rgid = x.rGid then none else some (unixCred x.rUid rgid x.groupList)).elim
      x.ruRg authid) x.rUid rgid x.groupList := by
    refine stands_made hx.ruRg ?_
    split_ifs with heq
    · exact .inl ⟨rfl, rfl, heq⟩
    · exact .inr rfl
  have hwithin (y : Uxident) (hid : y.rUid = x.rUid ∧ y.eUid = x.eUid ∧ y.rGid = rgid ∧ y.eGid = egid)
      (hroot : a.isRoot x.rUid = false) : x.Within
        { y with
          euEg := (if egid = x.eGid then none
            else some (unixCred x.eUid egid x.groupList)).elim x.euEg authid
          ruRg := (if rgid = x.rGid then none
            else some (unixCred x.rUid rgid x.groupList)).elim x.ruRg authid } := by
    obtain ⟨hr, he⟩ := allowed hallowed hroot
    obtain ⟨hru', heu', hrg', heg'⟩ := hid
    exact ⟨.inl hru', .inr heu', hrg' ▸ hr, heg' ▸ he, fun _ hg => Stands.holds heu he hg,
      fun _ hg => Stands.holds hru hr hg⟩
  by_cases hsame : rgid = x.rGid
  · simp only [if_pos hsame] at hru hwithin ⊢
    exact iff_of_true
      ⟨⟨heu, hru⟩, hwithin { x with rGid := rgid, eGid := egid } ⟨rfl, rfl, rfl, rfl⟩⟩
      fun hne => absurd hsame hne
  · simp only [if_neg hsame] at hru hwithin ⊢
    obtain ⟨hrUid, heUid⟩ := replaced_uids (x := x) (o := x.rGid) (g := rgid)
    have hlist := groupList_replace (x := x) rgid
    generalize (x.removeGroup x.rGid).addGroup rgid = z at hrUid heUid hlist ⊢
    have hboth := replaceGroup_alike x.groupList egid hsame
    rw [← hlist] at hboth
    constructor
    · intro ⟨⟨he, hr⟩, _⟩ _
      rw [heUid] at he
      rw [hrUid] at hr
      exact hboth.mp ⟨heu.congr.mp he, hru.congr.mp hr⟩
    · intro hunseen
      obtain ⟨he, hr⟩ := hboth.mpr (hunseen hsame)
      refine ⟨⟨?_, ?_⟩, hwithin { z with rGid := rgid, eGid := egid } ⟨hrUid, heUid, rfl, rfl⟩⟩
      · rw [heUid]
        exact heu.congr.mpr he
      · rw [hrUid]
        exact hru.congr.mpr hr

theorem setGroups_good (hx : x.Consistent) {gidset : ℕ → ℤ} {ngroups : ℤ} :
    Good a x (x.setGroups a gidset ngroups made) ↔ Spared a x (.setGroups gidset ngroups made) := by
  simp only [setGroups, Spared]
  split_ifs with hmany
  · exact iff_of_true hx.refused fun h => absurd h (Nat.not_le.mpr hmany)
  · generalize (ngroups % 2 ^ 32).toNat = n at hmany ⊢
    generalize (range n).map (fun i => a.gidToAuthid (gidset i)) = groups
    rw [imp_iff_right (Nat.not_lt.mp hmany)]
    refine good_remake hx ?_
    have heu : Stands (unixCred x.eUid x.eGid groups).authid x.eUid x.eGid groups := unixCred_stands
    have hru : Stands (unixCred x.rUid x.rGid groups).authid x.rUid x.rGid groups := unixCred_stands
    have hwithin : x.Within
        { x with
          ngroups := n
          euEg := (unixCred x.eUid x.eGid groups).authid
          ruRg := (unixCred x.rUid x.rGid groups).authid } ↔ ∀ g ∈ groups, x.Holds g := by
      constructor
      · intro h g hg
        by_cases heq : g = x.eGid
        · exact .inr (.inl heq)
        · exact h.euEg g (heu.2.2 g hg heq)
      · intro h
        refine ⟨.inl rfl, .inr rfl, .inl rfl, .inr rfl, fun g hg => ?_, fun g hg => ?_⟩
        · by_cases heq : g = x.eGid
          · exact .inr (.inl heq)
          · exact h g (heu.2.1 g hg heq)
        · by_cases heq : g = x.rGid
          · exact .inl heq
          · exact h g (hru.2.1 g hg heq)
    constructor
    · intro ⟨⟨he, hr⟩, hholds⟩
      exact ⟨heu.congr.mp he, hru.congr.mp hr, fun hroot => hwithin.mp (hholds hroot)⟩
    · intro ⟨he, hr, hholds⟩
      exact ⟨⟨heu.congr.mpr he, hru.congr.mpr hr⟩, fun hroot => hwithin.mpr (hholds hroot)⟩

theorem call_good (hx : x.Consistent) (c : Call) : Good a x (x.call a c) ↔ Spared a x c := by
  cases c with
  | setReuid uxRuid uxEuid made => exact setReuid_good hx
  | setRegid uxRgid uxEgid made => exact setRegid_good hx
  | setGroups gidset ngroups made => exact setGroups_good hx

namespace History

variable {h h' : History} {c : Call}

theorem next_sound (hs : h.Sound) (hh : next a h c = some h') : h'.Sound ↔ Spared a h.ident c := by
  cases hh
  rw [← call_good hs.consistent]
  have hflags : (h.gained || (!a.isRoot h.ident.rUid && decide ¬ h.ident.Within (h.ident.call a c).after)) =
      false ↔ (a.isRoot h.ident.rUid = false → h.ident.Within (h.ident.call a c).after) := by
    rw [hs.gained, Bool.false_or, Bool.and_eq_false_iff, Bool.not_eq_false', decide_eq_false_iff_not,
      not_not]
    cases a.isRoot h.ident.rUid <;> simp
  have hspoilt : (h.spoilt || decide ((h.ident.call a c).code ≠ .success ∧
      ¬ h.ident.Unchanged (h.ident.call a c).after)) = false ↔
      ((h.ident.call a c).code ≠ .success → h.ident.Unchanged (h.ident.call a c).after) := by
    rw [hs.spoilt, Bool.false_or, decide_eq_false_iff_not, not_and, not_not]
  have hoverran : (h.overran || (h.ident.call a c).overran) = false ↔
      (h.ident.call a c).overran = false := by
    rw [hs.overran, Bool.false_or]
  exact ⟨fun hy => ⟨hy.consistent, hoverran.mp hy.overran, hflags.mp hy.gained, hspoilt.mp hy.spoilt⟩,
    fun hg => ⟨hg.consistent, hoverran.mpr hg.overran, hflags.mpr hg.within, hspoilt.mpr hg.unchanged⟩⟩

def Lone (ident : Ident) (translated : Bool) : Prop :=
  ∃ uid gid groups, ident = uid :: gid :: groups ∧ (∀ g ∈ groups, g = gid) ∧
    (translated = false → uid = -1 ∧ gid = -1)

theorem boot_sound {ident : Ident} {translated : Bool} {groups : ℕ → Authid} :
    (boot ident translated groups).Sound ↔ Lone ident translated := by
  have hconsistent : (boot ident translated groups).Sound ↔ (create ident translated groups).Consistent :=
    ⟨fun h => h.consistent, fun h => ⟨h, rfl, rfl, rfl⟩⟩
  rw [hconsistent]
  have htwice (uid gid : Authid) {xs : List Authid} (hx : xs = [gid] ∨ xs = []) :
      Stands ident uid gid xs ↔ ∃ rest, ident = uid :: gid :: rest ∧ ∀ g ∈ rest, g = gid := by
    have hnone (g : Authid) (hg : g ∈ xs) (hne : g ≠ gid) : False := by
      rcases hx with rfl | rfl
      · exact hne (mem_singleton.mp hg)
      · exact absurd hg not_mem_nil
    constructor
    · intro ⟨hhead, hrest⟩
      refine ⟨ident.drop 2, ?_, fun g hg => ?_⟩
      · rw [← take_append_drop 2 ident, hhead]
        simp
      · by_contra hne
        exact hnone g (hrest.1 g hg hne) hne
    · rintro ⟨rest, rfl, hrest⟩
      exact ⟨rfl, fun g hg hne => absurd (hrest g hg) hne, fun g hg hne => (hnone g hg hne).elim⟩
  cases translated with
  | true =>
    have hlist : (create ident true groups).groupList = [ident.getD 1 0] := rfl
    constructor
    · intro h
      obtain ⟨rest, heq, hrest⟩ := (htwice _ _ (.inl hlist)).mp h.euEg
      exact ⟨_, _, rest, heq, hrest, fun h => Bool.noConfusion h⟩
    · rintro ⟨uid, gid, rest, rfl, hrest, -⟩
      have hstands := (htwice uid gid (.inl hlist)).mpr ⟨rest, rfl, hrest⟩
      exact ⟨hstands, hstands⟩
  | false =>
    have hlist : (create ident false groups).groupList = [] := rfl
    constructor
    · intro h
      obtain ⟨rest, heq, hrest⟩ := (htwice _ _ (.inr hlist)).mp h.euEg
      exact ⟨_, _, rest, heq, hrest, fun _ => ⟨rfl, rfl⟩⟩
    · rintro ⟨uid, gid, rest, rfl, hrest, hids⟩
      obtain ⟨rfl, rfl⟩ := hids rfl
      have hstands := (htwice _ _ (.inr hlist)).mpr ⟨rest, rfl, hrest⟩
      exact ⟨hstands, hstands⟩

theorem exec_total (cs : List Call) : ∃ h', exec (next a) h cs = some h' := by
  induction cs generalizing h with
  | nil => exact ⟨h, rfl⟩
  | cons c cs ih => exact ih

theorem identities_consistent (a : FsAccess) (ident : Ident) (translated : Bool) (groups : ℕ → Authid)
    (cs : List Call) : Throughout (next a) Sound (boot ident translated groups) cs ↔
      Lone ident translated ∧
        Admits (next a) (fun h c => Spared a h.ident c) (boot ident translated groups) cs := by
  obtain ⟨h', hrun⟩ := exec_total (a := a) (h := boot ident translated groups) cs
  have hiff (hboot : (boot ident translated groups).Sound) :
      Throughout (next a) Sound (boot ident translated groups) cs ↔
        Admits (next a) (fun h c => Spared a h.ident c) (boot ident translated groups) cs :=
    throughout_iff (I := Sound) (fun _ h => h) (fun _ _ _ h hc hy => (next_sound h hy).mpr hc)
      (fun _ _ _ h hy hsound => (next_sound h hy).mp hsound) hboot hrun
  constructor
  · intro h
    have hboot : (boot ident translated groups).Sound := by
      cases cs with
      | nil => exact h
      | cons _ _ => exact h.1
    exact ⟨boot_sound.mp hboot, (hiff hboot).mp h⟩
  · intro ⟨hlone, hadmits⟩
    exact (hiff (boot_sound.mpr hlone)).mpr hadmits

def unix : FsAccess := ⟨fun uid => uid + 100, fun gid => gid + 200, 100, 200⟩

theorem setRegid_leaves_identity : Lone [100, 200] true ∧
    ∃ h, exec (next unix) (boot [100, 200] true fun _ => 0) [.setRegid 5 (-1) ⟨none, none⟩] = some h ∧
      h.ident.groupList = [205] ∧ ¬ h.ident.Consistent :=
  ⟨⟨100, 200, [], rfl, fun _ hg => absurd hg not_mem_nil, fun h => Bool.noConfusion h⟩, _, rfl,
    by decide, fun h => absurd (h.euEg.2.2 205 (by decide)) (by decide)⟩

end History

end Uxident

end MachUS.Ux
