import Mathlib.Data.BitVec

namespace MachUS.Ux.Prot

open BitVec

abbrev Id := BitVec 32

abbrev Rights := BitVec 32

abbrev Mode := BitVec 32

def nsrAdmin : Rights := 0x1

def nsrLookup : Rights := 0x2

def nsrInsert : Rights := 0x4

def nsrDelete : Rights := 0x8

def nsrRead : Rights := 0x10

def nsrWrite : Rights := 0x20

def nsrExecute : Rights := 0x40

def nsrGetattr : Rights := 0x100

def zeroId : Id := -1

def userAuthid : Id := 1000

def groupAuthid : Id := 2000

abbrev IdTable := Id → Id

structure FsAccess where
  authidToUid : Option IdTable
  authidToGid : Option IdTable
  uidToAuthid : Option IdTable
  gidToAuthid : Option IdTable
  privAuthid : Id
  rootAuthid : Id

structure AclEntry where
  authid : Id
  rights : Rights
  deriving DecidableEq

abbrev Acl := List AclEntry

structure UnixProt where
  uid : Id
  gid : Id
  mode : Mode
  deriving DecidableEq

structure FsAttr where
  vaUid : BitVec 16
  vaGid : BitVec 16
  vaMode : BitVec 16

inductive ProtCode where
  | success
  | unsupportedProt
  deriving DecidableEq

def fsConvertAccessFs2ns (mode : Mode) : Rights :=
  nsrGetattr ||| (if mode &&& 1 ≠ 0 then nsrLookup ||| nsrExecute ||| nsrRead else 0) |||
    (if mode &&& 2 ≠ 0 then nsrInsert ||| nsrDelete ||| nsrWrite else 0) |||
    (if mode &&& 4 ≠ 0 then nsrRead else 0)

def fsConvertAccessNs2fs (access : Rights) : Mode :=
  let access := access &&& ~~~(nsrAdmin ||| nsrGetattr)
  (if access &&& nsrExecute ≠ 0 then 1 else 0) ||| (if access &&& nsrLookup ≠ 0 then 1 else 0) |||
    (if access &&& nsrInsert ≠ 0 then 2 else 0) ||| (if access &&& nsrDelete ≠ 0 then 2 else 0) |||
    (if access &&& nsrWrite ≠ 0 then 2 else 0) ||| (if access &&& nsrRead ≠ 0 then 4 else 0)

def mapped (table : Option IdTable) (key other : Id) : Id :=
  match table with
  | none => other
  | some t => if t key ≠ 0 then if t key = zeroId then 0 else t key else other

namespace FsAccess

variable (a : FsAccess)

def fsAuthidToUid (id : Id) : Id :=
  mapped a.authidToUid id (if id = a.rootAuthid ∨ id = a.privAuthid then 0 else id - userAuthid)

def fsAuthidToGid (id : Id) : Id :=
  mapped a.authidToGid id (if id = a.rootAuthid ∨ id = a.privAuthid then 1 else id - groupAuthid)

def fsUidToAuthid (uid : Id) : Id :=
  mapped a.uidToAuthid uid (if uid = 0 then a.rootAuthid else uid + userAuthid)

def fsGidToAuthid (gid : Id) : Id :=
  mapped a.gidToAuthid gid (if gid = 1 ∨ gid = 0 then a.privAuthid else gid + groupAuthid)

def fsConvertProtFs2ns (attr : FsAttr) : Acl :=
  let mode := attr.vaMode.setWidth 32
  [⟨a.fsUidToAuthid (attr.vaUid.signExtend 32),
      nsrAdmin ||| fsConvertAccessFs2ns ((mode &&& 0o700) >>> 6)⟩,
    ⟨a.fsGidToAuthid (attr.vaGid.signExtend 32), fsConvertAccessFs2ns ((mode &&& 0o70) >>> 3)⟩,
    ⟨0, fsConvertAccessFs2ns (mode &&& 0o7)⟩]

def uxprotUnixToStdProt (p : UnixProt) : Acl :=
  [⟨a.fsUidToAuthid p.uid, fsConvertAccessFs2ns ((p.mode &&& 0o700) >>> 6) ||| nsrAdmin⟩,
    ⟨a.fsUidToAuthid p.gid, fsConvertAccessFs2ns ((p.mode &&& 0o70) >>> 3)⟩,
    ⟨0, fsConvertAccessFs2ns (p.mode &&& 0o7)⟩]

end FsAccess

structure Sorted where
  owner : Id
  group : Id
  ownerFound : Bool
  groupFound : Bool
  ownerRights : Rights
  groupRights : Rights
  defaultRights : Rights

namespace Sorted

def init : Sorted := ⟨0, 0, false, false, 0, 0, 0⟩

variable (s : Sorted)

def entry (first : Bool) (e : AclEntry) : Sorted :=
  if e.authid = 0 then { s with defaultRights := s.defaultRights ||| e.rights }
  else if first then
    { s with
      owner := if s.ownerFound then 0 else e.authid
      ownerFound := true
      defaultRights := if s.ownerFound then s.defaultRights ||| e.rights else s.defaultRights
      ownerRights := s.ownerRights ||| e.rights }
  else
    { s with
      group := if s.groupFound then 0 else e.authid
      groupFound := true
      defaultRights := if s.groupFound then s.defaultRights ||| e.rights else s.defaultRights
      groupRights := s.groupRights ||| e.rights }

def privileged : Sorted :=
  if s.defaultRights &&& nsrAdmin ≠ 0 then
    { s with owner := 0, ownerRights := s.ownerRights ||| s.defaultRights }
  else s

def sort (acl : Acl) : Sorted :=
  (match acl with
    | [] => init
    | e :: acl => acl.foldl (fun s e => s.entry false e) (init.entry true e)).privileged

end Sorted

namespace FsAccess

variable (a : FsAccess)

def uxprotStdToUnixProt (acl : Acl) : ProtCode × UnixProt :=
  let s := Sorted.sort acl
  (if s.owner = 0 then .unsupportedProt else .success,
    { uid := if s.owner = 0 then -1 else a.fsAuthidToUid s.owner
      gid := if s.owner = 0 then -1 else a.fsAuthidToGid s.group
      mode := (fsConvertAccessNs2fs s.ownerRights <<< 6) ||| (fsConvertAccessNs2fs s.groupRights <<< 3) |||
        fsConvertAccessNs2fs s.defaultRights })

end FsAccess

section Modes

def UnixProt.ownerDigit (p : UnixProt) : Mode := (p.mode &&& 0o700) >>> 6

def UnixProt.groupDigit (p : UnixProt) : Mode := (p.mode &&& 0o70) >>> 3

def UnixProt.otherDigit (p : UnixProt) : Mode := p.mode &&& 0o7

def octal (owner group other : Mode) : Mode := (owner <<< 6) ||| (group <<< 3) ||| other

def readable (digit : Mode) : Mode := digit ||| if digit &&& 1 ≠ 0 then 4 else 0

def Digit (d : Mode) : Prop := d.toNat < 8

instance (d : Mode) : Decidable (Digit d) := inferInstanceAs (Decidable (d.toNat < 8))

theorem Digit.of_all {P : Mode → Prop} (hall : ∀ k : Fin 8, P (BitVec.ofNat 32 k)) {d : Mode}
    (h : Digit d) : P d := by
  have hd : d = BitVec.ofNat 32 (⟨d.toNat, h⟩ : Fin 8) := by simp
  rw [hd]
  exact hall _

theorem Digit.readable {d : Mode} (h : Digit d) : Digit (readable d) :=
  h.of_all (P := fun d => Digit (Prot.readable d)) (by decide)

theorem Digit.or {d e : Mode} (hd : Digit d) (he : Digit e) : Digit (d ||| e) := by
  refine hd.of_all (P := fun d => Digit (d ||| e)) fun k => ?_
  refine he.of_all (P := fun e => Digit (BitVec.ofNat 32 k ||| e)) fun l => ?_
  revert k l
  decide

theorem ns2fs_fs2ns {d : Mode} (h : Digit d) :
    fsConvertAccessNs2fs (fsConvertAccessFs2ns d) = readable d :=
  h.of_all (P := fun d => fsConvertAccessNs2fs (fsConvertAccessFs2ns d) = readable d) (by decide)

theorem fs2ns_admin {d : Mode} (h : Digit d) : fsConvertAccessFs2ns d &&& nsrAdmin = 0 :=
  h.of_all (P := fun d => fsConvertAccessFs2ns d &&& nsrAdmin = 0) (by decide)

theorem and_or_ne_zero (r s b : Rights) : (r ||| s) &&& b ≠ 0 ↔ r &&& b ≠ 0 ∨ s &&& b ≠ 0 := by
  have hzero : r &&& b ||| s &&& b = 0 ↔ r &&& b = 0 ∧ s &&& b = 0 := BitVec.or_eq_zero_iff
  rw [BitVec.and_comm, BitVec.and_or_distrib_left, BitVec.and_comm b, BitVec.and_comm b, ne_eq, hzero]
  tauto

theorem ite_or_ite {p q : Prop} [Decidable p] [Decidable q] (m : Mode) :
    (if p ∨ q then m else 0) = (if p then m else 0) ||| if q then m else 0 := by
  by_cases hp : p <;> by_cases hq : q <;> simp [hp, hq]

theorem ns2fs_or (r s : Rights) :
    fsConvertAccessNs2fs (r ||| s) = fsConvertAccessNs2fs r ||| fsConvertAccessNs2fs s := by
  have hbits (b : Rights) (m : Mode) :
      (if (r ||| s) &&& ~~~(nsrAdmin ||| nsrGetattr) &&& b ≠ 0 then m else 0) =
        (if r &&& ~~~(nsrAdmin ||| nsrGetattr) &&& b ≠ 0 then m else 0) |||
          if s &&& ~~~(nsrAdmin ||| nsrGetattr) &&& b ≠ 0 then m else 0 := by
    rw [← ite_or_ite]
    simp only [BitVec.and_assoc, and_or_ne_zero]
  unfold fsConvertAccessNs2fs
  simp only [hbits]
  ac_rfl

@[simp] theorem ns2fs_zero : fsConvertAccessNs2fs 0#32 = 0 := by decide

@[simp] theorem ns2fs_admin : fsConvertAccessNs2fs nsrAdmin = 0 := by decide

theorem digit_and (m : Mode) : Digit (m &&& 7) := by
  have hle : m.toNat &&& 7 ≤ 7 := Nat.and_le_right
  unfold Digit
  rw [toNat_and]
  exact Nat.lt_succ_of_le hle

variable (p : UnixProt)

theorem otherDigit_digit : Digit p.otherDigit := digit_and p.mode

theorem groupDigit_digit : Digit p.groupDigit := by
  have hshift : p.groupDigit = (p.mode >>> 3) &&& 7 := by
    rw [UnixProt.groupDigit, ushiftRight_and_distrib]
    rfl
  rw [hshift]
  exact digit_and _

theorem ownerDigit_digit : Digit p.ownerDigit := by
  have hshift : p.ownerDigit = (p.mode >>> 6) &&& 7 := by
    rw [UnixProt.ownerDigit, ushiftRight_and_distrib]
    rfl
  rw [hshift]
  exact digit_and _

theorem octal_digits {d e f : Mode} (hd : Digit d) (he : Digit e) (hf : Digit f) :
    (octal d e f &&& 0o700) >>> 6 = d ∧ (octal d e f &&& 0o70) >>> 3 = e ∧ octal d e f &&& 0o7 = f := by
  refine hd.of_all (P := fun d => (octal d e f &&& 0o700) >>> 6 = d ∧ (octal d e f &&& 0o70) >>> 3 = e ∧
    octal d e f &&& 0o7 = f) fun k => ?_
  refine he.of_all (P := fun e => (octal _ e f &&& 0o700) >>> 6 = _ ∧ (octal _ e f &&& 0o70) >>> 3 = e ∧
    octal _ e f &&& 0o7 = f) fun l => ?_
  refine hf.of_all (P := fun f => (octal _ _ f &&& 0o700) >>> 6 = _ ∧ (octal _ _ f &&& 0o70) >>> 3 = _ ∧
    octal _ _ f &&& 0o7 = f) fun m => ?_
  revert k l m
  decide +kernel

theorem octal_mode : p.mode &&& 0o777 = octal p.ownerDigit p.groupDigit p.otherDigit := by
  have hlt : (p.mode &&& 0o777).toNat < 512 := by
    have hle : p.mode.toNat &&& 511 ≤ 511 := Nat.and_le_right
    rw [toNat_and]
    exact Nat.lt_succ_of_le hle
  have hall : ∀ k : Fin 512, octal ((BitVec.ofNat 32 k &&& 0o700) >>> 6) ((BitVec.ofNat 32 k &&& 0o70) >>> 3)
      (BitVec.ofNat 32 k &&& 0o7) = BitVec.ofNat 32 k := by
    decide +kernel
  have hk := hall ⟨_, hlt⟩
  simp only [BitVec.ofNat_toNat, BitVec.setWidth_eq, BitVec.and_assoc] at hk
  exact hk.symm

theorem octal_eq_iff {d e f : Mode} (hd : Digit d) (he : Digit e) (hf : Digit f) :
    octal d e f = p.mode &&& 0o777 ↔ d = p.ownerDigit ∧ e = p.groupDigit ∧ f = p.otherDigit := by
  constructor
  · intro heq
    obtain ⟨hd', he', hf'⟩ := octal_digits hd he hf
    obtain ⟨hu, hg, ho⟩ := octal_digits (ownerDigit_digit p) (groupDigit_digit p) (otherDigit_digit p)
    rw [octal_mode] at heq
    rw [heq] at hd' he' hf'
    exact ⟨hd'.symm.trans hu, he'.symm.trans hg, hf'.symm.trans ho⟩
  · rintro ⟨rfl, rfl, rfl⟩
    exact (octal_mode p).symm

end Modes

namespace FsAccess

variable (a : FsAccess) (p : UnixProt)

def otherBack : Mode :=
  readable p.otherDigit ||| (if a.fsUidToAuthid p.gid = 0 then readable p.groupDigit else 0) |||
    if a.fsUidToAuthid p.uid = 0 then readable p.ownerDigit else 0

def groupBack : Mode := if a.fsUidToAuthid p.gid = 0 then 0 else readable p.groupDigit

def ownerBack : Mode :=
  if a.fsUidToAuthid p.uid = 0 then a.otherBack p else readable p.ownerDigit

def uidBack : Id :=
  if a.fsUidToAuthid p.uid = 0 then -1 else a.fsAuthidToUid (a.fsUidToAuthid p.uid)

def gidBack : Id :=
  if a.fsUidToAuthid p.uid = 0 then -1 else a.fsAuthidToGid (a.fsUidToAuthid p.gid)

def readBack : UnixProt :=
  ⟨a.uidBack p, a.gidBack p, octal (a.ownerBack p) (a.groupBack p) (a.otherBack p)⟩

theorem digitsBack : Digit (a.ownerBack p) ∧ Digit (a.groupBack p) ∧ Digit (a.otherBack p) := by
  have howner := (ownerDigit_digit p).readable
  have hgroup := (groupDigit_digit p).readable
  have hzero : Digit 0 := by decide
  have hother : Digit (a.otherBack p) := by
    refine ((otherDigit_digit p).readable.or ?_).or ?_
    · split_ifs
      · exact hgroup
      · exact hzero
    · split_ifs
      · exact howner
      · exact hzero
  refine ⟨?_, ?_, hother⟩
  · unfold ownerBack
    split_ifs
    · exact hother
    · exact howner
  · unfold groupBack
    split_ifs
    · exact hzero
    · exact hgroup

theorem no_admin {r s : Rights} (hr : r &&& nsrAdmin = 0) (hs : s &&& nsrAdmin = 0) :
    (r ||| s) &&& nsrAdmin = 0 := by
  by_contra hne
  rcases (and_or_ne_zero r s nsrAdmin).mp hne with h | h
  · exact h hr
  · exact h hs

section Sorting

variable {o g : Id} {u r w : Rights}

def everybody (o g : Id) (u r w : Rights) : Rights :=
  (if o = 0 then u else 0) ||| (if g = 0 then r else 0) ||| w

section

variable (hu : u &&& nsrAdmin ≠ 0) (hr : r &&& nsrAdmin = 0) (hw : w &&& nsrAdmin = 0)

include hu hr hw

theorem everybody_admin : everybody o g u r w &&& nsrAdmin ≠ 0 ↔ o = 0 := by
  have hrest : ((if g = 0 then r else 0) ||| w) &&& nsrAdmin = 0 := by
    refine no_admin ?_ hw
    split_ifs
    · exact hr
    · exact zero_and
  unfold everybody
  rw [BitVec.or_assoc, and_or_ne_zero]
  by_cases ho : o = 0
  · rw [if_pos ho]
    exact iff_of_true (.inl hu) ho
  · rw [if_neg ho]
    refine iff_of_false ?_ ho
    rintro (h | h)
    · exact h zero_and
    · exact h hrest

theorem sort_three : let s := Sorted.sort [⟨o, u⟩, ⟨g, r⟩, ⟨0, w⟩]
    s.owner = o ∧ s.group = g ∧ s.ownerRights = (if o = 0 then everybody o g u r w else u) ∧
      s.groupRights = (if g = 0 then 0 else r) ∧ s.defaultRights = everybody o g u r w := by
  have hadmin : everybody o g u r w &&& nsrAdmin ≠ 0 ↔ o = 0 := everybody_admin hu hr hw
  by_cases ho : o = 0
  · have hpriv := hadmin.mpr ho
    by_cases hg : g = 0
    · simp only [everybody, ho, hg, if_true] at hpriv ⊢
      simp_all [Sorted.sort, Sorted.entry, Sorted.init, Sorted.privileged]
    · simp only [everybody, ho, hg, if_true, if_false] at hpriv ⊢
      simp_all [Sorted.sort, Sorted.entry, Sorted.init, Sorted.privileged]
  · have hplain := mt hadmin.mp ho
    by_cases hg : g = 0
    · simp only [everybody, ho, hg, if_true, if_false] at hplain ⊢
      simp_all [Sorted.sort, Sorted.entry, Sorted.init, Sorted.privileged]
    · simp only [everybody, ho, hg, if_false] at hplain ⊢
      simp_all [Sorted.sort, Sorted.entry, Sorted.init, Sorted.privileged]

end

end Sorting

theorem uxprot_round_trip : (a.uxprotStdToUnixProt (a.uxprotUnixToStdProt p)).2 = a.readBack p := by
  have hadmin : (fsConvertAccessFs2ns p.ownerDigit ||| nsrAdmin) &&& nsrAdmin ≠ 0 :=
    (and_or_ne_zero _ _ _).mpr (.inr (by decide))
  have hacl : a.uxprotUnixToStdProt p =
      [⟨a.fsUidToAuthid p.uid, fsConvertAccessFs2ns p.ownerDigit ||| nsrAdmin⟩,
        ⟨a.fsUidToAuthid p.gid, fsConvertAccessFs2ns p.groupDigit⟩,
        ⟨0, fsConvertAccessFs2ns p.otherDigit⟩] := rfl
  obtain ⟨howner, hgroup, hownerRights, hgroupRights, hdefault⟩ :=
    sort_three (o := a.fsUidToAuthid p.uid) (g := a.fsUidToAuthid p.gid) hadmin
      (fs2ns_admin (groupDigit_digit p)) (fs2ns_admin (otherDigit_digit p))
  have hother : fsConvertAccessNs2fs (everybody (a.fsUidToAuthid p.uid) (a.fsUidToAuthid p.gid)
      (fsConvertAccessFs2ns p.ownerDigit ||| nsrAdmin) (fsConvertAccessFs2ns p.groupDigit)
      (fsConvertAccessFs2ns p.otherDigit)) = a.otherBack p := by
    rw [everybody, ns2fs_or, ns2fs_or, otherBack, ns2fs_fs2ns (otherDigit_digit p)]
    have hu : fsConvertAccessNs2fs (if a.fsUidToAuthid p.uid = 0 then
        fsConvertAccessFs2ns p.ownerDigit ||| nsrAdmin else 0) =
        if a.fsUidToAuthid p.uid = 0 then readable p.ownerDigit else 0 := by
      split_ifs
      · rw [ns2fs_or, ns2fs_fs2ns (ownerDigit_digit p), ns2fs_admin]
        exact or_zero
      · exact ns2fs_zero
    have hg : fsConvertAccessNs2fs (if a.fsUidToAuthid p.gid = 0 then
        fsConvertAccessFs2ns p.groupDigit else 0) =
        if a.fsUidToAuthid p.gid = 0 then readable p.groupDigit else 0 := by
      split_ifs
      · exact ns2fs_fs2ns (groupDigit_digit p)
      · exact ns2fs_zero
    rw [hu, hg]
    ac_rfl
  have hownerBack : fsConvertAccessNs2fs (if a.fsUidToAuthid p.uid = 0 then
      everybody (a.fsUidToAuthid p.uid) (a.fsUidToAuthid p.gid)
        (fsConvertAccessFs2ns p.ownerDigit ||| nsrAdmin) (fsConvertAccessFs2ns p.groupDigit)
        (fsConvertAccessFs2ns p.otherDigit)
      else fsConvertAccessFs2ns p.ownerDigit ||| nsrAdmin) = a.ownerBack p := by
    unfold ownerBack
    split_ifs
    · exact hother
    · rw [ns2fs_or, ns2fs_fs2ns (ownerDigit_digit p), ns2fs_admin]
      exact or_zero
  have hgroupBack : fsConvertAccessNs2fs (if a.fsUidToAuthid p.gid = 0 then 0
      else fsConvertAccessFs2ns p.groupDigit) = a.groupBack p := by
    unfold groupBack
    split_ifs
    · exact ns2fs_zero
    · exact ns2fs_fs2ns (groupDigit_digit p)
  unfold uxprotStdToUnixProt
  simp only [hacl, howner, hgroup, hownerRights, hgroupRights, hdefault, hownerBack, hgroupBack, hother]
  rfl

end FsAccess

def FsAttr.ofUnix (p : UnixProt) : FsAttr :=
  ⟨p.uid.setWidth 16, p.gid.setWidth 16, p.mode.setWidth 16⟩

namespace FsAccess

variable (a : FsAccess) (p : UnixProt)

def short (id : Id) : Id := (id.setWidth 16).signExtend 32

structure Converts : Prop where
  owner : a.fsUidToAuthid p.uid = a.fsUidToAuthid (short p.uid)
  group : a.fsUidToAuthid p.gid = a.fsGidToAuthid (short p.gid)
  uid : a.uidBack p = p.uid
  gid : a.gidBack p = p.gid
  ownerMode : a.ownerBack p = p.ownerDigit
  groupMode : a.groupBack p = p.groupDigit
  otherMode : a.otherBack p = p.otherDigit

theorem setWidth_and (m : Mode) : ∀ b : Mode, b.toNat < 2 ^ 16 → (m.setWidth 16).setWidth 32 &&& b = m &&& b := by
  intro b hb
  ext i hi
  rw [getElem_and, getElem_and]
  by_cases hlow : i < 16
  · simp [hlow, hi]
  · have hzero : b[i] = false := by
      rw [getElem_eq_testBit_toNat]
      refine Nat.testBit_lt_two_pow (hb.trans_le ?_)
      exact Nat.pow_le_pow_right (by decide) (by omega)
    rw [hzero, Bool.and_false, Bool.and_false]

theorem same_acl_iff : a.uxprotUnixToStdProt p = a.fsConvertProtFs2ns (.ofUnix p) ↔
    a.fsUidToAuthid p.uid = a.fsUidToAuthid (short p.uid) ∧
      a.fsUidToAuthid p.gid = a.fsGidToAuthid (short p.gid) := by
  have hacl : a.fsConvertProtFs2ns (.ofUnix p) =
      [⟨a.fsUidToAuthid (short p.uid), nsrAdmin ||| fsConvertAccessFs2ns p.ownerDigit⟩,
        ⟨a.fsGidToAuthid (short p.gid), fsConvertAccessFs2ns p.groupDigit⟩,
        ⟨0, fsConvertAccessFs2ns p.otherDigit⟩] := by
    unfold fsConvertProtFs2ns UnixProt.ownerDigit UnixProt.groupDigit UnixProt.otherDigit
    simp only [FsAttr.ofUnix]
    rw [setWidth_and p.mode 0o700 (by decide), setWidth_and p.mode 0o70 (by decide),
      setWidth_and p.mode 0o7 (by decide)]
    rfl
  rw [hacl, or_comm nsrAdmin]
  constructor
  · intro heq
    obtain ⟨hfirst, hrest⟩ := List.cons.inj heq
    obtain ⟨hsecond, -⟩ := List.cons.inj hrest
    exact ⟨congrArg AclEntry.authid hfirst, congrArg AclEntry.authid hsecond⟩
  · rintro ⟨howner, hgroup⟩
    rw [← howner, ← hgroup]
    rfl

def Agrees : Prop :=
  (a.uxprotStdToUnixProt (a.uxprotUnixToStdProt p)).2 = { p with mode := p.mode &&& 0o777 } ∧
    a.uxprotUnixToStdProt p = a.fsConvertProtFs2ns (.ofUnix p)

theorem protection_conversion_iff : a.Agrees p ↔ a.Converts p := by
  obtain ⟨howner, hgroup, hother⟩ := a.digitsBack p
  rw [Agrees, uxprot_round_trip, same_acl_iff]
  constructor
  · rintro ⟨hback, hsame, hgroupSame⟩
    obtain ⟨huid, hgid, hmode⟩ := UnixProt.mk.inj hback
    obtain ⟨hu, hg, ho⟩ := (octal_eq_iff p howner hgroup hother).mp hmode
    exact ⟨hsame, hgroupSame, huid, hgid, hu, hg, ho⟩
  · rintro ⟨hsame, hgroupSame, huid, hgid, hu, hg, ho⟩
    refine ⟨?_, hsame, hgroupSame⟩
    have hmode := (octal_eq_iff p howner hgroup hother).mpr ⟨hu, hg, ho⟩
    unfold readBack
    rw [huid, hgid, hmode]

def plain : FsAccess := ⟨none, none, none, none, 1, 10⟩

theorem group_misread : ¬ plain.Agrees ⟨100, 20, 0o644⟩ ∧
    (plain.uxprotUnixToStdProt ⟨100, 20, 0o644⟩).map AclEntry.authid = [1100, 1020, 0] ∧
    (plain.fsConvertProtFs2ns (.ofUnix ⟨100, 20, 0o644⟩)).map AclEntry.authid = [1100, 2020, 0] ∧
    (plain.uxprotStdToUnixProt (plain.uxprotUnixToStdProt ⟨100, 20, 0o644⟩)).2 = ⟨100, -980, 0o644⟩ := by
  refine ⟨fun hagrees => ?_, by decide⟩
  have hread := congrArg UnixProt.gid hagrees.1
  cases hread

end FsAccess

end MachUS.Ux.Prot
