import MachUS.Ux.Protections

namespace MachUS.Ux.Prot

structure Indices where
  owner : Option AclEntry
  group : Option AclEntry
  other : Option AclEntry

def Indices.entry (x : Indices) (e : AclEntry) : Option Indices :=
  if e.authid = 0 then if x.other.isSome then none else some { x with other := some e }
  else if e.rights &&& nsrAdmin ≠ 0 then
    if x.owner.isSome then none else some { x with owner := some e }
  else if x.group.isSome then none
  else some { x with group := some e }

theorem indices_eq {u g w : AclEntry} (hu : u.rights &&& nsrAdmin ≠ 0)
    (hg : g.rights &&& nsrAdmin = 0) (hw : w.authid = 0) :
    [u, g, w].foldlM Indices.entry ⟨none, none, none⟩ =
      if u.authid = 0 ∨ g.authid = 0 then none else some ⟨some u, some g, some w⟩ := by
  by_cases hnone : u.authid = 0
  · by_cases hother : g.authid = 0 <;> simp_all [Indices.entry]
  · by_cases hother : g.authid = 0 <;> simp_all [Indices.entry]

namespace FsAccess

variable (a : FsAccess)

-- NS_UNSUPPORTED_PROT is none; va_uid, va_gid and va_mode are shorts.
def fsConvertProtNs2fs (acl : Acl) : Option FsAttr :=
  if 3 < acl.length then none
  else
    match acl.foldlM Indices.entry ⟨none, none, none⟩ with
    | some ⟨some owner, some group, other⟩ =>
      some
        { vaUid := (a.fsAuthidToUid owner.authid).setWidth 16
          vaGid := (a.fsAuthidToGid group.authid).setWidth 16
          vaMode := ((fsConvertAccessNs2fs owner.rights <<< 6) |||
            (fsConvertAccessNs2fs group.rights <<< 3) |||
            (other.elim 0 fun e => fsConvertAccessNs2fs e.rights)).setWidth 16 }
    | _ => none

variable (attr : FsAttr)

def unix : UnixProt :=
  ⟨attr.vaUid.signExtend 32, attr.vaGid.signExtend 32, attr.vaMode.setWidth 32⟩

def ReturnsIds : Prop :=
  a.fsUidToAuthid (unix attr).uid ≠ 0 ∧ a.fsGidToAuthid (unix attr).gid ≠ 0 ∧
    (a.fsAuthidToUid (a.fsUidToAuthid (unix attr).uid)).setWidth 16 = attr.vaUid ∧
    (a.fsAuthidToGid (a.fsGidToAuthid (unix attr).gid)).setWidth 16 = attr.vaGid

def ReadableDigits : Prop :=
  readable (unix attr).ownerDigit = (unix attr).ownerDigit ∧
    readable (unix attr).groupDigit = (unix attr).groupDigit ∧
    readable (unix attr).otherDigit = (unix attr).otherDigit

def ComesBack : Prop :=
  ∃ b, a.fsConvertProtNs2fs (a.fsConvertProtFs2ns attr) = some b ∧ b.vaUid = attr.vaUid ∧
    b.vaGid = attr.vaGid ∧ b.vaMode &&& 0o777 = attr.vaMode &&& 0o777

theorem fs2ns_eq : a.fsConvertProtFs2ns attr =
    [⟨a.fsUidToAuthid (unix attr).uid, nsrAdmin ||| fsConvertAccessFs2ns (unix attr).ownerDigit⟩,
      ⟨a.fsGidToAuthid (unix attr).gid, fsConvertAccessFs2ns (unix attr).groupDigit⟩,
      ⟨0, fsConvertAccessFs2ns (unix attr).otherDigit⟩] := rfl

theorem ns2fs_owner {d : Mode} (h : Digit d) :
    fsConvertAccessNs2fs (nsrAdmin ||| fsConvertAccessFs2ns d) = readable d := by
  rw [ns2fs_or, ns2fs_admin, ns2fs_fs2ns h]
  exact BitVec.zero_or

theorem ns2fs_eq : a.fsConvertProtNs2fs (a.fsConvertProtFs2ns attr) =
    if a.fsUidToAuthid (unix attr).uid = 0 ∨ a.fsGidToAuthid (unix attr).gid = 0 then none
    else some
      { vaUid := (a.fsAuthidToUid (a.fsUidToAuthid (unix attr).uid)).setWidth 16
        vaGid := (a.fsAuthidToGid (a.fsGidToAuthid (unix attr).gid)).setWidth 16
        vaMode := (octal (readable (unix attr).ownerDigit) (readable (unix attr).groupDigit)
          (readable (unix attr).otherDigit)).setWidth 16 } := by
  have hadmin : (nsrAdmin ||| fsConvertAccessFs2ns (unix attr).ownerDigit) &&& nsrAdmin ≠ 0 :=
    (and_or_ne_zero _ _ _).mpr (.inl (by decide))
  have hgroup := fs2ns_admin (groupDigit_digit (unix attr))
  rw [fs2ns_eq, fsConvertProtNs2fs, if_neg (by simp), indices_eq hadmin hgroup rfl]
  split_ifs with hids
  · rfl
  · simp only [ns2fs_owner (ownerDigit_digit _), ns2fs_fs2ns (groupDigit_digit _),
      ns2fs_fs2ns (otherDigit_digit _), octal, Option.elim_some]

theorem octal_low {d e f : Mode} (hd : Digit d) (he : Digit e) (hf : Digit f) :
    octal d e f &&& 0o777 = octal d e f := by
  obtain ⟨hu, hg, ho⟩ := octal_digits hd he hf
  rw [octal_mode ⟨0, 0, octal d e f⟩, UnixProt.ownerDigit, UnixProt.groupDigit,
    UnixProt.otherDigit, hu, hg, ho]

theorem short_mode_iff {d e f : Mode} (hd : Digit d) (he : Digit e) (hf : Digit f) :
    (octal d e f).setWidth 16 &&& 0o777 = attr.vaMode &&& 0o777 ↔
      octal d e f = (unix attr).mode &&& 0o777 := by
  have hwide (x : Mode) : (x.setWidth 16 &&& 0o777).setWidth 32 = x &&& 0o777 := by
    rw [BitVec.setWidth_and]
    exact setWidth_and x _ (by decide)
  have hback : ((unix attr).mode).setWidth 16 = attr.vaMode :=
    BitVec.setWidth_setWidth_of_le _ (by decide)
  rw [← hback]
  constructor
  · intro heq
    have hsame := congrArg (BitVec.setWidth 32) heq
    rw [hwide, hwide, octal_low hd he hf] at hsame
    exact hsame
  · intro heq
    rw [heq, BitVec.setWidth_and]
    change _ &&& 0o777 &&& 0o777 = _
    rw [BitVec.and_assoc, BitVec.and_self]

theorem protection_round_trip_iff : a.ComesBack attr ↔ a.ReturnsIds attr ∧ ReadableDigits attr := by
  have hmode := short_mode_iff attr (ownerDigit_digit (unix attr)).readable
    (groupDigit_digit (unix attr)).readable (otherDigit_digit (unix attr)).readable
  have hdigits := octal_eq_iff (unix attr) (ownerDigit_digit (unix attr)).readable
    (groupDigit_digit (unix attr)).readable (otherDigit_digit (unix attr)).readable
  rw [ComesBack, ns2fs_eq, ReturnsIds, ReadableDigits, ← hdigits, ← hmode]
  split_ifs with hids
  · refine iff_of_false (by simp) fun hcond => ?_
    exact hids.elim hcond.1.1 hcond.1.2.1
  · obtain ⟨hu, hg⟩ := not_or.mp hids
    constructor
    · rintro ⟨b, hb, huid, hgid, hdigits⟩
      cases hb
      exact ⟨⟨hu, hg, huid, hgid⟩, hdigits⟩
    · rintro ⟨⟨-, -, huid, hgid⟩, hdigits⟩
      exact ⟨_, rfl, huid, hgid, hdigits⟩

theorem group_zero_misread :
    ¬ plain.ComesBack ⟨100, 0, 0o644⟩ ∧ ¬ plain.ComesBack ⟨100, 20, 0o711⟩ := by
  constructor
  · rintro ⟨b, hb, -, hgid, -⟩
    cases hb
    cases hgid
  · rintro ⟨b, hb, -, -, hmode⟩
    cases hb
    cases hmode

end FsAccess

end MachUS.Ux.Prot

namespace MachUS.Ux.Prot

open Option

inductive Failure where
  | invalidGeneration
  | outOfMemory
  | objectNotFound
  | serverDied
  | eio
  | other (code : ℕ)
  deriving DecidableEq

-- What a call returns: nothing is ERR_SUCCESS.
abbrev Result := Option Failure

structure NsProt where
  generation : BitVec 32
  acl : Acl

structure StdProt where
  prot : Option NsProt
  dead : Bool

structure Update where
  prot : NsProt
  memory : Bool

namespace StdProt

variable (x : StdProt)

def store (prot : NsProt) (memory : Bool) : Result × StdProt :=
  if memory then (none, { x with prot := some prot })
  else (some .outOfMemory, { x with prot := none })

def nsSetProtection (xprot : NsProt) (memory : Bool) : Result × StdProt :=
  if x.dead then (some .serverDied, x)
  else if xprot.generation = 0 then x.store xprot memory
  else
    match x.prot with
    | none => (some .serverDied, { x with dead := true })
    | some prot =>
      if xprot.generation ≠ prot.generation + 1 then (some .invalidGeneration, x)
      else x.store xprot memory

def nsGetProtection : Failure ⊕ NsProt :=
  if x.dead then .inl .serverDied
  else
    match x.prot with
    | none => .inl .objectNotFound
    | some prot => .inr prot

def others (updates : List Update) : StdProt :=
  updates.foldl (fun x u => (x.nsSetProtection u.prot u.memory).2) x

end StdProt

structure Round where
  before : List Update
  getFails : Option Failure
  between : List Update
  setFails : Option Failure
  memory : Bool

structure Request where
  uid : Id
  gid : Id
  mode : Mode

def Request.apply (r : Request) (p : UnixProt) : UnixProt where
  uid := if r.uid = -1 then p.uid else r.uid
  gid := if r.gid = -1 then p.gid else r.gid
  mode := if r.mode = -1 then p.mode else r.mode

structure Attempt where
  got : NsProt
  inForce : Option NsProt
  sent : NsProt
  result : Result

structure Outcome where
  result : Result
  retry : ℤ
  server : StdProt
  sets : List Attempt
  rounds : ℕ

def maxSetProtRetries : ℕ := 10

namespace FsAccess

variable (a : FsAccess) (request : Request) (rounds : ℕ → Round)

def unixProt (prot : NsProt) : UnixProt := (a.uxprotStdToUnixProt prot.acl).2

def amended (prot : NsProt) : NsProt :=
  { prot with acl := a.uxprotUnixToStdProt (request.apply (a.unixProt prot)) }

def get (x : StdProt) (r : Round) : Failure ⊕ NsProt :=
  match r.getFails with
  | some f => .inl f
  | none => x.nsGetProtection

def set (x : StdProt) (r : Round) (sent : NsProt) : Result × StdProt :=
  match r.setFails with
  | some f => (some f, x)
  | none => x.nsSetProtection sent r.memory

def modifyLoop : ℕ → ℕ → StdProt → List Attempt → Outcome
  | retry, i, x, sets =>
    let r := rounds i
    let x := x.others r.before
    match get x r with
    | .inl f => ⟨some f, retry, x, sets, i + 1⟩
    | .inr prot =>
      let x := x.others r.between
      let s := set x r (a.amended request prot)
      let sets := ⟨prot, x.prot, a.amended request prot, s.1⟩ :: sets
      match retry with
      | 0 => ⟨s.1, -1, s.2, sets, i + 1⟩
      | retry + 1 =>
        if s.1 = some .invalidGeneration then modifyLoop retry (i + 1) s.2 sets
        else ⟨s.1, retry, s.2, sets, i + 1⟩

def uxModifyProtection (duplicate : Result) (x : StdProt) : Outcome :=
  match duplicate with
  | some f => ⟨some f, maxSetProtRetries, x, [], 0⟩
  | none =>
    let o := a.modifyLoop request rounds maxSetProtRetries 0 x []
    if o.retry = 0 then { o with result := some .eio } else o

end FsAccess

def Attempt.TookEffect (s : Attempt) : Prop := s.result = none

def Outcome.LastSet (o : Outcome) (P : Attempt → Prop) : Prop := ∃ s ∈ o.sets.head?, P s

namespace FsAccess

variable (a : FsAccess) (request : Request) (rounds : ℕ → Round)

def Only (s : Attempt) : Prop :=
  ∀ q, s.inForce = some q → a.unixProt s.sent =
    { request.apply (a.unixProt q) with mode := (request.apply (a.unixProt q)).mode &&& 0o777 }

structure Modifies (o : Outcome) : Prop where
  success : o.result = none ↔ o.LastSet Attempt.TookEffect
  only : ∀ s ∈ o.sets.head?, s.TookEffect → a.Only request s
  bounded : o.rounds ≤ 11

structure Keeps (s : Attempt) (q : NsProt) : Prop where
  uid : a.uidBack (request.apply (a.unixProt s.got)) = (request.apply (a.unixProt q)).uid
  gid : a.gidBack (request.apply (a.unixProt s.got)) = (request.apply (a.unixProt q)).gid
  ownerMode : a.ownerBack (request.apply (a.unixProt s.got)) =
    (request.apply (a.unixProt q)).ownerDigit
  groupMode : a.groupBack (request.apply (a.unixProt s.got)) =
    (request.apply (a.unixProt q)).groupDigit
  otherMode : a.otherBack (request.apply (a.unixProt s.got)) =
    (request.apply (a.unixProt q)).otherDigit

structure Spared (o : Outcome) : Prop where
  tenth : o.sets.length = maxSetProtRetries → ¬ o.LastSet Attempt.TookEffect
  kept : ∀ s ∈ o.sets.head?, s.TookEffect → ∀ q, s.inForce = some q → a.Keeps request s q

structure Ended (o : Outcome) : Prop where
  success : o.result = none ↔ o.LastSet Attempt.TookEffect
  retry : o.LastSet Attempt.TookEffect → o.retry = maxSetProtRetries - o.sets.length
  sent : ∀ s ∈ o.sets.head?, s.sent = a.amended request s.got
  bounded : o.rounds ≤ 11

variable {a request rounds} {o : Outcome}

theorem ended_unset (hresult : o.result ≠ none) (hfailed : ∀ s ∈ o.sets.head?, ¬ s.TookEffect)
    (hsent : ∀ s ∈ o.sets.head?, s.sent = a.amended request s.got) (hrounds : o.rounds ≤ 11) :
    Ended a request o := by
  have hlast : ¬ o.LastSet Attempt.TookEffect := by
    rintro ⟨s, hs, htook⟩
    exact hfailed s hs htook
  exact ⟨iff_of_false hresult hlast, fun h => absurd h hlast, hsent, hrounds⟩

theorem ended_set {s : Attempt} {sets : List Attempt} (hsets : o.sets = s :: sets)
    (hresult : o.result = s.result) (hretry : s.TookEffect → o.retry = maxSetProtRetries - o.sets.length)
    (hsent : s.sent = a.amended request s.got) (hrounds : o.rounds ≤ 11) : Ended a request o := by
  have hlast (P : Attempt → Prop) : o.LastSet P ↔ P s := by
    unfold Outcome.LastSet
    rw [hsets]
    simp
  refine ⟨?_, fun h => hretry ((hlast _).mp h), fun t ht => ?_, hrounds⟩
  · rw [hlast, hresult]
    rfl
  · rw [hsets] at ht
    cases ht
    exact hsent

theorem modifyLoop_ended (retry i : ℕ) (x : StdProt) (sets : List Attempt)
    (hcount : retry + i = maxSetProtRetries) (hlength : sets.length = i)
    (hfailed : ∀ s ∈ sets.head?, ¬ s.TookEffect)
    (hsent : ∀ s ∈ sets.head?, s.sent = a.amended request s.got) :
    Ended a request (a.modifyLoop request rounds retry i x sets) := by
  unfold maxSetProtRetries at hcount
  induction retry generalizing i x sets with
  | zero =>
    rw [modifyLoop]
    cases hget : get (x.others (rounds i).before) (rounds i) with
    | inl f => exact ended_unset (some_ne_none f) hfailed hsent (by simp only; omega)
    | inr prot =>
      refine ended_set rfl rfl (fun _ => ?_) rfl (by simp only; omega)
      simp only [List.length_cons, hlength, maxSetProtRetries]
      omega
  | succ retry ih =>
    rw [modifyLoop]
    cases hget : get (x.others (rounds i).before) (rounds i) with
    | inl f => exact ended_unset (some_ne_none f) hfailed hsent (by simp only; omega)
    | inr prot =>
      simp only
      split_ifs with hagain
      · refine ih (i + 1) _ _ (by omega) (by rw [List.length_cons, hlength]) ?_ ?_
        · intro s hs htook
          cases hs
          exact some_ne_none _ (hagain.symm.trans htook)
        · intro s hs
          cases hs
          rfl
      · refine ended_set rfl rfl (fun _ => ?_) rfl (by simp only; omega)
        simp only [List.length_cons, hlength, maxSetProtRetries]
        omega

theorem only_iff {s : Attempt} (hsent : s.sent = a.amended request s.got) :
    a.Only request s ↔ ∀ q, s.inForce = some q → a.Keeps request s q := by
  have hback : a.unixProt s.sent = a.readBack (request.apply (a.unixProt s.got)) := by
    rw [hsent]
    exact a.uxprot_round_trip _
  obtain ⟨howner, hgroup, hother⟩ := a.digitsBack (request.apply (a.unixProt s.got))
  have heach (q : NsProt) : a.readBack (request.apply (a.unixProt s.got)) =
      { request.apply (a.unixProt q) with mode := (request.apply (a.unixProt q)).mode &&& 0o777 } ↔
        a.Keeps request s q := by
    constructor
    · intro heq
      obtain ⟨huid, hgid, hmode⟩ := UnixProt.mk.inj heq
      obtain ⟨hu, hg, ho⟩ := (octal_eq_iff _ howner hgroup hother).mp hmode
      exact ⟨huid, hgid, hu, hg, ho⟩
    · intro hkeeps
      have hmode := (octal_eq_iff (request.apply (a.unixProt q)) howner hgroup hother).mpr
        ⟨hkeeps.ownerMode, hkeeps.groupMode, hkeeps.otherMode⟩
      unfold readBack
      rw [hkeeps.uid, hkeeps.gid, hmode]
  unfold Only
  simp only [hback, heach]

theorem modifies_iff (hended : Ended a request o) :
    a.Modifies request (if o.retry = 0 then { o with result := some .eio } else o) ↔
      a.Spared request o := by
  have hkept : (∀ s ∈ o.sets.head?, s.TookEffect → a.Only request s) ↔
      ∀ s ∈ o.sets.head?, s.TookEffect → ∀ q, s.inForce = some q → a.Keeps request s q := by
    constructor
    · intro h s hs htook
      exact (only_iff (hended.sent s hs)).mp (h s hs htook)
    · intro h s hs htook
      exact (only_iff (hended.sent s hs)).mpr (h s hs htook)
  have hzero (htook : o.LastSet Attempt.TookEffect) : o.retry = 0 ↔ o.sets.length = maxSetProtRetries := by
    rw [hended.retry htook]
    omega
  split_ifs with hretry
  · constructor
    · intro h
      refine ⟨fun _ htook => ?_, hkept.mp h.only⟩
      exact some_ne_none _ (h.success.mpr htook)
    · intro h
      have hlast : ¬ o.LastSet Attempt.TookEffect := fun htook => h.tenth ((hzero htook).mp hretry) htook
      exact ⟨iff_of_false (some_ne_none _) hlast, hkept.mpr h.kept, hended.bounded⟩
  · constructor
    · intro h
      exact ⟨fun hlength htook => hretry ((hzero htook).mpr hlength), hkept.mp h.only⟩
    · intro h
      exact ⟨hended.success, hkept.mpr h.kept, hended.bounded⟩

variable (a request rounds)

namespace Sample

def acl : Acl := [⟨1100, nsrAdmin ||| nsrGetattr⟩, ⟨2020, nsrGetattr⟩, ⟨0, nsrGetattr⟩]

def rival : ℕ → Round
  | 9 => ⟨[], none, [⟨⟨0, acl⟩, true⟩], none, true⟩
  | _ => ⟨[], none, [], none, true⟩

def outcome : Outcome :=
  plain.uxModifyProtection ⟨-1, -1, 0o600⟩ rival none ⟨some ⟨1, acl⟩, false⟩

end Sample

end FsAccess

end MachUS.Ux.Prot
