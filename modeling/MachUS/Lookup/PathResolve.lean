import Mathlib.Data.List.Basic

namespace MachUS.Lookup

abbrev AuthId := ℕ

inductive Code where
  | success
  | invalidAccess
  | noSuchOperation
  | notFound
  | nameTooLong
  | internalError
  | notDirectory
  | objectDead
  | other (n : ℕ)
  deriving DecidableEq

def nsAuthidWildcard : AuthId := 0

def nsrLookup : UInt32 := 0x2

def nsrExecute : UInt32 := 0x40

def nsrReference : UInt32 := 0x80

structure AclEntry where
  authid : AuthId
  rights : UInt32

structure Prot where
  acl : List AclEntry
  privid : AuthId

namespace Prot

def scanAcl (curAuthid : AuthId) (access : UInt32) : List AclEntry → UInt32 → Option UInt32
  | [], maxAccess => some maxAccess
  | e :: acl, maxAccess =>
    if e.authid = curAuthid ∨ e.authid = nsAuthidWildcard then
      if (maxAccess ||| e.rights) &&& access = access then none
      else scanAcl curAuthid access acl (maxAccess ||| e.rights)
    else scanAcl curAuthid access acl maxAccess

def scanCred (prot : Prot) (access : UInt32) : List AuthId → UInt32 → Code
  | [], _ => .invalidAccess
  | curAuthid :: cred, maxAccess =>
    if curAuthid = prot.privid then
      if access &&& nsrExecute = 0 then .success
      else if ∃ e ∈ prot.acl, e.rights &&& nsrExecute ≠ 0 then .success
      else .invalidAccess
    else
      match scanAcl curAuthid access prot.acl maxAccess with
      | none => .success
      | some maxAccess => scanCred prot access cred maxAccess

def nsCheckAccess (prot : Prot) (access : UInt32) (cred : List AuthId) : Code :=
  prot.scanCred access cred 0

def Within (sub access : UInt32) : Prop := sub &&& access = sub

theorem Within.granted {sub access m : UInt32} (h : Within sub access)
    (hm : m &&& access = access) : m &&& sub = sub := by
  calc m &&& sub = m &&& (access &&& sub) := by rw [UInt32.and_comm access, h]
    _ = (m &&& access) &&& sub := (UInt32.and_assoc _ _ _).symm
    _ = sub := by rw [hm, UInt32.and_comm, h]

theorem Within.execute {sub access : UInt32} (h : Within sub access)
    (ha : access &&& nsrExecute = 0) : sub &&& nsrExecute = 0 := by
  calc sub &&& nsrExecute = (sub &&& access) &&& nsrExecute := by rw [h]
    _ = sub &&& (access &&& nsrExecute) := UInt32.and_assoc _ _ _
    _ = 0 := by rw [ha, UInt32.and_zero]

theorem scanAcl_mono {sub access : UInt32} (h : Within sub access) (curAuthid : AuthId)
    (acl : List AclEntry) (m : UInt32) :
    scanAcl curAuthid sub acl m = none ∨
      scanAcl curAuthid sub acl m = scanAcl curAuthid access acl m := by
  induction acl generalizing m with
  | nil => exact Or.inr rfl
  | cons e acl ih =>
    rw [scanAcl, scanAcl]
    by_cases hmatch : e.authid = curAuthid ∨ e.authid = nsAuthidWildcard
    · rw [if_pos hmatch, if_pos hmatch]
      by_cases hsub : (m ||| e.rights) &&& sub = sub
      · exact Or.inl (if_pos hsub)
      · have haccess : ¬(m ||| e.rights) &&& access = access := fun hm => hsub (h.granted hm)
        rw [if_neg hsub, if_neg haccess]
        exact ih _
    · rw [if_neg hmatch, if_neg hmatch]
      exact ih m

theorem scanCred_mono {sub access : UInt32} (h : Within sub access) (prot : Prot)
    (cred : List AuthId) (m : UInt32) (hgrant : prot.scanCred access cred m = .success) :
    prot.scanCred sub cred m = .success := by
  induction cred generalizing m with
  | nil => cases hgrant
  | cons curAuthid cred ih =>
    rw [scanCred] at hgrant ⊢
    by_cases hpriv : curAuthid = prot.privid
    · rw [if_pos hpriv] at hgrant ⊢
      split_ifs with hsub hexec
      · rfl
      · rfl
      · rw [if_neg fun ha => hsub (h.execute ha), if_neg hexec] at hgrant
        cases hgrant
    · rw [if_neg hpriv] at hgrant ⊢
      rcases scanAcl_mono h curAuthid prot.acl m with hnone | heq
      · simp only [hnone]
      · rw [heq]
        cases hscan : scanAcl curAuthid access prot.acl m with
        | none => rfl
        | some m' =>
          rw [hscan] at hgrant
          exact ih m' hgrant

theorem nsCheckAccess_mono {sub access : UInt32} (h : Within sub access) {prot : Prot}
    {cred : List AuthId} (hgrant : prot.nsCheckAccess access cred = .success) :
    prot.nsCheckAccess sub cred = .success :=
  scanCred_mono h prot cred 0 hgrant

end Prot

abbrev ObjId := ℕ

abbrev Path := List UInt8

abbrev Name := List UInt8

def slash : UInt8 := 47

def nsNamelen : ℕ := 256

def nstInvalid : ℕ := 0

def nstDirectory : ℕ := 1

def nstSymlink : ℕ := 2

def nstMountpt : ℕ := 3

def nstForward : ℕ := 4

def nstFile : ℕ := 5

def nstTransparentSymlink : ℕ := 14

def nsfAccess : UInt32 := 0x1

def nsfFollow : UInt32 := 0x2

def nsfMount : UInt32 := 0x4

def nsfTfollow : UInt32 := 0x8

def nsfFollowAll : UInt32 := nsfFollow ||| nsfTfollow ||| nsfMount

def nsaForward : UInt32 := 0x1

def nsaAuthenticate : UInt32 := 0x2

def nsaTforward : UInt32 := 0x8

structure Entry where
  type : ℕ
  obj : Option ObjId

structure Forwarding where
  ret : Code
  obj : Option ℕ
  path : Path

-- The objects of one server. prot is none for an agency without ns_check_access, isDir is
-- dir::castdown, and forwarding is none where usName::castdown fails.
structure Tree where
  prot : ObjId → Option Prot
  isDir : ObjId → Bool
  entries : ObjId → Name → Option Entry
  nsReferenceTmplink : ObjId → Code
  nsRegisterAgent : ObjId → UInt32 → Code
  forwarding : ObjId → Option Forwarding

namespace Tree

variable (tree : Tree)

def nsCheckAccess (o : ObjId) (access : UInt32) (cred : List AuthId) : Code :=
  match tree.prot o with
  | none => .noSuchOperation
  | some prot => prot.nsCheckAccess access cred

def nsLookupEntry (d : ObjId) (name : Name) : Except Code (ObjId × ℕ) :=
  if nsNamelen ≤ name.length then .error .nameTooLong
  else
    match tree.entries d name with
    | none => .error .notFound
    | some ⟨_, none⟩ => .error .internalError
    | some ⟨type, some o⟩ =>
      match tree.nsReferenceTmplink o with
      | .success => .ok (o, type)
      | .objectDead => .error .notFound
      | _ => .error .internalError

end Tree

structure Agent (tree : Tree) where
  agency : ObjId
  access : UInt32
  cred : List AuthId
  granted : tree.nsCheckAccess agency access cred = .success

variable {tree : Tree}

inductive NewObj (tree : Tree) where
  | null
  | agent (a : Agent tree)
  | external (e : ℕ)

structure Result (tree : Tree) where
  ret : Code
  newobj : NewObj tree
  newtype : ℕ
  newpath : Path
  usedlen : ℕ
  action : UInt32

def NewObj.ofAgent : Option (Agent tree) → NewObj tree
  | none => .null
  | some a => .agent a

def registered : Code → Code
  | .noSuchOperation => .success
  | ret => ret

def nsCreateAgent (tree : Tree) (o : ObjId) (access : UInt32) (cred : List AuthId) :
    Code × Option (Agent tree) :=
  if access = 0 then (.success, none)
  else if h : tree.nsCheckAccess o access cred = .success then
    if registered (tree.nsRegisterAgent o access) = .success then
      (.success, some ⟨o, access, cred, h⟩)
    else (registered (tree.nsRegisterAgent o access), none)
  else (tree.nsCheckAccess o access cred, none)

def notSlash (c : UInt8) : Bool := c ≠ slash

def isSlash (c : UInt8) : Bool := c = slash

def skipSlashes (path : Path) : Path := path.dropWhile isSlash

def componentTail (tail : Path) : Name := tail.takeWhile notSlash

def afterComponent (tail : Path) : Path := skipSlashes (tail.dropWhile notSlash)

theorem afterComponent_length (tail : Path) : (afterComponent tail).length ≤ tail.length :=
  Nat.le_trans (List.dropWhile_suffix _).length_le (List.dropWhile_suffix _).length_le

inductive Found where
  | aborts (ret : Code)
  | stops (curdir newentry : ObjId) (newtype : ℕ) (rest : Path)

def resolveLoop (tree : Tree) (cred : List AuthId) (curdir : ObjId) (c : UInt8) (tail : Path) :
    Found :=
  match tree.nsLookupEntry curdir (c :: componentTail tail) with
  | .error ret => .aborts ret
  | .ok (newentry, newtype) =>
    match _hrest : afterComponent tail with
    | [] => .stops curdir newentry newtype []
    | c' :: rest =>
      if newtype ≠ nstDirectory then .stops curdir newentry newtype (c' :: rest)
      else if tree.isDir newentry = false then .aborts .noSuchOperation
      else if tree.nsCheckAccess newentry nsrLookup cred ≠ .success then
        .aborts (tree.nsCheckAccess newentry nsrLookup cred)
      else resolveLoop tree cred newentry c' rest
termination_by tail.length
decreasing_by
  have hle := afterComponent_length tail
  rw [_hrest, List.length_cons] at hle
  omega

def Forwards (newtype : ℕ) (mode : UInt32) (rest : Path) : Prop :=
  (newtype = nstSymlink ∧ (rest ≠ [] ∨ mode &&& nsfFollow ≠ 0)) ∨
  (newtype = nstTransparentSymlink ∧ (rest ≠ [] ∨ mode &&& nsfTfollow ≠ 0)) ∨
  (newtype = nstMountpt ∧ (rest ≠ [] ∨ mode &&& nsfMount ≠ 0)) ∨
  (newtype = nstForward ∧ (rest ≠ [] ∨ mode &&& nsfFollow ≠ 0))

instance (newtype : ℕ) (mode : UInt32) (rest : Path) : Decidable (Forwards newtype mode rest) :=
  inferInstanceAs (Decidable (_ ∨ _ ∨ _ ∨ _))

def abort (tree : Tree) (ret : Code) (newpath : Path) (usedlen : ℕ) (action : UInt32) :
    Result tree :=
  ⟨ret, .null, nstInvalid, newpath, usedlen, action⟩

def applyForwarding (tree : Tree) (cred : List AuthId) (curdir newentry : ObjId) (newtype : ℕ)
    (usedlen : ℕ) : Result tree :=
  let action := if newtype = nstTransparentSymlink then nsaTforward else nsaForward
  match tree.forwarding newentry with
  | none => abort tree .noSuchOperation [] usedlen action
  | some f =>
    if f.ret ≠ .success then abort tree f.ret f.path usedlen action
    else
      match f.obj with
      | some e => ⟨.success, .external e, nstDirectory, f.path, usedlen, action ||| nsaAuthenticate⟩
      | none =>
        if f.path.head? = some slash then ⟨.success, .null, nstInvalid, f.path, usedlen, action⟩
        else
          match nsCreateAgent tree curdir nsrLookup cred with
          | (.success, a) => ⟨.success, .ofAgent a, nstDirectory, f.path, usedlen, action⟩
          | (ret, _) => abort tree ret f.path usedlen action

def returnObject (tree : Tree) (cred : List AuthId) (newentry : ObjId) (newtype : ℕ) (rest : Path)
    (mode access : UInt32) (usedlen : ℕ) : Result tree :=
  if rest ≠ [] then abort tree .notDirectory [] usedlen 0
  else if mode &&& nsfAccess ≠ 0 then
    abort tree (tree.nsCheckAccess newentry access cred) [] usedlen 0
  else
    match nsCreateAgent tree newentry access cred with
    | (.success, a) => ⟨.success, .ofAgent a, newtype, [], usedlen, 0⟩
    | (ret, _) => abort tree ret [] usedlen 0

def conclude (tree : Tree) (cred : List AuthId) (pathlen : ℕ) (mode access : UInt32) :
    Found → Result tree
  | .aborts ret => abort tree ret [] 0 0
  | .stops curdir newentry newtype rest =>
    let usedlen := pathlen - rest.length
    if Forwards newtype mode rest then applyForwarding tree cred curdir newentry newtype usedlen
    else returnObject tree cred newentry newtype rest mode access usedlen

def dirNsResolve (a : Agent tree) (path : Path) (mode access : UInt32) : Result tree :=
  match skipSlashes path with
  | [] =>
    let (ret, newobj) := nsCreateAgent tree a.agency access a.cred
    ⟨ret, .ofAgent newobj, nstDirectory, [], 0, 0⟩
  | c :: tail =>
    conclude tree a.cred path.length mode access (resolveLoop tree a.cred a.agency c tail)

def Agent.nsResolve (a : Agent tree) (path : Path) (mode access : UInt32) : Result tree :=
  if (a.access ||| nsrReference) &&& nsrLookup ≠ nsrLookup then abort tree .invalidAccess [] 0 0
  else if tree.isDir a.agency then dirNsResolve a path mode access
  else abort tree .noSuchOperation [] 0 0

end MachUS.Lookup
