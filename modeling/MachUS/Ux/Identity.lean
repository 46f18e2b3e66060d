import MachUS.Foundation.Transition
import Mathlib.Algebra.Group.Int.Defs
import Mathlib.Data.List.Basic

namespace MachUS.Ux

abbrev Authid := ℤ

def maxGroups : ℕ := 16

structure FsAccess where
  uidToAuthid : ℤ → Authid
  gidToAuthid : ℤ → Authid
  rootAuthid : Authid
  privAuthid : Authid

def FsAccess.isRoot (a : FsAccess) (id : Authid) : Bool := id = a.privAuthid || id = a.rootAuthid

inductive IdentCode where
  | success
  | objectExists
  | invalidAccess
  | invalidArgs
  | failed (code : ℕ)
  deriving DecidableEq

abbrev Ident := List Authid

structure Uxident where
  rUid : Authid
  eUid : Authid
  rGid : Authid
  eGid : Authid
  ngroups : ℕ
  groups : ℕ → Authid
  ruRg : Ident
  euEg : Ident

structure Cred where
  authid : Ident
  overran : Bool

structure Made where
  euEg : Option ℕ
  ruRg : Option ℕ

namespace Uxident

def create (ident : Ident) (translated : Bool) (groups : ℕ → Authid) : Uxident :=
  if translated then
    { rUid := ident.getD 0 0
      eUid := ident.getD 0 0
      rGid := ident.getD 1 0
      eGid := ident.getD 1 0
      ngroups := 1
      groups := Function.update groups 0 (ident.getD 1 0)
      ruRg := ident
      euEg := ident }
  else
    { rUid := -1
      eUid := -1
      rGid := -1
      eGid := -1
      ngroups := 0
      groups := groups
      ruRg := ident
      euEg := ident }

variable (a : FsAccess) (x : Uxident)

def groupList : List Authid := (List.range x.ngroups).map x.groups

def addGroup (gid : Authid) : Uxident :=
  if gid ∈ x.groupList then x
  else if x.ngroups < maxGroups then
    { x with groups := Function.update x.groups x.ngroups gid, ngroups := x.ngroups + 1 }
  else x

def removeGroup (gid : Authid) : Uxident :=
  match (List.range x.ngroups).find? fun i => x.groups i = gid with
  | some i =>
    { x with
      groups := fun j => if i ≤ j ∧ j < x.ngroups - 1 then x.groups (j + 1) else x.groups j
      ngroups := x.ngroups - 1 }
  | none => x

def unixCred (uid gid : Authid) (groups : List Authid) : Cred :=
  let authid := uid :: gid :: groups.filter (· ≠ gid)
  ⟨authid, maxGroups + 1 < authid.length⟩

structure Outcome where
  code : IdentCode
  after : Uxident
  overran : Bool

def remake (made : Made) (euEg ruRg : Option Cred) (commit : Uxident) : Outcome :=
  match euEg, made.euEg with
  | some c, some code => ⟨.failed code, x, c.overran⟩
  | _, _ =>
    let overran := euEg.any Cred.overran || ruRg.any Cred.overran
    match ruRg, made.ruRg with
    | some _, some code => ⟨.failed code, x, overran⟩
    | _, _ =>
      ⟨.success,
        { commit with
          euEg := euEg.elim x.euEg Cred.authid
          ruRg := ruRg.elim x.ruRg Cred.authid }, overran⟩

def setReuid (uxRuid uxEuid : ℤ) (made : Made) : Outcome :=
  let ruid := if uxRuid = -1 then x.rUid else a.uidToAuthid uxRuid
  let euid := if uxEuid = -1 then x.eUid else a.uidToAuthid uxEuid
  if ruid = x.rUid ∧ euid = x.eUid then ⟨.objectExists, x, false⟩
  else if ruid ≠ x.rUid ∧ ruid ≠ x.eUid ∧ ¬ a.isRoot x.rUid then ⟨.invalidAccess, x, false⟩
  else if euid ≠ x.rUid ∧ euid ≠ x.eUid ∧ ¬ a.isRoot x.rUid then ⟨.invalidAccess, x, false⟩
  else
    x.remake made (if euid = x.eUid then none else some (unixCred euid x.eGid x.groupList))
      (if ruid = x.rUid then none else some (unixCred ruid x.rGid x.groupList))
      { x with eUid := euid, rUid := ruid }

def setRegid (uxRgid uxEgid : ℤ) (made : Made) : Outcome :=
  let rgid := if uxRgid = -1 then x.rGid else a.gidToAuthid uxRgid
  let egid := if uxEgid = -1 then x.eGid else a.gidToAuthid uxEgid
  if rgid = x.rGid ∧ egid = x.eGid then ⟨.objectExists, x, false⟩
  else if rgid ≠ x.rGid ∧ rgid ≠ x.eGid ∧ ¬ a.isRoot x.rUid then ⟨.invalidAccess, x, false⟩
  else if egid ≠ x.rGid ∧ egid ≠ x.eGid ∧ ¬ a.isRoot x.rUid then ⟨.invalidAccess, x, false⟩
  else
    x.remake made (if egid = x.eGid then none else some (unixCred x.eUid egid x.groupList))
      (if rgid = x.rGid then none else some (unixCred x.rUid rgid x.groupList))
      { (if rgid = x.rGid then x else (x.removeGroup x.rGid).addGroup rgid) with
        rGid := rgid, eGid := egid }

def setGroups (gidset : ℕ → ℤ) (ngroups : ℤ) (made : Made) : Outcome :=
  let n := (ngroups % 2 ^ 32).toNat
  if maxGroups < n then ⟨.invalidArgs, x, false⟩
  else
    let groups := (List.range n).map fun i => a.gidToAuthid (gidset i)
    x.remake made (some (unixCred x.eUid x.eGid groups)) (some (unixCred x.rUid x.rGid groups))
      { x with ngroups := n }

inductive Call where
  | setReuid (uxRuid uxEuid : ℤ) (made : Made)
  | setRegid (uxRgid uxEgid : ℤ) (made : Made)
  | setGroups (gidset : ℕ → ℤ) (ngroups : ℤ) (made : Made)

def call : Call → Outcome
  | .setReuid uxRuid uxEuid made => x.setReuid a uxRuid uxEuid made
  | .setRegid uxRgid uxEgid made => x.setRegid a uxRgid uxEgid made
  | .setGroups gidset ngroups made => x.setGroups a gidset ngroups made

end Uxident

end MachUS.Ux
