import MachUS.Auth.NameTable

namespace MachUS.Auth

def checkForMembership (groupId : GroupId) (r : GroupRecord) : Bool :=
  r.groupId == groupId || r.trMemberships.contains groupId

theorem checkForMembership_iff {id : GroupId} {r : GroupRecord} :
    checkForMembership id r = true ↔ id = r.groupId ∨ id ∈ r.trMemberships := by
  rw [checkForMembership, Bool.or_eq_true, beq_iff_eq, List.contains_iff_mem, @eq_comm _ r.groupId]

def deleteFromList (l : List GroupId) (gone : GroupId) : List GroupId :=
  match l.findIdx? (· == gone) with
  | none => l
  | some i => if i = l.length - 1 then l.dropLast else (l.set i (l.getLastD nullId)).dropLast

inductive Direction where
  | memberships
  | members
  deriving DecidableEq, Repr

def Direction.next : Direction → GroupRecord → List GroupId
  | .memberships, r => r.memberships
  | .members, r => r.members

def Direction.put : Direction → List GroupId → GroupRecord → GroupRecord
  | .memberships, l, r => { r with memberships := l }
  | .members, l, r => { r with members := l }

structure Search where
  touched : List Addr
  groupIds : List GroupId
  deriving DecidableEq

namespace Groups

def doRecursiveSearch (g : Groups) (dir : Direction) : ℕ → GroupId → Search → Outcome Search
  | 0, _, _ => .error .endlessRecursion
  | depth + 1, id, acc => do
    match ← g.idSlot id with
    | none => .ok acc
    | some a => do
      let r ← g.deref a
      if a ∈ acc.touched then .ok acc
      else
        List.foldlM (fun s m => doRecursiveSearch g dir depth m s)
          ⟨a :: acc.touched, acc.groupIds ++ [id]⟩ (dir.next r)

def doTransitiveClosure (g : Groups) (dir : Direction) (r : GroupRecord) :
    Outcome (List GroupId) := do
  let found ← List.foldlM (fun s m => g.doRecursiveSearch dir (groupIdMax + 1) m s) ⟨[], []⟩
    (dir.next r)
  .ok found.groupIds

def fillClosure (k : Kernel) (g : Groups) (dir : Direction) (r : GroupRecord) :
    Outcome (List GroupId) := do
  let ids ← g.doTransitiveClosure dir r
  if ids = [] ∨ k.list then .ok ids else .error .nullPointer

def appendTo (dir : Direction) (g : Groups) (a : Addr) (id : GroupId) : Outcome Groups := do
  let r ← g.deref a
  if (dir.next r).length < membersMax then .ok (g.setRecord a (dir.put (dir.next r ++ [id]) r))
  else .error .memberOverrun

def addMember : Groups → Addr → GroupId → Outcome Groups := appendTo .members

def addMembership : Groups → Addr → GroupId → Outcome Groups := appendTo .memberships

def dropFrom (dir : Direction) (g : Groups) (a : Addr) (id : GroupId) : Outcome Groups := do
  let r ← g.deref a
  .ok (g.setRecord a (dir.put (deleteFromList (dir.next r) id) r))

def dropMember : Groups → Addr → GroupId → Outcome Groups := dropFrom .members

def dropMembership : Groups → Addr → GroupId → Outcome Groups := dropFrom .memberships

def dropEach (dir : Direction) (g : Groups) (id : GroupId) : List GroupId → Outcome Groups
  | [] => .ok g
  | m :: ms => do
    match ← g.idSlot m with
    | none => dropEach dir g id ms
    | some b => do
      let g ← dropFrom dir g b id
      dropEach dir g id ms

def leaveGroups : Groups → GroupId → List GroupId → Outcome Groups := dropEach .members

def releaseMembers : Groups → GroupId → List GroupId → Outcome Groups := dropEach .memberships

end Groups

open Text

def hashHome (port : Port) : Fin portMapMax :=
  Fin.ofNat portMapMax ((((port >>> 8) &&& 0xff) ^^^ (port &&& 0xff)) &&& 511).toNat

def hashPort (keys : Fin portMapMax → Port) (port : Port) : Outcome (Fin portMapMax) :=
  match Probing.probe keys machPortNull (hashHome port) port with
  | some i => .ok i
  | none => .error .endlessProbe

def PrivSlot.blank : PrivSlot := ⟨machPortNull, none⟩

def RegSlot.blank : RegSlot := ⟨machPortNull, machPortNull, [], nullId⟩

namespace Server

def privKeys (s : Server) (i : Fin portMapMax) : Port := (s.privPortMap i).mappedPort

def regKeys (s : Server) (i : Fin portMapMax) : Port := (s.regPortMap i).mappedPort

def setPriv (s : Server) (i : Fin portMapMax) (e : PrivSlot) : Server :=
  { s with privPortMap := Function.update s.privPortMap i e }

def setReg (s : Server) (i : Fin portMapMax) (e : RegSlot) : Server :=
  { s with regPortMap := Function.update s.regPortMap i e }

def withGroups (s : Server) (g : Groups) : Server := { s with groups := g }

def asCaller {α : Type} (s : Server) (privatePort : Port) (refused : α)
    (body : Fin portMapMax → Addr → Outcome α) : Outcome α :=
  if privatePort = machPortNull then .ok refused
  else do
    let i ← hashPort s.privKeys privatePort
    match (s.privPortMap i).record with
    | none => .ok refused
    | some a => body i a

def sessionState (s : Server) (login : Addr) (r : GroupRecord) (ids : List GroupId)
    (i : Fin portMapMax) (privatePort : Port) : Server :=
  (s.withGroups (s.groups.setRecord login { r with trMemberships := ids })).setPriv i
    ⟨privatePort, some login⟩

def openSession (k : Kernel) (s : Server) (login : Addr) (privatePort : Port) :
    Outcome (Ret × Server) := do
  let r ← s.groups.deref login
  if r.groupType ≠ asPrimary then .ok (.notPrimary, s)
  else do
    let ids ← s.groups.fillClosure k .memberships r
    let i ← hashPort s.privKeys privatePort
    .ok (.success, s.sessionState login r ids i privatePort)

def casLogin (k : Kernel) (s : Server) (userName : GroupName) (passWord : PassWord)
    (privatePort : Port) : Outcome (Ret × Server) := do
  match ← s.groups.lookupName (toLower userName) with
  | none => .ok (.badName, s)
  | some a => do
    let r ← s.groups.deref a
    if r.groupType ≠ asPrimary then .ok (.notPrimary, s)
    else do
      let given ← encryptPassword passWord
      if given ≠ r.passWord then .ok (.badPassWord, s) else s.openSession k a privatePort

def casLoginPriv (k : Kernel) (s : Server) (privatePort : Port) (userId : GroupId)
    (newPrivatePort : Port) : Outcome (Ret × Server) :=
  s.asCaller privatePort (.badPrivatePort, s) fun _ caller => do
    let c ← s.groups.deref caller
    if checkForMembership sysAdmId c = false then .ok (.notAllowed, s)
    else
      match s.groups.lookupId userId with
      | none => .ok (.badName, s)
      | some a => s.openSession k a newPrivatePort

end Server

def sprintf (size : ℕ) (format : Bytes) (id : GroupId) : Outcome (CString size) :=
  match CString.ofBytes? size (format ++ formatInt id.toInt32.toInt) with
  | some c => .ok c
  | none => .error .stringOverrun

def userFormat : Bytes := [85, 115, 101, 114, 32]

def groupFormat : Bytes := [71, 114, 111, 117, 112, 32]

def recFormat (isUser : Bool) : Bytes := if isUser then userFormat else groupFormat

def PassWord.ofCString (c : CString passWordSize) : PassWord :=
  ⟨c.bytes ++ List.replicate (passWordSize - c.bytes.length) 0, by
    have := c.fits
    simp
    omega⟩

def Groups.mapRecord (g : Groups) (a : Addr) (r : GroupRecord) : Groups :=
  { g.setRecord a r with groupIdMap := Function.update g.groupIdMap r.groupId (some a) }

def Groups.casCreateGroupRec (k : Kernel) (g : Groups) (i : ℕ) (groupId : GroupId)
    (memberships : List GroupId) (isUser : Bool) : Outcome (Option Addr × Groups) :=
  match k.record i with
  | none => .ok (none, g)
  | some a =>
    if (g.heap a).isSome then .error .addressInUse
    else do
      let name ← sprintf 64 [] groupId
      let full ← sprintf 256 (recFormat isUser) groupId
      let word ← sprintf passWordSize (recFormat isUser) groupId
      let _ ← g.idSlot groupId
      let word ← encryptPassword (PassWord.ofCString word)
      if membersMax < (memberships.drop 1).length then .error .memberOverrun
      else do
        let g' ← (g.mapRecord a
          { groupName := name, groupId := groupId, groupType := asPrimary, fullName := full,
            ownerId := sysAdmId, passWord := word, trMemberships := [], members := [],
            memberships := memberships.drop 1 }).enterName k a
        .ok (some a, g')

def Groups.findOrCreate (k : Kernel) (g : Groups) (i : ℕ) (id : GroupId)
    (memberships : List GroupId) (isUser : Bool) : Outcome (Option Addr × Groups) :=
  match g.lookupId id with
  | some a => .ok (some a, g)
  | none => g.casCreateGroupRec k i id memberships isUser

namespace Server

def casLoginCreate (k : Kernel) (s : Server) (privatePort : Port) (id : List GroupId)
    (newPrivatePort : Port) : Outcome (Ret × Server) :=
  s.asCaller privatePort (.badPrivatePort, s) fun _ caller => do
    let c ← s.groups.deref caller
    if checkForMembership sysAdmId c = false then .ok (.notAllowed, s)
    else
      match id with
      | [] => .error .idListRange
      | user :: rest => do
        match ← s.groups.findOrCreate k 0 user id true with
        | (none, g) => .ok (.badName, s.withGroups g)
        | (some login, g) =>
          match rest with
          | [] => .error .idListRange
          | group :: _ => do
            match ← g.findOrCreate k 1 group [] false with
            | (none, g) => .ok (.badName, s.withGroups g)
            | (some _, g) => (s.withGroups g).openSession k login newPrivatePort

def logoutState (s : Server) (privatePort : Port) (i : Fin portMapMax) (a : Addr)
    (r : GroupRecord) : Server where
  groups := s.groups.setRecord a { r with trMemberships := [] }
  privPortMap := Function.update s.privPortMap i PrivSlot.blank
  regPortMap j :=
    if (s.regPortMap j).privatePort = privatePort then RegSlot.blank else s.regPortMap j

def casLogout (s : Server) (privatePort : Port) : Outcome (Ret × Server) :=
  s.asCaller privatePort (.badPrivatePort, s) fun i a => do
    let r ← s.groups.deref a
    .ok (.success, s.logoutState privatePort i a r)

end Server

def Groups.admitGroups (k : Kernel) (create : Bool) : ℕ → List GroupId → Groups →
    Outcome (Bool × Groups)
  | _, [], g => .ok (true, g)
  | i, id :: ids, g =>
    match g.lookupId id with
    | some _ => admitGroups k create (i + 1) ids g
    | none =>
      if create = false then .ok (false, g)
      else do
        match ← g.casCreateGroupRec k i id [] false with
        | (none, g) => .ok (false, g)
        | (some _, g) => admitGroups k create (i + 1) ids g

def onTrMemberships (k : Kernel) (r : GroupRecord) : List GroupId → Outcome Bool
  | [] => .ok true
  | id :: ids =>
    if r.trMemberships.length = 0 then
      match k.stray id with
      | none => .error .strayRead
      | some false => .ok false
      | some true => onTrMemberships k r ids
    else onTrMemberships k r ids

namespace Server

def admitToken (k : Kernel) (g : Groups) (r : GroupRecord) (groupIds : List GroupId)
    (createGroups : Bool) : Outcome (Bool × Groups) :=
  if groupIds = [] then .ok (true, g)
  else if checkForMembership sysAdmId r || createGroups then
    g.admitGroups k createGroups 0 groupIds
  else do
    let ok ← onTrMemberships k r groupIds
    .ok (ok, g)

def tokenEntry (r : GroupRecord) (p : Port) (ids : List GroupId) (t : Port) : RegSlot :=
  ⟨t, p, if ids = [] then r.trMemberships else ids, r.groupId⟩

def casRegisterToken (k : Kernel) (s : Server) (privatePort : Port) (groupIds : List GroupId)
    (token : Port) (createGroups : Bool) : Outcome (Ret × Server) :=
  s.asCaller privatePort (.badPrivatePort, s) fun _ a => do
    let r ← s.groups.deref a
    match ← admitToken k s.groups r groupIds createGroups with
    | (false, g) => .ok (.badGroup, s.withGroups g)
    | (true, g) => do
      let j ← hashPort s.regKeys token
      if groupIds = [] ∧ r.trMemberships ≠ [] ∧ k.list = false then
        .ok (.failure, (s.withGroups g).setReg j { s.regPortMap j with groupIds := [] })
      else .ok (.success, (s.withGroups g).setReg j (tokenEntry r privatePort groupIds token))

def casDeleteToken (k : Kernel) (s : Server) (privatePort token : Port) : Outcome (Ret × Server) :=
  s.asCaller privatePort (.badPrivatePort, s) fun _ _ => do
    let j ← hashPort s.regKeys token
    if (s.regPortMap j).privatePort ≠ privatePort then .ok (.badPrivatePort, s)
    else
      .ok (if (s.regPortMap j).groupIds = [] then k.strayKr else k.vmDeallocate,
        s.setReg j RegSlot.blank)

def casVerifyTokenIds (s : Server) (token : Port) : Outcome (Ret × GroupId × List GroupId) := do
  let j ← hashPort s.regKeys token
  if (s.regPortMap j).mappedPort = token then
    .ok (.success, (s.regPortMap j).userId, (s.regPortMap j).groupIds)
  else .ok (.failure, nullId, [])

def noName : GroupName := CString.empty (by decide)

def nameOf (g : Groups) (id : GroupId) : Outcome GroupName := do
  match ← g.idSlot id with
  | none => .ok noName
  | some a => do
    let r ← g.deref a
    .ok r.groupName

def casVerifyTokenNames (k : Kernel) (s : Server) (token : Port) :
    Outcome (Ret × GroupName × List GroupName) := do
  let j ← hashPort s.regKeys token
  if (s.regPortMap j).mappedPort ≠ token then .ok (.success, noName, [])
  else do
    match ← s.groups.idSlot (s.regPortMap j).userId with
    | none => .ok (.badGroup, noName, [])
    | some a => do
      let r ← s.groups.deref a
      if (s.regPortMap j).groupIds ≠ [] ∧ k.list = false then .ok (.failure, r.groupName, [])
      else do
        let names ← (s.regPortMap j).groupIds.mapM (nameOf s.groups)
        .ok (.success, r.groupName, names)

def casHandlePortDeath (k : Kernel) (s : Server) (deadPort : Port) : Outcome Server := do
  let i ← hashPort s.privKeys deadPort
  let j ← hashPort s.regKeys deadPort
  if (s.privPortMap i).record ≠ none then do
    let done ← s.casLogout deadPort
    .ok done.2
  else if (s.regPortMap j).mappedPort = deadPort then do
    let done ← s.casDeleteToken k (s.regPortMap j).privatePort deadPort
    .ok done.2
  else .ok s

end Server

end MachUS.Auth

namespace MachUS.Auth

open Text

def mayEdit (caller : GroupRecord) (owner : GroupId) : Bool :=
  owner == caller.groupId || checkForMembership owner caller || checkForMembership sysAdmId caller

namespace Groups

def freeId (g : Groups) : Option GroupId :=
  ((List.range' 2 (groupIdMax - 2)).map UInt32.ofNat).find? fun i => (g.groupIdMap i).isNone

def chooseId (g : Groups) (groupId : GroupId) : Outcome (Except Ret GroupId) :=
  if groupId = nullId then
    match g.freeId with
    | some i => .ok (.ok i)
    | none => .ok (.error .failure)
  else do
    match ← g.idSlot groupId with
    | some _ => .ok (.error .duplicateId)
    | none => .ok (.ok groupId)

def storedPassWord (groupType : GroupType) (passWord : PassWord) : Outcome PassWord :=
  if groupType = asPrimary then encryptPassword passWord else .ok PassWord.zero

def insertGroup (k : Kernel) (g : Groups) (a : Addr) (r : GroupRecord) : Outcome Groups := do
  let g' ← (g.setRecord a r).enterName k a
  .ok { g' with groupIdMap := Function.update g'.groupIdMap r.groupId (some a) }

def removeGroup (k : Kernel) (g : Groups) (a : Addr) : Outcome Groups := do
  let r ← g.deref a
  let g ← g.leaveGroups r.groupId r.memberships
  let r ← g.deref a
  let g ← g.releaseMembers r.groupId r.members
  let g ← g.deleteName k r.groupName.bytes
  let _ ← g.idSlot r.groupId
  .ok { g with
    groupIdMap := Function.update g.groupIdMap r.groupId none
    heap := Function.update g.heap a none }

end Groups

namespace Server

def ownerOf (s : Server) (caller : GroupRecord) (groupName ownerGroup : GroupName) :
    Outcome (Except Ret (Option GroupId)) :=
  if ownerGroup = groupName then .ok (.ok none)
  else do
    match ← s.groups.lookupName ownerGroup with
    | none => .ok (.error .badGroup)
    | some o => do
      let r ← s.groups.deref o
      if mayEdit caller r.groupId then .ok (.ok (some r.groupId)) else .ok (.error .notAllowed)

def createRecord (k : Kernel) (s : Server) (groupName : GroupName) (groupType : GroupType)
    (fullName : FullName) (passWord : PassWord) (owner : Option GroupId) (id : GroupId) :
    Outcome (Ret × GroupId × Server) :=
  match k.record 0 with
  | none => .ok (.failure, id, s)
  | some a =>
    if (s.groups.heap a).isSome then .error .addressInUse
    else do
      let word ← Groups.storedPassWord groupType passWord
      let g ← s.groups.insertGroup k a
        { groupName := groupName, groupId := id, groupType := groupType, fullName := fullName,
          ownerId := owner.getD id, passWord := word, trMemberships := [], members := [],
          memberships := [] }
      .ok (.success, id, s.withGroups g)

def casCreateGroup (k : Kernel) (s : Server) (privatePort : Port) (groupName : GroupName)
    (groupType : GroupType) (fullName : FullName) (passWord : PassWord) (ownerGroup : GroupName)
    (groupId : GroupId) : Outcome (Ret × GroupId × Server) :=
  s.asCaller privatePort (.badPrivatePort, groupId, s) fun _ caller => do
    let c ← s.groups.deref caller
    if groupType = asPrimary ∧ checkForMembership sysAdmId c = false then
      .ok (.notAllowed, groupId, s)
    else do
      match ← s.ownerOf c (toLower groupName) (toLower ownerGroup) with
      | .error ret => .ok (ret, groupId, s)
      | .ok owner => do
        match ← s.groups.lookupName (toLower groupName) with
        | some _ => .ok (.duplicateName, groupId, s)
        | none => do
          match ← s.groups.chooseId groupId with
          | .error ret => .ok (ret, groupId, s)
          | .ok id => s.createRecord k (toLower groupName) groupType fullName passWord owner id

def casDeleteGroup (k : Kernel) (s : Server) (privatePort : Port) (groupName : GroupName) :
    Outcome (Ret × Server) :=
  s.asCaller privatePort (.badPrivatePort, s) fun _ caller => do
    match ← s.groups.lookupName (toLower groupName) with
    | none => .ok (.badGroup, s)
    | some a => do
      let r ← s.groups.deref a
      let c ← s.groups.deref caller
      if mayEdit c r.ownerId = false then .ok (.notAllowed, s)
      else do
        let g ← s.groups.removeGroup k a
        .ok (.success, s.withGroups g)

def casChangeOwner (s : Server) (privatePort : Port) (groupName newOwner : GroupName) :
    Outcome (Ret × Server) :=
  s.asCaller privatePort (.badPrivatePort, s) fun _ caller => do
    match ← s.groups.lookupName (toLower groupName) with
    | none => .ok (.badGroup, s)
    | some a => do
      let r ← s.groups.deref a
      let c ← s.groups.deref caller
      if mayEdit c r.ownerId = false then .ok (.notAllowed, s)
      else do
        match ← s.groups.lookupName (toLower newOwner) with
        | none => .ok (.badGroup, s)
        | some o => do
          let owner ← s.groups.deref o
          .ok (.success, s.withGroups (s.groups.setRecord a { r with ownerId := owner.groupId }))

def passWordRefusal (caller change : GroupRecord) (oldPassWord : PassWord) :
    Outcome (Option Ret) :=
  if change.groupId = caller.groupId then do
    let given ← encryptPassword oldPassWord
    .ok (if given ≠ change.passWord then some .badPassWord else none)
  else .ok (if mayEdit caller change.ownerId = false then some .notAllowed else none)

def casChangePassword (s : Server) (privatePort : Port) (groupName : GroupName)
    (oldPassWord newPassWord : PassWord) : Outcome (Ret × Server) :=
  s.asCaller privatePort (.badPrivatePort, s) fun _ caller => do
    match ← s.groups.lookupName (toLower groupName) with
    | none => .ok (.badGroup, s)
    | some a => do
      let r ← s.groups.deref a
      if r.groupType ≠ asPrimary then .ok (.notPrimary, s)
      else do
        let c ← s.groups.deref caller
        match ← passWordRefusal c r oldPassWord with
        | some ret => .ok (ret, s)
        | none => do
          let word ← encryptPassword newPassWord
          .ok (.success, s.withGroups (s.groups.setRecord a { r with passWord := word }))

def casAddToGroup (s : Server) (privatePort : Port) (groupName addGroupName : GroupName) :
    Outcome (Ret × Server) :=
  s.asCaller privatePort (.badPrivatePort, s) fun _ caller => do
    match ← s.groups.lookupName groupName with
    | none => .ok (.badGroup, s)
    | some a => do
      let r ← s.groups.deref a
      if r.groupType ≠ asSecondary then .ok (.notSecondary, s)
      else do
        match ← s.groups.lookupName (toLower addGroupName) with
        | none => .ok (.badGroup, s)
        | some b => do
          let added ← s.groups.deref b
          let c ← s.groups.deref caller
          if mayEdit c r.ownerId = false then .ok (.notAllowed, s)
          else do
            let g ← s.groups.addMember a added.groupId
            let g ← g.addMembership b r.groupId
            .ok (.success, s.withGroups g)

def casRemoveFromGroup (s : Server) (privatePort : Port) (groupName removeGroupName : GroupName) :
    Outcome (Ret × Server) :=
  s.asCaller privatePort (.badPrivatePort, s) fun _ caller => do
    match ← s.groups.lookupName (toLower groupName) with
    | none => .ok (.badGroup, s)
    | some a => do
      let r ← s.groups.deref a
      if r.groupType ≠ asSecondary then .ok (.notSecondary, s)
      else do
        match ← s.groups.lookupName (toLower removeGroupName) with
        | none => .ok (.badGroup, s)
        | some b => do
          let removed ← s.groups.deref b
          let c ← s.groups.deref caller
          if mayEdit c r.ownerId = false then .ok (.notAllowed, s)
          else do
            let g ← s.groups.dropMember a removed.groupId
            let g ← g.dropMembership b r.groupId
            .ok (.success, s.withGroups g)

end Server

inductive Op where
  | login (userName : GroupName) (passWord : PassWord) (privatePort : Port)
  | loginPriv (privatePort : Port) (userId : GroupId) (newPrivatePort : Port)
  | loginCreate (privatePort : Port) (id : List GroupId) (newPrivatePort : Port)
  | logout (privatePort : Port)
  | registerToken (privatePort : Port) (groupIds : List GroupId) (token : Port)
      (createGroups : Bool)
  | deleteToken (privatePort token : Port)
  | createGroup (privatePort : Port) (groupName : GroupName) (groupType : GroupType)
      (fullName : FullName) (passWord : PassWord) (ownerGroup : GroupName) (groupId : GroupId)
  | deleteGroup (privatePort : Port) (groupName : GroupName)
  | changeOwner (privatePort : Port) (groupName newOwner : GroupName)
  | changePassword (privatePort : Port) (groupName : GroupName)
      (oldPassWord newPassWord : PassWord)
  | addToGroup (privatePort : Port) (groupName addGroupName : GroupName)
  | removeFromGroup (privatePort : Port) (groupName removeGroupName : GroupName)

def Server.step (k : Kernel) (s : Server) : Op → Outcome (Ret × Server)
  | .login u w p => s.casLogin k u w p
  | .loginPriv p u q => s.casLoginPriv k p u q
  | .loginCreate p id q => s.casLoginCreate k p id q
  | .logout p => s.casLogout p
  | .registerToken p ids t c => s.casRegisterToken k p ids t c
  | .deleteToken p t => s.casDeleteToken k p t
  | .createGroup p n ty f w o id => do
    let (ret, _, s) ← s.casCreateGroup k p n ty f w o id
    .ok (ret, s)
  | .deleteGroup p n => s.casDeleteGroup k p n
  | .changeOwner p n o => s.casChangeOwner p n o
  | .changePassword p n w w' => s.casChangePassword p n w w'
  | .addToGroup p n m => s.casAddToGroup p n m
  | .removeFromGroup p n m => s.casRemoveFromGroup p n m

end MachUS.Auth
