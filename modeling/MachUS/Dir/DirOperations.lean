import MachUS.Dir.Directory

namespace MachUS.Dir

open Program

def nsGetAttributes (o : ObjId) (attrs : Ret) : M Ret := do
  let w ← get
  acquire (.vol o)
  release (.vol o)
  match w.kind o with
  | .foreign => pure attrs
  | .agency => pure attrs
  | .directory d =>
    acquire (.dir d)
    release (.dir d)
    pure attrs
  | .temporary =>
    acquire (.tmp o)
    release (.tmp o)
    pure attrs
  | .temporaryDirectory d =>
    acquire (.dir d)
    release (.dir d)
    acquire (.tmp o)
    release (.tmp o)
    pure attrs

def nsInstallEntry (d : DirId) (tag : Addr) (o : ObjId) (type objId : ℕ) (attrs : Ret) : M Ret := do
  acquire (.dir d)
  if tag = 0 then
    release (.dir d)
    pure .entryNotReserved
  else
    let e ← readEntry tag
    if e.type ≠ nstReserved then
      release (.dir d)
      pure .entryNotReserved
    else
      let ret ← nsRegisterTmplink o ⟨d, tag, e.serial⟩
      if ret ≠ .success then
        release (.dir d)
        pure ret
      else
        let ret ← nsGetAttributes o attrs
        if ret ≠ .success then
          release (.dir d)
          pure ret
        else
          writeEntry tag fun e => { e with type := type, objId := objId, obj := some o }
          release (.dir d)
          pure .success

def nsCancelEntry (d : DirId) (tag : Addr) : M Ret := do
  acquire (.dir d)
  if tag = 0 then
    release (.dir d)
    pure .entryNotReserved
  else
    let e ← readEntry tag
    if e.type ≠ nstReserved then
      release (.dir d)
      pure .entryNotReserved
    else
      takeOut d tag
      release (.dir d)
      freeEntry tag
      pure .success

def dropDead (d : DirId) (name : Name) (a : Addr) : M Unit := do
  modifyDir d fun dir => dir.unlink (nameHash name) a
  writeEntry a fun e => { e with type := nstInvalid, obj := none }

abbrev Found := Option (Ret × Option (ObjId × ℕ))

def nsLookupEntry (d : DirId) (name : Name) (answers : Answers) : M Found :=
  if nsNamelen ≤ name.length then pure (some (.nameTooLong, none))
  else do
    acquire (.dir d)
    let found ← scanForName d name
    match found with
    | none =>
      release (.dir d)
      pure (some (.notFound, none))
    | some a =>
      let e ← readEntry a
      if e.type = nstReserved then
        release (.dir d)
        pure none
      else
        match e.obj with
        | none =>
          release (.dir d)
          pure (some (.internalError, none))
        | some o =>
          let ret ← nsReferenceTmplink o answers
          if ret = .success then
            release (.dir d)
            pure (some (.success, some (o, e.type)))
          else if ret = .objectDead then
            dropDead d name a
            release (.dir d)
            pure (some (.notFound, none))
          else
            release (.dir d)
            pure (some (.internalError, none))

def unregisterEntryObj (obj : Option ObjId) (answers : Answers) : M Ret :=
  match obj with
  | some o => nsUnregisterTmplink o answers
  | none => pure .success

def nsRemoveEntry (d : DirId) (name : Name) (answers : Answers) : M (Option Ret) :=
  if nsNamelen ≤ name.length then pure (some .nameTooLong)
  else do
    acquire (.dir d)
    let found ← scanForName d name
    match found with
    | none =>
      release (.dir d)
      pure (some .notFound)
    | some a =>
      let e ← readEntry a
      if e.type = nstReserved then
        release (.dir d)
        pure none
      else
        let ret ← unregisterEntryObj e.obj answers
        if ret = .success then
          modifyDir d fun dir => dir.unlink (nameHash name) a
          freeEntry a
          release (.dir d)
          pure (some .success)
        else if ret = .objectDead then
          dropDead d name a
          release (.dir d)
          pure (some .notFound)
        else
          release (.dir d)
          pure (some ret)

def readBucket : List Addr → M (List (Name × ℕ × ℕ))
  | [] => pure []
  | a :: rest => do
    let e ← readEntry a
    let es ← readBucket rest
    pure ((e.name, e.type, e.objId) :: es)

def readBuckets (dir : Directory) : List ℕ → M (List (Name × ℕ × ℕ))
  | [] => pure []
  | i :: rest => do
    let es ← readBucket (dir.buckets i)
    let more ← readBuckets dir rest
    pure (es ++ more)

-- none: NS_BAD_DIRECTORY, there are more entries than entry_count says.
def nsListEntries (d : DirId) : M (Option (List (Name × ℕ × ℕ))) := do
  acquire (.dir d)
  let w ← get
  let es ← readBuckets (w.dirs d) (List.range hashsize)
  release (.dir d)
  if (w.dirs d).entryCount < es.length then pure none else pure (some es)

def nsRegisterAgent (o : ObjId) : M Unit := do
  acquire (.tmp o)
  modifyTmp o TmpProp.nsRegisterAgent
  release (.tmp o)

def nsUnregisterAgent (o : ObjId) (answers : Answers) : M Unit := do
  acquire (.tmp o)
  let w ← get
  let shutdown ← tmpStep o fun p =>
    TmpProp.shutdownIfUnused { p with agentCount := p.agentCount - 1 }
      (lastAnswer w o answers.lastChance)
  removeFromParent o shutdown
  release (.tmp o)

def tmpRegisterStronglink (o : ObjId) : M Ret := do
  acquire (.tmp o)
  modifyTmp o TmpProp.nsRegisterStronglink
  release (.tmp o)
  pure .success

def nsRegisterStronglink (o : ObjId) : M Ret := do
  let w ← get
  match w.kind o with
  | .foreign => pure (.other 0)
  | .agency => volLink o 1
  | .directory d => dirLink d
  | .temporary => tmpRegisterStronglink o
  | .temporaryDirectory _ => tmpRegisterStronglink o

def tmpUnregisterStronglink (o : ObjId) (answers : Answers) : M Ret := do
  acquire (.tmp o)
  let w ← get
  match (w.tmp o).mayUnregisterStronglink (lastAnswer w o answers.lastLink) with
  | none => lift (.error .nullObject)
  | some .success =>
    let shutdown ← tmpStep o fun p =>
      TmpProp.shutdownIfUnused { p with stronglinkCount := p.stronglinkCount - 1 }
        (lastAnswer w o answers.lastChance)
    removeFromParent o shutdown
    release (.tmp o)
    modifyTmp o TmpProp.dereferenceTemporary
    pure .success
  | some ret =>
    release (.tmp o)
    pure ret

def nsUnregisterStronglink (o : ObjId) (answers : Answers) : M Ret := do
  let w ← get
  match w.kind o with
  | .foreign => pure (.other 0)
  | .agency => volLink o (-1)
  | .directory d => dirUnlink d
  | .temporary => tmpUnregisterStronglink o answers
  | .temporaryDirectory _ => tmpUnregisterStronglink o answers

def tmpDirRemoveEntry (o : ObjId) (d : DirId) (name : Name) (answers : Answers) :
    M (Option Ret) := do
  let ret ← nsRemoveEntry d name answers
  if ret = some .success then
    let _ ← tmpReferenceTmplink o answers
    pure (some .success)
  else pure ret

inductive DirCall where
  | reserve (d : DirId) (name : Name) (fresh : Addr)
  | install (d : DirId) (tag : Addr) (o : ObjId) (type objId : ℕ) (attrs : Ret)
  | cancel (d : DirId) (tag : Addr)
  | lookup (d : DirId) (name : Name) (answers : Answers)
  | remove (d : DirId) (name : Name) (answers : Answers)
  | removeTmplink (d : DirId) (tag : Addr)
  | list (d : DirId)
  | getAttributes (o : ObjId) (attrs : Ret)
  | registerTmplink (o : ObjId) (parent : Link)
  | unregisterTmplink (o : ObjId) (answers : Answers)
  | referenceTmplink (o : ObjId) (answers : Answers)
  | registerStronglink (o : ObjId)
  | unregisterStronglink (o : ObjId) (answers : Answers)
  | registerAgent (o : ObjId)
  | unregisterAgent (o : ObjId) (answers : Answers)
  | tmpDirRemove (o : ObjId) (d : DirId) (name : Name) (answers : Answers)

def ignoring {α : Type} (m : M α) : M Unit := do
  let _ ← m
  pure ()

def DirCall.run : DirCall → M Unit
  | .reserve d name fresh => ignoring (nsReserveEntry d name fresh)
  | .install d tag o type objId attrs => ignoring (nsInstallEntry d tag o type objId attrs)
  | .cancel d tag => ignoring (nsCancelEntry d tag)
  | .lookup d name answers => ignoring (nsLookupEntry d name answers)
  | .remove d name answers => ignoring (nsRemoveEntry d name answers)
  | .removeTmplink d tag => ignoring (nsRemoveTmplink d tag)
  | .list d => ignoring (nsListEntries d)
  | .getAttributes o attrs => ignoring (nsGetAttributes o attrs)
  | .registerTmplink o parent => ignoring (nsRegisterTmplink o parent)
  | .unregisterTmplink o answers => ignoring (nsUnregisterTmplink o answers)
  | .referenceTmplink o answers => ignoring (nsReferenceTmplink o answers)
  | .registerStronglink o => ignoring (nsRegisterStronglink o)
  | .unregisterStronglink o answers => ignoring (nsUnregisterStronglink o answers)
  | .registerAgent o => nsRegisterAgent o
  | .unregisterAgent o answers => nsUnregisterAgent o answers
  | .tmpDirRemove o d name answers => ignoring (tmpDirRemoveEntry o d name answers)

namespace World

def next (w : World) (c : DirCall) : Option World :=
  match c.run w with
  | .ok (_, w') => some w'
  | .error _ => none

end World

end MachUS.Dir
