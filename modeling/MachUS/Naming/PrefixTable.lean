import MachUS.Foundation.Program
import MachUS.Foundation.Text

namespace MachUS.Naming

abbrev Path := List UInt8

def nsPathlen : ℕ := 1024
def nsNamelen : ℕ := 256

theorem nsPathlen_pos : 0 < nsPathlen := by decide

def slash : UInt8 := 47
def dot : UInt8 := 46
def atSign : UInt8 := 64

def atsysString : Path := [105, 51, 56, 54, 95, 109, 97, 99, 104]

def atsys : Path := [64, 115, 121, 115]

inductive NsError where
  | invalidHandle
  | nameNotFound
  | pathTooLong
  | infiniteRetry
  | infiniteForward
  | invalidPrefix
  | prefixOverflow
  | tforwardFailure
  | invalidAccess
  | accessDenied
  | notAuthenticated
  | noSuchOperation
  | sendInvalidDest
  | other (code : ℕ)
  deriving DecidableEq

inductive Fault where
  | noFuel
  | outside
  | nullObject
  deriving DecidableEq

abbrev Buf := List UInt8

namespace Buf

def peek (b : Buf) (p : ℕ) : Except Fault UInt8 :=
  match b[p]? with
  | some c => .ok c
  | none => .error .outside

def peekBefore (b : Buf) : ℕ → Except Fault UInt8
  | 0 => .error .outside
  | p + 1 => peek b p

def put (b : Buf) (p : ℕ) (bs : List UInt8) : Except Fault Buf :=
  if p ≤ b.length ∧ p + bs.length ≤ nsPathlen then
    .ok (b.take p ++ bs ++ b.drop (p + bs.length))
  else .error .outside

def slice (b : Buf) (p q : ℕ) : Except Fault (List UInt8) :=
  if q ≤ b.length then .ok ((b.take q).drop p) else .error .outside

end Buf

def cString (bs : List UInt8) : Path := bs.takeWhile (· ≠ 0)

namespace Buf

def string (b : Buf) (p : ℕ) : Except Fault Path :=
  if p + (cString (b.drop p)).length < b.length then .ok (cString (b.drop p))
  else .error .outside

structure Component where
  pos : ℕ
  text : Path

def findComponent (b : Buf) (p : ℕ) : Except Fault Component := do
  let rest ← b.string p
  let found := rest.dropWhile (· = slash)
  pure ⟨p + (rest.length - found.length), found.takeWhile (· ≠ slash)⟩

end Buf

def isDotdot (text : Path) : Bool := text = [dot, dot]

def atpos (text : Path) : Option ℕ :=
  (List.range text.length).reverse.find? fun k => text[k]? = some atSign

def substitute (text : Path) : Path :=
  match atpos text with
  | none => text
  | some k =>
    if (text.drop k).take 4 = atsys then text.take k ++ atsysString ++ text.drop (k + 4)
    else text

def downWhile (b : Buf) (test : UInt8 → Bool) : ℕ → ℕ
  | 0 => 0
  | p + 1 => if test (b.getD (p + 1) 0) then downWhile b test p else p + 1

def backspaceComponent (b : Buf) (cp : ℕ) : Except Fault ℕ :=
  if b.length < cp then .error .outside
  else
    match cp with
    | 0 => .ok 0
    | p + 1 =>
      .ok (downWhile b (· = slash) (downWhile b (· ≠ slash) (downWhile b (· = slash) p)) + 1)

def addSlash (b : Buf) (cp : ℕ) : Except Fault (Buf × ℕ) := do
  if (← b.peekBefore cp) = slash then pure (b, cp)
  else pure (← b.put cp [slash], cp + 1)

structure Cleaning where
  out : Path
  ps : ℕ
  cs : ℕ

def copyComponent (pathsize compsize : ℕ) : Path → Cleaning → Path × Cleaning
  | [], k => ([], k)
  | c :: ip, k =>
    if c = slash then (c :: ip, k)
    else if k.cs + 1 < compsize then
      if k.ps + 1 < pathsize then
        copyComponent pathsize compsize ip ⟨k.out ++ [c], k.ps + 1, k.cs + 1⟩
      else (c :: ip, ⟨k.out, k.ps + 1, k.cs + 1⟩)
    else (c :: ip, ⟨k.out, k.ps, k.cs + 1⟩)

def cleanLoop (pathsize compsize : ℕ) : ℕ → Path → Cleaning → Cleaning
  | 0, _, k => k
  | n + 1, ip, k =>
    if ip = [] ∨ ¬k.ps < pathsize ∨ ¬k.cs < compsize then k
    else
      let wanting := k.out ≠ [] ∧ k.out.getLast? ≠ some slash
      if wanting ∧ ¬k.ps + 1 < pathsize then { k with ps := k.ps + 1 }
      else
        let k := if wanting then { k with out := k.out ++ [slash], ps := k.ps + 1 } else k
        match ip.dropWhile (· = slash) with
        | [] => { k with cs := 0 }
        | c :: ip =>
          if c = dot ∧ (ip = [] ∨ ip.head? = some slash) then cleanLoop pathsize compsize n ip k
          else
            let (ip, k) := copyComponent pathsize compsize (c :: ip) { k with cs := 0 }
            cleanLoop pathsize compsize n ip k

def cleanPath (inpath : Path) : Except NsError Path :=
  let k := cleanLoop nsPathlen nsNamelen inpath.length inpath
    (if inpath.head? = some slash then ⟨[slash], 1, 0⟩ else ⟨[], 0, 0⟩)
  if k.ps < nsPathlen ∧ k.cs < nsNamelen then .ok k.out else .error .pathTooLong

def fixupInpos (b : Buf) : ℕ → Except Fault ℕ
  | 0 => .ok 0
  | p + 1 => do
    if (← b.peek p) = slash then pure (p - 1 + 1) else pure (p + 1)


abbrev Obj := ℕ

inductive PfxType where
  | invalid
  | system
  | user
  | cache
  deriving DecidableEq

structure PfxEntry where
  type : PfxType
  prefixPath : Path
  target : Option Obj
  targetType : ℕ
  canonPath : Path
  idStamp : ℕ
  deriving DecidableEq

def pfxTableSize : ℕ := 10

def nstInvalid : ℕ := 0
def nsrLookup : UInt32 := 0x2
def nsrReference : UInt32 := 0x80

structure Reply where
  obj : Option Obj
  type : ℕ
  path : Text.CString nsPathlen
  usedlen : ℕ
  action : UInt32

structure Servers (W : Type) where
  isName : Obj → Bool
  resolve : W → Obj → Path → UInt32 → UInt32 → Except NsError Reply × W
  authenticate : W → Obj → UInt32 → ℕ → Except NsError (Option Obj) × W
  duplicate : W → Obj → UInt32 → Except NsError (Option Obj) × W

-- What the runs are judged by; no function of the source reads it.
inductive Happening where
  | unreleased (o : Obj)
  | releasedAgain (o : Obj)
  | renewed (pfxpath : Path)
  | reevaluated (pfxpath : Path)
  | demoted (pfxpath : Path)
  | nullCached (pfxpath : Path)
  deriving DecidableEq

structure StdName (W : Type) where
  world : W
  pfxTable : List (Option PfxEntry)
  lastIndex : ℕ
  nullPrefix : Option PfxEntry
  token : ℕ
  identityVersion : ℕ
  refs : Obj → ℤ
  log : List Happening

abbrev Run (W α : Type) := Program.Prog (StdName W) Fault α

inductive Slot where
  | null
  | index (i : ℕ)
  deriving DecidableEq

def PfxEntry.blank (path : Path) : PfxEntry where
  type := .invalid
  prefixPath := path
  target := none
  targetType := nstInvalid
  canonPath := []
  idStamp := 0

variable {W : Type}

namespace StdName

def create (world : W) : StdName W where
  world := world
  pfxTable := List.replicate pfxTableSize none
  lastIndex := pfxTableSize - 1
  nullPrefix := none
  token := 0
  identityVersion := 0
  refs := fun _ => 0
  log := []

def entry (s : StdName W) : Slot → Option PfxEntry
  | .null => s.nullPrefix
  | .index i => (s.pfxTable[i]?).join

def store (s : StdName W) (e : PfxEntry) : Slot → StdName W
  | .null => { s with nullPrefix := some e }
  | .index i => { s with pfxTable := s.pfxTable.set i (some e) }

def count (s : StdName W) (n : ℤ) : Option Obj → StdName W
  | none => s
  | some o => { s with refs := Function.update s.refs o (s.refs o + n) }

end StdName

def reference (o : Option Obj) : Run W Unit := modify fun s => s.count 1 o

def dereference (o : Option Obj) : Run W Unit := modify fun s => s.count (-1) o

def record (h : Happening) : Run W Unit := modify fun s => { s with log := s.log ++ [h] }

def recordObj (h : Obj → Happening) : Option Obj → Run W Unit
  | none => pure ()
  | some o => record (h o)

def orFault {α : Type} (x : Except Fault α) : Run W α := Program.lift x

def storeEntry (slot : Slot) (e : PfxEntry) : Run W Unit := modify fun s => s.store e slot

def authenticate (sv : Servers W) (o : Obj) (access : UInt32) :
    Run W (Except NsError (Option Obj)) := do
  let s ← get
  let (r, world) := sv.authenticate s.world o access s.token
  set { s with world := world }
  match r with
  | .error e => pure (.error e)
  | .ok obj => do
    reference obj
    pure (.ok obj)

inductive Scan where
  | found (i : ℕ)
  | missing (newindex : Option ℕ)

def scanTable (table : List (Option PfxEntry)) (path : Path) : List ℕ → Option ℕ → Scan
  | [], newindex => .missing newindex
  | i :: is, newindex =>
    match (table[i]?).join with
    | none => scanTable table path is (some i)
    | some e =>
      if e.type = .invalid then scanTable table path is (some i)
      else if e.prefixPath = path then .found i
      else if newindex = none ∧ e.type = .cache then scanTable table path is (some i)
      else scanTable table path is newindex

def scanOrder (lastIndex : ℕ) : List ℕ :=
  (List.range pfxTableSize).map fun k => (lastIndex + 1 + k) % pfxTableSize

def nsGetPrefixEntry (path : Path) (okcreate : Bool) : Run W (Option Slot) := do
  let s ← get
  if path = [] then
    match s.nullPrefix with
    | some _ => pure (some .null)
    | none => do
      storeEntry .null (.blank [])
      pure (some .null)
  else
    match scanTable s.pfxTable path (scanOrder s.lastIndex) none with
    | .found i => pure (some (.index i))
    | .missing newindex =>
      match okcreate, newindex with
      | true, some i => do
        orFault (if path.length ≤ nsPathlen then .ok () else .error .outside)
        dereference ((s.entry (.index i)).bind PfxEntry.target)
        storeEntry (.index i) (.blank path)
        modify fun s => { s with lastIndex := i }
        pure (some (.index i))
      | _, _ => pure none

def flushed (e : PfxEntry) : PfxEntry :=
  { e with type := .invalid, target := none, targetType := nstInvalid }

def flushEntry (i : ℕ) : Run W Unit := do
  let s ← get
  match s.entry (.index i) with
  | none => pure ()
  | some e =>
    if e.type = .cache then do
      dereference e.target
      storeEntry (.index i) (flushed e)
    else pure ()

def flushFrom : List ℕ → Run W Unit
  | [] => pure ()
  | i :: is => do
    flushEntry i
    flushFrom is

def nsFlushCachePrefixes : Run W Unit := flushFrom (List.range pfxTableSize)

def nsSetToken (token : ℕ) : Run W Unit := do
  modify fun s => { s with identityVersion := s.identityVersion + 1, token := token }
  nsFlushCachePrefixes

def checkLength (path : Path) : Run W Unit :=
  orFault (if path.length < nsPathlen then .ok () else .error .outside)

def entryAt (slot : Slot) (path : Path) : Run W PfxEntry := do
  pure (((← get).entry slot).getD (.blank path))

def nsSetSystemPrefix (sv : Servers W) (pfxpath : List UInt8) (pfxobj : Obj) (objtype : ℕ)
    (canonpath : List UInt8) : Run W (Except NsError Unit) := do
  let path := cString pfxpath
  let canon := cString canonpath
  match ← nsGetPrefixEntry path true with
  | none => pure (.error .prefixOverflow)
  | some slot => do
    let e ← entryAt slot path
    dereference e.target
    checkLength canon
    let e := { e with type := .system, canonPath := canon, targetType := objtype }
    match ← authenticate sv pfxobj nsrLookup with
    | .error err => do
      storeEntry slot (flushed e)
      pure (.error err)
    | .ok obj => do
      let s ← get
      storeEntry slot { e with target := obj, idStamp := s.identityVersion }
      nsFlushCachePrefixes
      pure (.ok ())

def cachingNotes (e : PfxEntry) (pfxobj : Option Obj) : List Happening :=
  (if e.type = .invalid ∨ e.type = .cache then [] else [.demoted e.prefixPath]) ++
    if pfxobj = none then [.nullCached e.prefixPath] else []

def nsSetCachePrefix (pfxpath : List UInt8) (pfxobj : Option Obj) (objtype : ℕ)
    (canonpath : List UInt8) : Run W (Except NsError Unit) := do
  let path := cString pfxpath
  let canon := cString canonpath
  match ← nsGetPrefixEntry path true with
  | none => pure (.error .prefixOverflow)
  | some slot => do
    let e ← entryAt slot path
    modify fun s => { s with log := s.log ++ cachingNotes e pfxobj }
    dereference e.target
    checkLength canon
    reference pfxobj
    let s ← get
    storeEntry slot
      { e with
        type := .cache
        canonPath := canon
        target := pfxobj
        targetType := objtype
        idStamp := s.identityVersion }
    pure (.ok ())

def enterUserPrefix (pfxpath : List UInt8) (pfxobj : Option Obj) (pfxtype : ℕ) (canon : Path) :
    Run W (Except NsError Unit) := do
  let path := cString pfxpath
  match ← nsGetPrefixEntry path true with
  | none => do
    dereference pfxobj
    pure (.error .prefixOverflow)
  | some slot => do
    let e ← entryAt slot path
    dereference e.target
    let s ← get
    storeEntry slot
      { e with
        type := .user
        target := pfxobj
        targetType := pfxtype
        canonPath := canon
        idStamp := s.identityVersion }
    nsFlushCachePrefixes
    pure (.ok ())

section Reevaluation

variable (sv : Servers W) (nsSetUserPrefix : List UInt8 → List UInt8 → Run W (Except NsError Unit))

def nsInvalidatePrefix (path : Path) : Run W (Except NsError Unit) := do
  checkLength path
  match ← nsGetPrefixEntry path false with
  | none => pure (.ok ())
  | some slot => do
    let e ← entryAt slot path
    match e.type with
    | .system => pure (.ok ())
    | .invalid => pure (.ok ())
    | .cache => do
      dereference e.target
      storeEntry slot (flushed e)
      pure (.ok ())
    | .user => do
      record (.reevaluated path)
      dereference e.target
      storeEntry slot (flushed e)
      nsSetUserPrefix path e.canonPath

def authenticateTarget (o : Obj) : Run W (Except NsError (Option Obj)) := do
  match ← authenticate sv o nsrLookup with
  | .error .invalidAccess => authenticate sv o nsrReference
  | r => pure r

def renew (slot : Slot) (e : PfxEntry) (o : Obj) : Run W Unit := do
  record (.renewed e.prefixPath)
  match ← authenticateTarget sv o with
  | .ok obj => do
    dereference e.target
    let s ← get
    storeEntry slot { e with target := obj, idStamp := s.identityVersion }
  | .error err => do
    match ← (if e.type = .system then pure (.error err)
        else nsInvalidatePrefix nsSetUserPrefix e.prefixPath) with
    | .ok _ => pure ()
    | .error _ => do
      let e ← entryAt slot e.prefixPath
      dereference e.target
      storeEntry slot { e with type := .invalid, target := none }

def reauthenticate (slot : Slot) (e : PfxEntry) : Run W Unit := do
  let s ← get
  if e.type = .invalid ∨ e.idStamp = s.identityVersion then pure ()
  else
    match e.target with
    | none => orFault (.error .nullObject)
    | some o => renew sv nsSetUserPrefix slot e o

def matchesPath (path : Path) (e : PfxEntry) : Bool :=
  e.type ≠ .invalid && e.prefixPath.isPrefixOf path &&
    (let j := e.prefixPath.length
     path[j]? = some slash || path[j - 1]? = some slash || path[j]? = none)

def bestSlot (path : Path) : List (ℕ × Option PfxEntry) → Slot × ℕ → Slot × ℕ
  | [], best => best
  | (_, none) :: is, best => bestSlot path is best
  | (i, some e) :: is, best =>
    if best.2 ≤ e.prefixPath.length ∧ matchesPath path e then
      bestSlot path is (.index i, e.prefixPath.length)
    else bestSlot path is best

structure FoundPrefix where
  error : Option NsError
  obj : Option Obj
  type : ℕ
  len : ℕ
  canon : Path

def nsFindPrefix (path : Path) : Run W FoundPrefix := do
  let s ← get
  let best := bestSlot path ((List.range pfxTableSize).zip s.pfxTable) (.null, 0)
  match s.entry best.1 with
  | none => pure ⟨some .invalidPrefix, none, nstInvalid, 0, []⟩
  | some e => do
    reauthenticate sv nsSetUserPrefix best.1 e
    let e ← entryAt best.1 path
    reference e.target
    pure ⟨if e.target = none then some .invalidPrefix else none, e.target, e.targetType, best.2,
      e.canonPath⟩

end Reevaluation

end MachUS.Naming
