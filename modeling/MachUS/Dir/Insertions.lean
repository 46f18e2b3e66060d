import MachUS.Dir.DeadlockFreedom
import MachUS.Foundation.Text

namespace MachUS.Dir

open Program Function World Directory Option List

abbrev MgrId := UInt32 × UInt32

structure NsAttr where
  version : ℕ
  validFields : UInt32
  type : ℕ
  mgrId : MgrId

def nsAttrVersion : ℕ := 1

def nsAttrTypeId : UInt32 := 0x1 ||| 0x8

def nstDirectory : ℕ := 1

def nstSymlink : ℕ := 2

def nstMountpt : ℕ := 3

def nstTransparentSymlink : ℕ := 14

def usUnknownError : Ret := .other 0x08024001

def nsCannotInsert : Ret := .other 0x08024010

def nsUnknownEntryType : Ret := .other 0x0801800f

structure TargetObject where
  agency : Option ObjId
  attrs : Ret
  attr : NsAttr
  itemPtr : Ret
  again : Ret
  objId : ℕ

structure NewObject where
  obj : ObjId
  setup : Ret
  protection : Ret
  credObj : Ret
  agent : Ret
  objId : ℕ

def installOrCancel (d : DirId) (tag : Addr) (o : ObjId) (type objId : ℕ) (attrs : Ret) :
    M Ret := do
  let ret ← nsInstallEntry d tag o type objId attrs
  if ret ≠ .success then
    let _ ← nsCancelEntry d tag
    pure ret
  else pure ret

def insertReserved (d : DirId) (name : Name) (tag : Addr) (prepared : Ret) (obj : Option ObjId)
    (type objId : ℕ) (attrs : Ret) : M Ret := do
  let ret ← nsReserveEntry d name tag
  if ret ≠ .success then pure ret
  else if prepared ≠ .success then
    let _ ← nsCancelEntry d tag
    pure prepared
  else
    match obj with
    | none =>
      let _ ← nsCancelEntry d tag
      pure prepared
    | some o => installOrCancel d tag o type objId attrs

namespace TargetObject

def getAttributes (t : TargetObject) : M Ret :=
  match t.agency with
  | some o => nsGetAttributes o t.attrs
  | none => pure t.attrs

end TargetObject

def nsInsertEntry (mgrId : MgrId) (d : DirId) (name : Name) (t : TargetObject) (fresh : Addr) :
    M Ret := do
  let ret ← t.getAttributes
  if ret ≠ .success then pure ret
  else if t.attr.version ≠ nsAttrVersion ∨ t.attr.validFields &&& nsAttrTypeId ≠ nsAttrTypeId then
    pure usUnknownError
  else if t.attr.mgrId ≠ mgrId then pure nsCannotInsert
  else insertReserved d name fresh t.itemPtr t.agency t.attr.type t.objId t.again

namespace NewObject

variable (new : NewObject)

def createCommon (access : UInt32) : Ret :=
  if new.protection ≠ .success then new.protection
  else if access = 0 then .success
  else if new.credObj ≠ .success then new.credObj
  else new.agent

def setProtection : Ret := if new.setup ≠ .success then new.setup else new.protection

end NewObject

def nsCreate (d : DirId) (name : Name) (type : ℕ) (access : UInt32) (new : NewObject)
    (fresh : Addr) : M Ret :=
  if type ≠ nstDirectory then pure nsUnknownEntryType
  else insertReserved d name fresh (new.createCommon access) (some new.obj) type new.objId .success

-- "+Anon-%d+" with anon_name_seed.
def anonName (seed : UInt32) : Name :=
  [43, 65, 110, 111, 110, 45] ++ Text.formatInt seed.toInt32.toInt ++ [43]

def nsCreateAnon (d : DirId) (seed : UInt32) (type : ℕ) (access : UInt32) (new : NewObject)
    (fresh : Addr) : M Ret := do
  acquire (.dir d)
  release (.dir d)
  nsCreate d (anonName seed) type access new fresh

def nsCreateTransparentSymlink (d : DirId) (name : Name) (new : NewObject) (fresh : Addr) : M Ret :=
  insertReserved d name fresh new.setProtection (some new.obj) nstTransparentSymlink new.objId
    .success

def nsInsertForwardingEntry (d : DirId) (name : Name) (external : Bool) (new : NewObject)
    (fresh : Addr) : M Ret :=
  insertReserved d name fresh new.setProtection (some new.obj)
    (if external then nstMountpt else nstSymlink) new.objId .success

inductive InsertCall where
  | insertEntry (name : Name) (t : TargetObject)
  | create (name : Name) (type : ℕ) (access : UInt32) (new : NewObject)
  | createAnon (seed : UInt32) (type : ℕ) (access : UInt32) (new : NewObject)
  | createTransparentSymlink (name : Name) (new : NewObject)
  | insertForwardingEntry (name : Name) (external : Bool) (new : NewObject)

namespace InsertCall

def run (mgrId : MgrId) (d : DirId) (fresh : Addr) : InsertCall → M Ret
  | insertEntry name t => nsInsertEntry mgrId d name t fresh
  | create name type access new => nsCreate d name type access new fresh
  | createAnon seed type access new => nsCreateAnon d seed type access new fresh
  | createTransparentSymlink name new => nsCreateTransparentSymlink d name new fresh
  | insertForwardingEntry name external new => nsInsertForwardingEntry d name external new fresh

def name : InsertCall → Name
  | insertEntry name _ => name
  | create name _ _ _ => name
  | createAnon seed _ _ _ => anonName seed
  | createTransparentSymlink name _ => name
  | insertForwardingEntry name _ _ => name

def obj : InsertCall → Option ObjId
  | insertEntry _ t => t.agency
  | create _ _ _ new => some new.obj
  | createAnon _ _ _ new => some new.obj
  | createTransparentSymlink _ new => some new.obj
  | insertForwardingEntry _ _ new => some new.obj

end InsertCall

section Returns

variable {α β : Type} {w w' w'' : World} {m : M α}

theorem returns_bind_of {f : α → M β} {a : α} {b : β} (hm : Returns m w a w') :
    Returns (m >>= f) w b w'' ↔ Returns (f a) w' b w'' := by
  rw [returns_bind]
  constructor
  · rintro ⟨a', w₁, ha, hb⟩
    cases Except.ok.inj (hm.symm.trans ha)
    exact hb
  · exact fun hb => ⟨a, w', hm, hb⟩

theorem returns_unique {a b : α} (hm : Returns m w a w') (hm' : Returns m w b w'') :
    a = b ∧ w' = w'' :=
  Prod.mk.inj (Except.ok.inj (hm.symm.trans hm'))

theorem not_returns_of_dies {a : α} (h : Dies m w) : ¬Returns m w a w' := by
  rintro hm
  obtain ⟨l, hl⟩ := h
  cases hl.symm.trans hm

theorem returns_release {l : Lock} {h : List Lock} (hheld : w.held = l :: h) :
    Returns (release l) w () { w with held := h } := by
  rw [release, returns_modify, hheld, erase_cons_head]

theorem returns_visit {l : Lock} {a : α} (hl : l ∉ w.held) :
    Returns (do acquire l; release l; m) w a w' ↔ Returns m w a w' := by
  rw [returns_bind_of (returns_acquire hl), returns_bind_of (returns_release rfl)]

end Returns

def World.Readable (w : World) (d : DirId) : Prop :=
  ∀ i, ∀ a ∈ (w.dirs d).buckets i, ∃ e, w.entries a = some e

def World.Free (w : World) (d : DirId) (name : Name) : Prop :=
  name.length < nsNamelen ∧ name.length ≠ 0 ∧ w.found d name = none

def World.reservation (w : World) (name : Name) : Entry := ⟨name, nstReserved, 0, none, w.serials⟩

def World.reserved (w : World) (d : DirId) (name : Name) (fresh : Addr) : World :=
  { w with
    entries := update w.entries fresh (some (w.reservation name))
    serials := w.serials + 1
    dirs := update w.dirs d ((w.dirs d).link (nameHash name) fresh) }

section Reserve

variable {w : World} {d : DirId} {name : Name}

theorem returns_scanBucket {bucket : List Addr} (hread : ∀ a ∈ bucket, ∃ e, w.entries a = some e) :
    Returns (scanBucket name bucket) w ((w.foundIn name bucket).map Prod.fst) w := by
  induction bucket with
  | nil => exact returns_pure.mpr ⟨rfl, rfl⟩
  | cons a rest ih =>
    obtain ⟨e, he⟩ := hread a mem_cons_self
    rw [scanBucket, returns_bind_of (returns_readEntry he), foundIn, he]
    dsimp only
    split_ifs with hname
    · exact returns_pure.mpr ⟨rfl, rfl⟩
    · exact ih fun b hb => hread b (mem_cons_of_mem a hb)

theorem returns_scanForName (name : Name) (hread : w.Readable d) :
    Returns (scanForName d name) w ((w.found d name).map Prod.fst) w := by
  rw [scanForName, returns_bind_of (returns_get.mpr ⟨rfl, rfl⟩)]
  exact returns_scanBucket (hread _)

variable (hheld : w.held = []) (hread : w.Readable d)

include hheld hread

theorem returns_reserve {fresh : Addr} (hzero : fresh ≠ 0) (hfresh : w.entries fresh = none)
    (hfree : w.Free d name) :
    Returns (nsReserveEntry d name fresh) w .success (w.reserved d name fresh) := by
  obtain ⟨hshort, hne, hfound⟩ := hfree
  have hnew : ¬(fresh = 0 ∨ (w.entries fresh).isSome = true) := by
    rw [hfresh]
    simpa using hzero
  have hscan := returns_scanForName (w := { w with held := .dir d :: w.held }) name hread
  rw [found_locked, hfound] at hscan
  rw [nsReserveEntry, if_neg (Nat.not_le.mpr hshort), if_neg hne,
    returns_bind_of (returns_acquire (by simp [hheld])), returns_bind_of hscan]
  dsimp only [map_none]
  have hentry : Returns (newEntry fresh name) { w with held := .dir d :: w.held } ()
      { w with
        held := .dir d :: w.held
        entries := update w.entries fresh (some (w.reservation name))
        serials := w.serials + 1 } := by
    rw [newEntry, returns_bind_of (returns_get.mpr ⟨rfl, rfl⟩), if_neg hnew]
    exact returns_modify.mpr rfl
  rw [returns_bind_of hentry, modifyDir,
    returns_bind_of (a := ⟨⟩) (returns_modify.mpr rfl),
    returns_bind_of (returns_release rfl)]
  exact returns_pure.mpr ⟨rfl, rfl⟩

theorem returns_reserve_refused (fresh : Addr) (hfree : ¬w.Free d name) :
    ∃ ret, ret ≠ .success ∧ Returns (nsReserveEntry d name fresh) w ret w := by
  rw [nsReserveEntry]
  split_ifs with hlong hnil
  · exact ⟨.nameTooLong, by decide, returns_pure.mpr ⟨rfl, rfl⟩⟩
  · exact ⟨.invalidName, by decide, returns_pure.mpr ⟨rfl, rfl⟩⟩
  · refine ⟨.entryExists, by decide, ?_⟩
    have hscan := returns_scanForName (w := { w with held := .dir d :: w.held }) name hread
    obtain ⟨x, hx⟩ := ne_none_iff_exists'.mp fun hnone =>
      hfree ⟨Nat.not_le.mp hlong, hnil, hnone⟩
    rw [found_locked, hx] at hscan
    rw [returns_bind_of (returns_acquire (by simp [hheld])), returns_bind_of hscan]
    dsimp only [map_some]
    rw [returns_bind_of (returns_release rfl)]
    exact returns_pure.mpr ⟨rfl, rfl⟩

end Reserve

def World.cancelled (w : World) (d : DirId) (name : Name) (tag : Addr) (serial : ℕ) : World :=
  { w with
    dirs := update w.dirs d ((w.dirs d).unlink (nameHash name) tag)
    entries := update w.entries tag none
    freed := serial :: w.freed }

variable {w : World}

theorem returns_freeEntry {a : Addr} {e : Entry} (he : w.entries a = some e) :
    Returns (freeEntry a) w () { w with entries := update w.entries a none, freed := e.serial :: w.freed } := by
  rw [freeEntry, returns_bind_of (returns_readEntry he)]
  exact returns_modify.mpr rfl

theorem returns_writeEntry {a : Addr} {e : Entry} (he : w.entries a = some e) (f : Entry → Entry) :
    Returns (writeEntry a f) w () { w with entries := update w.entries a (some (f e)) } := by
  rw [writeEntry, returns_bind_of (returns_readEntry he)]
  exact returns_modify.mpr rfl

variable {d : DirId}

theorem returns_cancel {tag : Addr} {e : Entry} (hheld : w.held = [])
    (hzero : tag ≠ 0) (he : w.entries tag = some e) (htype : e.type = nstReserved)
    (hlinked : tag ∈ (w.dirs d).buckets (nameHash e.name)) :
    Returns (nsCancelEntry d tag) w .success (w.cancelled d e.name tag e.serial) := by
  have htake : Returns (takeOut d tag) { w with held := .dir d :: w.held } ()
      { w with
        held := .dir d :: w.held
        dirs := update w.dirs d ((w.dirs d).unlink (nameHash e.name) tag) } := by
    have hentry : ({ w with held := .dir d :: w.held } : World).entries tag = some e := he
    rw [takeOut, returns_bind_of (returns_readEntry hentry),
      returns_bind_of (returns_get.mpr ⟨rfl, rfl⟩), if_pos hlinked]
    exact returns_modify.mpr rfl
  have hentry : ({ w with held := .dir d :: w.held } : World).entries tag = some e := he
  rw [nsCancelEntry, returns_bind_of (returns_acquire (by simp [hheld])), if_neg hzero,
    returns_bind_of (returns_readEntry hentry), if_neg (not_not.mpr htype), returns_bind_of htake,
    returns_bind_of (returns_release rfl)]
  exact returns_bind.mpr ⟨(), _, returns_freeEntry he, returns_pure.mpr ⟨rfl, rfl⟩⟩

def World.registration (w : World) (o : ObjId) (parent : Link) : Ret × World :=
  match w.kind o with
  | .foreign => (.other 0, w)
  | .agency => (.success, { w with links := update w.links o (w.links o + 1) })
  | .directory d =>
    (.success, { w with
      dirs := update w.dirs d
        { w.dirs d with linkCount := (w.dirs d).linkCount + 1 } })
  | .temporary => (((w.tmp o).nsRegisterTmplink parent).1, w.register o parent)
  | .temporaryDirectory _ => (((w.tmp o).nsRegisterTmplink parent).1, w.register o parent)

section Register

variable {w : World} {d : DirId} {o : ObjId}

theorem returns_registration (parent : Link) (hheld : w.held = [.dir d])
    (hself : w.kind o ≠ .directory d) :
    Returns (nsRegisterTmplink o parent) w (w.registration o parent).1
      (w.registration o parent).2 := by
  have htmp : Lock.tmp o ∉ w.held := by simp [hheld]
  rw [nsRegisterTmplink, returns_bind_of (returns_get.mpr ⟨rfl, rfl⟩), registration]
  cases hkind : w.kind o with
  | foreign => exact returns_pure.mpr ⟨rfl, rfl⟩
  | agency =>
    rw [volLink, returns_bind_of (returns_acquire (by simp [hheld])),
      returns_bind_of (a := ⟨⟩) (returns_modify.mpr rfl), returns_bind_of (returns_release rfl)]
    exact returns_pure.mpr ⟨rfl, rfl⟩
  | directory d' =>
    have hdir : Lock.dir d' ∉ w.held := by
      rw [hheld, mem_singleton]
      rintro hl
      exact hself (hkind.trans (congrArg Kind.directory (Lock.dir.inj hl)))
    dsimp only
    rw [dirLink, returns_bind_of (returns_acquire hdir), modifyDir,
      returns_bind_of (a := ⟨⟩) (returns_modify.mpr rfl), returns_bind_of (returns_release rfl)]
    exact returns_pure.mpr ⟨rfl, rfl⟩
  | temporary => exact returns_tmpRegisterTmplink parent htmp
  | temporaryDirectory d' => exact returns_tmpRegisterTmplink parent htmp

theorem registration_failed {parent : Link} (h : (w.registration o parent).1 ≠ .success) :
    (w.registration o parent).2 = w := by
  have htmp (hne : ((w.tmp o).nsRegisterTmplink parent).1 ≠ .success) :
      w.register o parent = w := by
    have hsame : ((w.tmp o).nsRegisterTmplink parent).2 = w.tmp o := by
      rw [TmpProp.nsRegisterTmplink] at hne ⊢
      split_ifs at hne ⊢
      · rfl
      · rfl
      · exact absurd rfl hne
    rw [register, if_neg hne, hsame, update_eq_self]
  revert h
  rw [registration]
  cases w.kind o with
  | foreign => exact fun _ => rfl
  | agency => exact fun h => absurd rfl h
  | directory d' => exact fun h => absurd rfl h
  | temporary => exact htmp
  | temporaryDirectory d' => exact htmp

theorem registration_entries (parent : Link) :
    (w.registration o parent).2.entries = w.entries ∧
      (w.registration o parent).2.held = w.held ∧ (w.registration o parent).2.kind = w.kind := by
  rw [registration]
  cases w.kind o <;> exact ⟨rfl, rfl, rfl⟩

theorem registration_dirs (parent : Link) (hself : w.kind o ≠ .directory d) :
    (w.registration o parent).2.dirs d = w.dirs d := by
  rw [registration]
  cases hkind : w.kind o with
  | directory d' =>
    refine update_of_ne ?_ _ _
    rintro rfl
    exact hself hkind
  | _ => rfl

end Register

structure World.Unchanged (w w' : World) : Prop where
  dirs : w'.dirs = w.dirs
  entries : w'.entries = w.entries
  tmp : w'.tmp = w.tmp
  links : w'.links = w.links

theorem registration_changes {o : ObjId} {parent : Link}
    (h : (w.registration o parent).1 = .success) : ¬w.Unchanged (w.registration o parent).2 := by
  intro hsame
  have htmp (hsuccess : ((w.tmp o).nsRegisterTmplink parent).1 = .success)
      (hsame : (w.register o parent).tmp = w.tmp) : False := by
    have hparent := congrArg (fun f => (f o).parent) hsame
    simp only [register, update_self] at hparent
    rw [(tmplink_success_iff.mp hsuccess).2] at hparent
    rw [TmpProp.nsRegisterTmplink] at hparent hsuccess
    split_ifs at hparent hsuccess
  revert h hsame
  rw [registration]
  cases w.kind o with
  | foreign =>
    intro h _
    cases h
  | agency =>
    intro _ hsame
    have hlinks := congrFun hsame.links o
    dsimp only at hlinks
    rw [update_self] at hlinks
    omega
  | directory d' =>
    intro _ hsame
    have hlinks := congrArg linkCount (congrFun hsame.dirs d')
    dsimp only at hlinks
    rw [update_self] at hlinks
    exact absurd hlinks (by simp)
  | temporary => exact fun h hsame => htmp h hsame.tmp
  | temporaryDirectory d' => exact fun h hsame => htmp h hsame.tmp

section Attributes

theorem returns_getAttributes {o : ObjId} (attrs : Ret)
    (hdir : ∀ d, w.kind o = .directory d ∨ w.kind o = .temporaryDirectory d → .dir d ∉ w.held)
    (hvol : .vol o ∉ w.held) (htmp : .tmp o ∉ w.held) :
    Returns (nsGetAttributes o attrs) w attrs w := by
  rw [nsGetAttributes, returns_bind_of (returns_get.mpr ⟨rfl, rfl⟩), returns_visit hvol]
  cases hkind : w.kind o with
  | foreign => exact returns_pure.mpr ⟨rfl, rfl⟩
  | agency => exact returns_pure.mpr ⟨rfl, rfl⟩
  | directory d => exact (returns_visit (hdir d (Or.inl hkind))).mpr (returns_pure.mpr ⟨rfl, rfl⟩)
  | temporary => exact (returns_visit htmp).mpr (returns_pure.mpr ⟨rfl, rfl⟩)
  | temporaryDirectory d =>
    refine (returns_visit (hdir d (Or.inr hkind))).mpr ?_
    exact (returns_visit htmp).mpr (returns_pure.mpr ⟨rfl, rfl⟩)

end Attributes

section Install

variable {w : World} {d : DirId} {tag : Addr} {e : Entry} {o : ObjId} {type objId : ℕ} {attrs : Ret}
  (hheld : w.held = []) (hzero : tag ≠ 0) (he : w.entries tag = some e)
  (htype : e.type = nstReserved)

def World.linking (w : World) (d : DirId) (tag : Addr) (e : Entry) (o : ObjId) : Ret × World :=
  w.registration o ⟨d, tag, e.serial⟩

include hheld hzero he htype

theorem returns_install_locked {ret : Ret} {w' : World} :
    Returns (nsInstallEntry d tag o type objId attrs) w ret w' ↔
      Returns (do
        let ret ← nsRegisterTmplink o ⟨d, tag, e.serial⟩
        if ret ≠ .success then
          release (.dir d)
          pure ret
        else
          let ret ← nsGetAttributes o attrs
          if ret ≠ .success then
            release (.dir d)
            pure ret
          else
            writeEntry tag fun e => { e with type := type, objId := objId, obj := some o }
            release (.dir d)
            pure .success) { w with held := [.dir d] } ret w' := by
  have hlock : ({ w with held := .dir d :: w.held } : World) = { w with held := [.dir d] } := by
    rw [hheld]
  have hentry : ({ w with held := [.dir d] } : World).entries tag = some e := he
  rw [nsInstallEntry, returns_bind_of (returns_acquire (by simp [hheld])), hlock, if_neg hzero,
    returns_bind_of (returns_readEntry hentry), if_neg (not_not.mpr htype)]

omit hheld hzero he htype in
theorem linking_locked (tag : Addr) (l : List Lock) :
    linking { w with held := l } d tag e o =
      ((w.linking d tag e o).1, { (w.linking d tag e o).2 with held := l }) := by
  rw [linking, linking, registration, registration]
  cases w.kind o <;> rfl

omit hzero he htype in
theorem linking_held :
    ({ (w.linking d tag e o).2 with held := [] } : World) = (w.linking d tag e o).2 := by
  rw [← hheld, ← (registration_entries (w := w) (o := o) ⟨d, tag, e.serial⟩).2.1]
  rfl

omit hzero he htype hheld in
theorem returns_linking (hself : w.kind o ≠ .directory d) :
    Returns (nsRegisterTmplink o ⟨d, tag, e.serial⟩) { w with held := [.dir d] }
      (w.linking d tag e o).1 { (w.linking d tag e o).2 with held := [.dir d] } := by
  have h := returns_registration (w := { w with held := [.dir d] }) (o := o) ⟨d, tag, e.serial⟩ rfl
    hself
  have hlocked := linking_locked (w := w) (d := d) (e := e) (o := o) tag [.dir d]
  rw [linking] at hlocked
  rwa [hlocked] at h

theorem not_returns_install (hself : ¬PutElsewhere w d o) {ret : Ret} {w' : World} :
    ¬Returns (nsInstallEntry d tag o type objId attrs) w ret w' :=
  not_returns_of_dies (dies_install type objId attrs ⟨hheld, rfl⟩
    ⟨hzero, ⟨e, he, htype⟩, not_not.mp hself⟩)

theorem returns_install_refused (type objId : ℕ) (attrs : Ret) (hself : w.kind o ≠ .directory d)
    (hfailed : (w.linking d tag e o).1 ≠ .success) :
    Returns (nsInstallEntry d tag o type objId attrs) w (w.linking d tag e o).1 w := by
  rw [returns_install_locked hheld hzero he htype, returns_bind_of (returns_linking hself),
    if_pos hfailed, returns_bind_of (returns_release rfl), returns_pure]
  refine ⟨rfl, ?_⟩
  exact (linking_held hheld).trans (registration_failed hfailed)

section Linked

variable (helse : PutElsewhere w d o) (hlinked : (w.linking d tag e o).1 = .success)

include helse hlinked

theorem returns_install_attributes {ret : Ret} {w' : World} :
    Returns (nsInstallEntry d tag o type objId attrs) w ret w' ↔
      Returns (if attrs ≠ .success then do
          release (.dir d)
          pure attrs
        else do
          writeEntry tag fun e => { e with type := type, objId := objId, obj := some o }
          release (.dir d)
          pure .success) { (w.linking d tag e o).2 with held := [.dir d] } ret w' := by
  have hself : w.kind o ≠ .directory d := fun hkind => helse (Or.inl hkind)
  have hkind : (w.linking d tag e o).2.kind = w.kind :=
    (registration_entries (w := w) (o := o) ⟨d, tag, e.serial⟩).2.2
  have hattributes : Returns (nsGetAttributes o attrs)
      { (w.linking d tag e o).2 with held := [.dir d] } attrs
      { (w.linking d tag e o).2 with held := [.dir d] } := by
    refine returns_getAttributes attrs (fun d' hd' hmem => ?_) (by simp) (by simp)
    obtain rfl : d' = d := by simpa using hmem
    have hd'' : w.kind o = .directory d' ∨ w.kind o = .temporaryDirectory d' := by
      rw [← hkind]
      exact hd'
    rcases hd'' with hd'' | hd''
    · exact hself hd''
    · refine helse (Or.inr ⟨hd'', ?_⟩)
      rw [linking, registration, hd''] at hlinked
      exact tmplink_success_iff.mp hlinked
  rw [returns_install_locked hheld hzero he htype, returns_bind_of (returns_linking hself),
    if_neg (not_not.mpr hlinked), returns_bind_of hattributes]

theorem returns_install_unlisted (type objId : ℕ) (hattrs : attrs ≠ .success) :
    Returns (nsInstallEntry d tag o type objId attrs) w attrs (w.linking d tag e o).2 := by
  rw [returns_install_attributes hheld hzero he htype helse hlinked, if_pos hattrs,
    returns_bind_of (returns_release rfl), returns_pure]
  exact ⟨rfl, linking_held hheld⟩

theorem returns_installed (type objId : ℕ) :
    Returns (nsInstallEntry d tag o type objId .success) w .success
      { (w.linking d tag e o).2 with
        entries := update w.entries tag
          (some { e with type := type, objId := objId, obj := some o }) } := by
  have hentries : (w.linking d tag e o).2.entries = w.entries :=
    (registration_entries (w := w) (o := o) ⟨d, tag, e.serial⟩).1
  have hentry : ({ (w.linking d tag e o).2 with held := [.dir d] } : World).entries tag = some e :=
    (congrFun hentries tag).trans he
  rw [returns_install_attributes hheld hzero he htype helse hlinked, if_neg (not_not.mpr rfl),
    returns_bind_of (returns_writeEntry hentry _), returns_bind_of (returns_release rfl),
    returns_pure]
  refine ⟨rfl, ?_⟩
  rw [← hentries]
  conv_rhs => rw [← linking_held hheld]

end Linked

end Install

def World.Bound (w : World) (d : DirId) (name : Name) (o : ObjId) : Prop :=
  ∃ a e, a ∈ (w.dirs d).buckets (nameHash name) ∧ w.entries a = some e ∧ e.name = name ∧
    e.obj = some o ∧ e.type ≠ nstReserved

def AllOrNothing (m : M Ret) (w : World) (d : DirId) (name : Name) (obj : Option ObjId) : Prop :=
  ∀ ret w', Returns m w ret w' →
    (ret = .success → ∃ o, obj = some o ∧ w'.Bound d name o) ∧ (ret ≠ .success → w.Unchanged w')

theorem allOrNothing_of_returns {m : M Ret} {w w' : World} {name : Name}
    {obj : Option ObjId} {ret : Ret} (hrun : Returns m w ret w') :
    AllOrNothing m w d name obj ↔ (ret = .success → ∃ o, obj = some o ∧ w'.Bound d name o) ∧
        (ret ≠ .success → w.Unchanged w') := by
  refine ⟨fun h => h ret w' hrun, fun h ret' w'' hrun' => ?_⟩
  obtain ⟨rfl, rfl⟩ := returns_unique hrun hrun'
  exact h

theorem World.Unchanged.refl (w : World) : w.Unchanged w := ⟨rfl, rfl, rfl, rfl⟩

theorem allOrNothing_refused {m : M Ret} {name : Name}
    {obj : Option ObjId} {ret : Ret} (hrun : Returns m w ret w) (hret : ret ≠ .success) :
    AllOrNothing m w d name obj :=
  (allOrNothing_of_returns hrun).mpr ⟨fun h => absurd h hret, fun _ => Unchanged.refl w⟩

def World.Takes (w : World) (d : DirId) (o : ObjId) : Prop :=
  match w.kind o with
  | .foreign => False
  | .agency => True
  | .directory d' => d' ≠ d
  | .temporary => (w.tmp o).active = true ∧ (w.tmp o).parent = none
  | .temporaryDirectory d' => d' ≠ d ∧ (w.tmp o).active = true ∧ (w.tmp o).parent = none

theorem takes_iff {o : ObjId} (tag : Addr) (e : Entry) :
    w.Takes d o ↔ PutElsewhere w d o ∧ (w.linking d tag e o).1 = .success := by
  rw [Takes, PutElsewhere, linking, registration]
  cases w.kind o with
  | foreign => simp
  | agency => simp
  | directory d' => simp
  | temporary => simp [tmplink_success_iff]
  | temporaryDirectory d' =>
    simp only [Kind.temporaryDirectory.injEq, reduceCtorEq, false_or, tmplink_success_iff]
    tauto

theorem Directory.link_unlink (dir : Directory) (i : ℕ) (a : Addr) :
    (dir.link i a).unlink i a = dir := by
  simp [link, unlink]

section Reserved

variable {w w₁ : World} {d : DirId} {name : Name} {tag : Addr}

structure FromReserved (w : World) (d : DirId) (name : Name) (tag : Addr) (w₁ : World) : Prop where
  held : w₁.held = []
  entries : w₁.entries = (w.reserved d name tag).entries
  dir : w₁.dirs d = (w.reserved d name tag).dirs d

theorem reserved_held (hheld : w.held = []) (d : DirId) (name : Name) (tag : Addr) :
    (w.reserved d name tag).held = [] := hheld

theorem reserved_entry (w : World) (d : DirId) (name : Name) (tag : Addr) :
    (w.reserved d name tag).entries tag = some (w.reservation name) :=
  update_self _ _ _

theorem reserved_dir (w : World) (d : DirId) (name : Name) (tag : Addr) :
    (w.reserved d name tag).dirs d = (w.dirs d).link (nameHash name) tag :=
  update_self _ _ _

theorem reserved_linked (w : World) (d : DirId) (name : Name) (tag : Addr) :
    tag ∈ ((w.reserved d name tag).dirs d).buckets (nameHash name) := by
  rw [reserved_dir, link]
  dsimp only
  rw [update_self]
  exact mem_cons_self

theorem FromReserved.cancel (h : FromReserved w d name tag w₁) (hzero : tag ≠ 0)
    (hfresh : w.entries tag = none) :
    ∃ w₂, Returns (nsCancelEntry d tag) w₁ .success w₂ ∧ w₂.entries = w.entries ∧
      w₂.dirs = update w₁.dirs d (w.dirs d) ∧ w₂.tmp = w₁.tmp ∧ w₂.links = w₁.links := by
  have hentry : w₁.entries tag = some (w.reservation name) := by
    rw [h.entries, reserved_entry]
  have hlinked : tag ∈ (w₁.dirs d).buckets (nameHash name) := by
    rw [h.dir]
    exact reserved_linked w d name tag
  refine ⟨_, returns_cancel h.held hzero hentry rfl hlinked, ?_, ?_, rfl, rfl⟩
  · simp only [cancelled, h.entries, reserved, update_idem]
    rw [← hfresh, update_eq_self]
  · rw [cancelled, h.dir, reserved_dir]
    exact congrArg (update w₁.dirs d) (link_unlink _ _ _)

theorem FromReserved.refl (hheld : w.held = []) :
    FromReserved w d name tag (w.reserved d name tag) := ⟨hheld, rfl, rfl⟩

theorem FromReserved.unchanged (h : FromReserved w d name tag w₁) {w₂ : World}
    (hentries : w₂.entries = w.entries) (hdirs : w₂.dirs = update w₁.dirs d (w.dirs d))
    (htmp : w₂.tmp = w₁.tmp) (hlinks : w₂.links = w₁.links) :
    w.Unchanged w₂ ↔ (w.reserved d name tag).Unchanged w₁ := by
  constructor
  · intro hsame
    refine ⟨?_, h.entries, htmp.symm.trans hsame.tmp, hlinks.symm.trans hsame.links⟩
    funext d'
    by_cases hd : d' = d
    · rw [hd, h.dir]
    · have hdir := congrFun (hdirs.symm.trans hsame.dirs) d'
      rw [update_of_ne hd] at hdir
      rw [hdir]
      exact (update_of_ne hd _ _).symm
  · intro hsame
    refine ⟨?_, hentries, htmp.trans hsame.tmp, hlinks.trans hsame.links⟩
    rw [hdirs, hsame.dirs]
    simp only [reserved, update_idem, update_eq_self]

end Reserved

theorem not_bound_of_found {name : Name} {bucket : List Addr}
    (hread : ∀ a ∈ bucket, ∃ e, w.entries a = some e) (hfound : w.foundIn name bucket = none) :
    ∀ a ∈ bucket, ∀ e, w.entries a = some e → e.name ≠ name := by
  induction bucket with
  | nil => simp
  | cons b rest ih =>
    obtain ⟨e', hb⟩ := hread b mem_cons_self
    rw [foundIn, hb] at hfound
    dsimp only at hfound
    split_ifs at hfound with hname
    intro a ha e he
    rcases mem_cons.mp ha with rfl | ha
    · cases hb.symm.trans he
      exact hname
    · exact ih (fun c hc => hread c (mem_cons_of_mem b hc)) hfound a ha e he

def World.Spoils (w : World) (d : DirId) (name : Name) (prepared : Ret) (obj : Option ObjId)
    (type : ℕ) (attrs : Ret) : Prop :=
  w.Free d name ∧ prepared = .success ∧
    ∀ o, obj = some o → w.Takes d o ∧ (attrs ≠ .success ∨ type = nstReserved)

section Core

variable {w : World} {d : DirId} {name : Name} {tag : Addr} {prepared : Ret} {obj : Option ObjId}
  {o : ObjId} {type objId : ℕ} {attrs : Ret} (hheld : w.held = []) (hread : w.Readable d)
  (hzero : tag ≠ 0) (hfresh : w.entries tag = none)

include hheld hzero hfresh

theorem cancelled_unchanged (d : DirId) (name : Name) :
    ∃ w₂, Returns (nsCancelEntry d tag) (w.reserved d name tag) .success w₂ ∧ w.Unchanged w₂ := by
  have hfrom : FromReserved w d name tag (w.reserved d name tag) := .refl hheld
  obtain ⟨w₂, hcancel, hentries, hdirs, htmp, hlinks⟩ := hfrom.cancel hzero hfresh
  exact ⟨w₂, hcancel, (hfrom.unchanged hentries hdirs htmp hlinks).mpr (.refl _)⟩

omit hfresh in
theorem installOrCancel_stuck (hself : ¬PutElsewhere w d o) {ret : Ret} {w' : World} :
    ¬Returns (installOrCancel d tag o type objId attrs) (w.reserved d name tag) ret w' := by
  intro hrun
  obtain ⟨ret', w₁, hinstall, -⟩ := returns_bind.mp hrun
  exact not_returns_install (w := w.reserved d name tag) hheld hzero (reserved_entry w d name tag)
    rfl hself hinstall

theorem installOrCancel_refused (name : Name) (type objId : ℕ) (attrs : Ret)
    (helse : PutElsewhere w d o) (htakes : ¬w.Takes d o) :
    ∃ ret w', Returns (installOrCancel d tag o type objId attrs) (w.reserved d name tag) ret w' ∧
      ret ≠ .success ∧ w.Unchanged w' := by
  have hentry := reserved_entry w d name tag
  have hfailed : ((w.reserved d name tag).linking d tag (w.reservation name) o).1 ≠ .success := by
    intro hok
    refine htakes ?_
    exact (takes_iff (w := w.reserved d name tag) tag (w.reservation name)).mpr ⟨helse, hok⟩
  have hinstall := returns_install_refused (reserved_held hheld d name tag) hzero hentry rfl type
    objId attrs (fun hkind => helse (Or.inl hkind)) hfailed
  obtain ⟨w₂, hcancel, hsame⟩ := cancelled_unchanged hheld hzero hfresh d name
  refine ⟨_, w₂, ?_, hfailed, hsame⟩
  rw [installOrCancel, returns_bind_of hinstall, if_pos hfailed, returns_bind_of hcancel]
  exact returns_pure.mpr ⟨rfl, rfl⟩

section Taken

variable (htakes : w.Takes d o)

include htakes

omit hzero hfresh in
theorem fromReserved_linking (name : Name) (tag : Addr) (e : Entry) :
    FromReserved w d name tag ((w.reserved d name tag).linking d tag e o).2 := by
  have helse := ((takes_iff (w := w.reserved d name tag) tag e).mp htakes).1
  obtain ⟨hentries, hheld', -⟩ := registration_entries (w := w.reserved d name tag) (o := o)
    ⟨d, tag, e.serial⟩
  exact ⟨hheld'.trans hheld, hentries, registration_dirs _ fun hkind => helse (Or.inl hkind)⟩

theorem installOrCancel_unlisted (name : Name) (type objId : ℕ) (hattrs : attrs ≠ .success) :
    ∃ w', Returns (installOrCancel d tag o type objId attrs) (w.reserved d name tag) attrs w' ∧
      ¬w.Unchanged w' := by
  have hentry := reserved_entry w d name tag
  obtain ⟨helse, hok⟩ := (takes_iff (w := w.reserved d name tag) tag (w.reservation name)).mp htakes
  have hinstall := returns_install_unlisted (reserved_held hheld d name tag) hzero hentry rfl helse
    hok type objId hattrs
  have hfrom := fromReserved_linking hheld htakes name tag (w.reservation name)
  obtain ⟨w₂, hcancel, hentries, hdirs, htmp, hlinks⟩ := hfrom.cancel hzero hfresh
  refine ⟨w₂, ?_, fun hsame => ?_⟩
  · rw [installOrCancel, returns_bind_of hinstall, if_pos hattrs, returns_bind_of hcancel]
    exact returns_pure.mpr ⟨rfl, rfl⟩
  · exact registration_changes hok ((hfrom.unchanged hentries hdirs htmp hlinks).mp hsame)

theorem installOrCancel_installed (type objId : ℕ) (hread : w.Readable d)
    (hfound : w.found d name = none) :
    ∃ w',
      Returns (installOrCancel d tag o type objId .success) (w.reserved d name tag) .success w' ∧
      (w'.Bound d name o ↔ type ≠ nstReserved) := by
  have hentry := reserved_entry w d name tag
  obtain ⟨helse, hok⟩ := (takes_iff (w := w.reserved d name tag) tag (w.reservation name)).mp htakes
  have hfrom := fromReserved_linking hheld htakes name tag (w.reservation name)
  have hinstall := returns_installed (reserved_held hheld d name tag) hzero hentry rfl helse hok
    type objId
  refine ⟨_, (returns_bind_of hinstall).mpr (returns_pure.mpr ⟨rfl, rfl⟩), ?_⟩
  · have hlinked : tag ∈ ((w.reserved d name tag).dirs d).buckets (nameHash name) :=
      reserved_linked w d name tag
    constructor
    · rintro ⟨a, e, ha, he, hname, -, htype⟩ rfl
      dsimp only at ha he
      rw [hfrom.dir, reserved_dir, link] at ha
      dsimp only at ha
      rw [update_self] at ha
      by_cases hat : a = tag
      · subst hat
        rw [update_self] at he
        cases he
        exact htype rfl
      · rw [update_of_ne hat, reserved] at he
        dsimp only at he
        rw [update_of_ne hat] at he
        exact not_bound_of_found (hread _) hfound a (mem_of_ne_of_mem hat ha) e he hname
    · intro htype
      refine ⟨tag, _, ?_, update_self _ _ _, rfl, rfl, htype⟩
      rw [hfrom.dir]
      exact hlinked

end Taken

theorem insertReserved_unprepared (obj : Option ObjId) (type objId : ℕ) (attrs : Ret)
    (hread : w.Readable d) (hfree : w.Free d name)
    (hprepared : prepared ≠ .success) :
    ∃ w', Returns (insertReserved d name tag prepared obj type objId attrs) w prepared w' ∧
      w.Unchanged w' := by
  have hreserve := returns_reserve hheld hread hzero hfresh hfree
  obtain ⟨w₂, hcancel, hsame⟩ := cancelled_unchanged hheld hzero hfresh d name
  refine ⟨w₂, ?_, hsame⟩
  unfold insertReserved
  rw [returns_bind_of hreserve, if_neg (not_not.mpr rfl), if_pos hprepared, returns_bind_of hcancel]
  exact returns_pure.mpr ⟨rfl, rfl⟩

theorem insertReserved_none (type objId : ℕ) (attrs : Ret) (hread : w.Readable d)
    (hfree : w.Free d name) :
    ∃ w', Returns (insertReserved d name tag .success none type objId attrs) w .success w' := by
  have hreserve := returns_reserve hheld hread hzero hfresh hfree
  obtain ⟨w₂, hcancel, -⟩ := cancelled_unchanged hheld hzero hfresh d name
  refine ⟨w₂, ?_⟩
  unfold insertReserved
  rw [returns_bind_of hreserve, if_neg (not_not.mpr rfl), if_neg (not_not.mpr rfl),
    returns_bind_of hcancel]
  exact returns_pure.mpr ⟨rfl, rfl⟩

theorem insertReserved_some (hread : w.Readable d) (hfree : w.Free d name) {ret : Ret}
    {w' : World} :
    Returns (insertReserved d name tag .success (some o) type objId attrs) w ret w' ↔
      Returns (installOrCancel d tag o type objId attrs) (w.reserved d name tag) ret w' := by
  have hreserve := returns_reserve hheld hread hzero hfresh hfree
  unfold insertReserved
  rw [returns_bind_of hreserve, if_neg (not_not.mpr rfl), if_neg (not_not.mpr rfl)]

theorem insertReserved_iff (hread : w.Readable d) (name : Name) (prepared : Ret)
    (obj : Option ObjId) (type objId : ℕ) (attrs : Ret) :
    AllOrNothing (insertReserved d name tag prepared obj type objId attrs) w d name obj ↔
      ¬w.Spoils d name prepared obj type attrs := by
  by_cases hfree : w.Free d name
  swap
  · obtain ⟨ret, hret, hrun⟩ := returns_reserve_refused hheld hread tag hfree
    refine iff_of_true (allOrNothing_refused ?_ hret) fun hspoils => hfree hspoils.1
    unfold insertReserved
    rw [returns_bind_of hrun, if_pos hret]
    exact returns_pure.mpr ⟨rfl, rfl⟩
  by_cases hprepared : prepared = .success
  swap
  · obtain ⟨w', hrun, hsame⟩ := insertReserved_unprepared hheld hzero hfresh obj type objId attrs
      hread hfree hprepared
    refine iff_of_true ?_ fun hspoils => hprepared hspoils.2.1
    exact (allOrNothing_of_returns hrun).mpr ⟨fun h => absurd h hprepared, fun _ => hsame⟩
  subst hprepared
  cases obj with
  | none =>
    obtain ⟨w', hrun⟩ := insertReserved_none hheld hzero hfresh type objId attrs hread hfree
    refine iff_of_false (fun hall => ?_) (not_not.mpr ⟨hfree, rfl, fun o ho => by cases ho⟩)
    obtain ⟨o, ho, -⟩ := (hall _ _ hrun).1 rfl
    cases ho
  | some o =>
    have hsome := @insertReserved_some _ _ _ _ o type objId attrs hheld hzero hfresh hread hfree
    by_cases htakes : w.Takes d o
    swap
    · refine iff_of_true ?_ fun hspoils => htakes (hspoils.2.2 o rfl).1
      by_cases helse : PutElsewhere w d o
      · obtain ⟨ret, w', hrun, hret, hsame⟩ := installOrCancel_refused hheld hzero hfresh name type
          objId attrs helse htakes
        exact (allOrNothing_of_returns (hsome.mpr hrun)).mpr
          ⟨fun h => absurd h hret, fun _ => hsame⟩
      · exact fun ret w' hrun => absurd (hsome.mp hrun) (installOrCancel_stuck hheld hzero helse)
    by_cases hattrs : attrs = .success
    · subst hattrs
      obtain ⟨w', hrun, hbound⟩ := installOrCancel_installed hheld hzero hfresh htakes type objId
        hread hfree.2.2
      rw [allOrNothing_of_returns (hsome.mpr hrun)]
      simp only [Spoils, some.injEq, forall_eq', hfree, htakes, ne_eq, not_true,
        true_and, false_or, exists_eq_left', hbound, true_implies, false_implies, and_true]
    · obtain ⟨w', hrun, hchanged⟩ := installOrCancel_unlisted hheld hzero hfresh htakes name type
        objId hattrs
      refine iff_of_false (fun hall => hchanged ((hall _ _ (hsome.mpr hrun)).2 hattrs)) ?_
      refine not_not.mpr ⟨hfree, rfl, fun o' ho => ?_⟩
      cases ho
      exact ⟨htakes, Or.inl hattrs⟩

end Core

namespace InsertCall

def Admits (mgrId : MgrId) (t : TargetObject) : Prop :=
  t.attrs = .success ∧ t.attr.version = nsAttrVersion ∧
    t.attr.validFields &&& nsAttrTypeId = nsAttrTypeId ∧ t.attr.mgrId = mgrId

def Spoils (mgrId : MgrId) (w : World) (d : DirId) : InsertCall → Prop
  | insertEntry name t =>
    Admits mgrId t ∧ w.Spoils d name t.itemPtr t.agency t.attr.type t.again
  | _ => False

section

variable {w : World} {d : DirId} {fresh : Addr} (hheld : w.held = []) (hread : w.Readable d)
  (hzero : fresh ≠ 0) (hfresh : w.entries fresh = none)

include hheld hread hzero hfresh

omit hread hzero hfresh in
theorem returns_target (t : TargetObject) : Returns t.getAttributes w t.attrs w := by
  rw [TargetObject.getAttributes]
  cases t.agency with
  | none => exact returns_pure.mpr ⟨rfl, rfl⟩
  | some o =>
    exact returns_getAttributes t.attrs (by simp [hheld]) (by simp [hheld]) (by simp [hheld])

theorem insertEntry_iff {mgrId : MgrId} {name : Name} {t : TargetObject} :
    AllOrNothing (nsInsertEntry mgrId d name t fresh) w d name t.agency ↔
      ¬(Admits mgrId t ∧ w.Spoils d name t.itemPtr t.agency t.attr.type t.again) := by
  have hattrs := returns_target hheld t
  have hrefused (ret : Ret) (hret : ret ≠ .success) (hadmits : ¬Admits mgrId t)
      (hrun : Returns (nsInsertEntry mgrId d name t fresh) w ret w) :
      AllOrNothing (nsInsertEntry mgrId d name t fresh) w d name t.agency ↔
        ¬(Admits mgrId t ∧ w.Spoils d name t.itemPtr t.agency t.attr.type t.again) :=
    iff_of_true (allOrNothing_refused hrun hret) fun h => hadmits h.1
  by_cases hsuccess : t.attrs = .success
  swap
  · refine hrefused _ hsuccess (fun h => hsuccess h.1) ?_
    rw [nsInsertEntry, returns_bind_of hattrs, if_pos hsuccess]
    exact returns_pure.mpr ⟨rfl, rfl⟩
  by_cases hvalid : t.attr.version ≠ nsAttrVersion ∨
      t.attr.validFields &&& nsAttrTypeId ≠ nsAttrTypeId
  · refine hrefused usUnknownError (by simp [usUnknownError]) (fun h => ?_) ?_
    · exact hvalid.elim (fun hversion => hversion h.2.1) fun hfields => hfields h.2.2.1
    · rw [nsInsertEntry, returns_bind_of hattrs, if_neg (not_not.mpr hsuccess), if_pos hvalid]
      exact returns_pure.mpr ⟨rfl, rfl⟩
  by_cases hmgr : t.attr.mgrId = mgrId
  swap
  · refine hrefused nsCannotInsert (by simp [nsCannotInsert]) (fun h => hmgr h.2.2.2) ?_
    rw [nsInsertEntry, returns_bind_of hattrs, if_neg (not_not.mpr hsuccess), if_neg hvalid,
      if_pos hmgr]
    exact returns_pure.mpr ⟨rfl, rfl⟩
  obtain ⟨hversion, hfields⟩ := not_or.mp hvalid
  have hadmits : Admits mgrId t := ⟨hsuccess, not_not.mp hversion, not_not.mp hfields, hmgr⟩
  have hcore := insertReserved_iff hheld hzero hfresh hread name t.itemPtr t.agency t.attr.type
    t.objId t.again
  rw [and_iff_right hadmits, ← hcore, AllOrNothing, AllOrNothing]
  simp only [nsInsertEntry, returns_bind_of hattrs, hsuccess, ne_eq, not_true, if_false, hvalid,
    hmgr]

theorem insertReserved_kept {name : Name} {prepared : Ret} {o : ObjId} {type objId : ℕ}
    (htype : type ≠ nstReserved) :
    AllOrNothing (insertReserved d name fresh prepared (some o) type objId .success) w d name
      (some o) := by
  refine (insertReserved_iff hheld hzero hfresh hread name prepared _ type objId .success).mpr ?_
  intro hspoils
  rcases (hspoils.2.2 o rfl).2 with hattrs | hreserved
  · exact hattrs rfl
  · exact htype hreserved

theorem create_kept (name : Name) (type : ℕ) (access : UInt32) (new : NewObject) :
    AllOrNothing (nsCreate d name type access new fresh) w d name (some new.obj) := by
  rw [nsCreate]
  split_ifs with htype
  · exact allOrNothing_refused (returns_pure.mpr ⟨rfl, rfl⟩) (by simp [nsUnknownEntryType])
  · refine insertReserved_kept hheld hread hzero hfresh ?_
    rw [not_not.mp htype]
    decide

end

end InsertCall

theorem insertion_all_or_nothing_iff {w : World} {d : DirId} {fresh : Addr} (mgrId : MgrId)
    (c : InsertCall) (hheld : w.held = []) (hread : w.Readable d) (hzero : fresh ≠ 0)
    (hfresh : w.entries fresh = none) :
    AllOrNothing (c.run mgrId d fresh) w d c.name c.obj ↔ ¬c.Spoils mgrId w d := by
  cases c with
  | insertEntry name t => exact InsertCall.insertEntry_iff hheld hread hzero hfresh
  | create name type access new =>
    exact iff_of_true (InsertCall.create_kept hheld hread hzero hfresh name type access new) id
  | createAnon seed type access new =>
    refine iff_of_true (fun ret w' hrun => ?_) id
    have hkept := InsertCall.create_kept hheld hread hzero hfresh (anonName seed) type access new
    exact hkept ret w' ((returns_visit (by simp [hheld])).mp hrun)
  | createTransparentSymlink name new =>
    exact iff_of_true (InsertCall.insertReserved_kept hheld hread hzero hfresh (by decide)) id
  | insertForwardingEntry name external new =>
    refine iff_of_true (InsertCall.insertReserved_kept hheld hread hzero hfresh ?_) id
    cases external <;> decide

def localTarget (agency : Option ObjId) (again : Ret) : TargetObject where
  agency := agency
  attrs := .success
  attr := ⟨nsAttrVersion, nsAttrTypeId, nstSymlink, (0, 0)⟩
  itemPtr := .success
  again := again
  objId := 7

theorem insertion_all_or_nothing_iff_agency :
    AllOrNothing ((InsertCall.insertEntry [97] (localTarget (some 3) .success)).run (0, 0) 0 1)
        (start fun _ => .agency) 0 [97] (some 3) ↔
      ¬(InsertCall.insertEntry [97] (localTarget (some 3) .success)).Spoils (0, 0)
        (start fun _ => .agency) 0 := by
  refine insertion_all_or_nothing_iff (0, 0)
    (.insertEntry [97] (localTarget (some 3) .success)) rfl ?_ (by decide) rfl
  simp [Readable, start]

theorem insertion_reports_success :
    ¬AllOrNothing ((InsertCall.insertEntry [97] (localTarget none .success)).run (0, 0) 0 1)
        (start fun _ => .agency) 0 [97] none ∧
      ¬AllOrNothing
        ((InsertCall.insertEntry [97] (localTarget (some 3) .objectDead)).run (0, 0) 0 1)
        (start fun _ => .agency) 0 [97] (some 3) := by
  constructor
  · intro h
    obtain ⟨ret, w', hrun, htest⟩ := exists_returns
      (show after ((InsertCall.insertEntry [97] (localTarget none .success)).run (0, 0) 0 1)
        (start fun _ => .agency) (fun ret _ => decide (ret = .success)) = true by
          decide +kernel)
    obtain ⟨o, ho, -⟩ := (h ret w' hrun).1 (of_decide_eq_true htest)
    cases ho
  · intro h
    obtain ⟨ret, w', hrun, htest⟩ := exists_returns
      (show after ((InsertCall.insertEntry [97] (localTarget (some 3) .objectDead)).run (0, 0) 0 1)
        (start fun _ => .agency)
        (fun ret w => decide (ret ≠ .success ∧ w.links 3 = 1)) = true by decide +kernel)
    obtain ⟨hret, hlinks⟩ := of_decide_eq_true htest
    have hsame := congrFun ((h ret w' hrun).2 hret).links 3
    rw [hlinks] at hsame
    cases hsame

end MachUS.Dir
