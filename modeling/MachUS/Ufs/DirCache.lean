import MachUS.Foundation.Keyed
import MachUS.Foundation.Transition
import Mathlib.Data.PNat.Defs

namespace MachUS.Ufs

open List Nat

def dirblksiz : ℕ := 512

def maxnamlen : ℕ := 255

abbrev Bytes := List UInt8

abbrev FileName := { b : Bytes // b.length ≤ maxnamlen }

def dirsiz (name : Bytes) : ℕ := 8 + (name.length + 1 + 3) / 4 * 4

structure Direct where
  ino : ℕ
  reclen : ℕ
  name : FileName
  deriving DecidableEq

namespace Direct

def size (r : Direct) : ℕ := if r.ino = 0 then 0 else dirsiz r.name

def space (r : Direct) : ℕ := r.reclen - r.size

end Direct

abbrev DirBlock := List Direct

def span (b : List Direct) : ℕ := (b.map Direct.reclen).sum

@[simp] theorem span_nil : span [] = 0 := rfl

@[simp] theorem span_cons (r : Direct) (b : List Direct) : span (r :: b) = r.reclen + span b := by
  simp [span]

@[simp] theorem span_append (b c : List Direct) : span (b ++ c) = span b + span c := by
  simp [span]

structure Tiled (b : DirBlock) : Prop where
  full : span b = dirblksiz
  fits : ∀ r ∈ b, 0 < r.reclen ∧ r.size ≤ r.reclen
  used : ∀ r ∈ b.tail, r.ino ≠ 0

structure HashEntry where
  name : FileName
  ino : ℕ
  off : ℕ
  reclen : ℕ
  prev : ℕ
  deriving DecidableEq

def blockEntries : ℕ → ℕ → DirBlock → List HashEntry
  | _, _, [] => []
  | off, prev, r :: b =>
    (if r.ino = 0 then [] else [⟨r.name, r.ino, off, r.reclen, prev⟩]) ++
      blockEntries (off + r.reclen) r.reclen b

def entriesFrom : ℕ → List DirBlock → List HashEntry
  | _, [] => []
  | off, b :: d => blockEntries off 0 b ++ entriesFrom (off + dirblksiz) d

def entries (d : List DirBlock) : List HashEntry := entriesFrom 0 d

structure WellFormed (d : List DirBlock) : Prop where
  tiled : ∀ b ∈ d, Tiled b
  names : ((entries d).map HashEntry.name).Nodup

structure Place where
  before : List DirBlock
  left : List Direct
  right : List Direct
  after : List DirBlock

namespace Place

def fill (p : Place) (b : List Direct) : List DirBlock := p.before ++ (p.left ++ b) :: p.after

def offset (p : Place) : ℕ := dirblksiz * p.before.length + span p.left

def prev (p : Place) : ℕ := (p.left.getLast?.map Direct.reclen).getD 0

end Place

def cutBlock : DirBlock → ℕ → Option (List Direct × List Direct)
  | b, 0 => some ([], b)
  | [], _ + 1 => none
  | r :: b, n + 1 =>
    if n + 1 < r.reclen then none
    else (cutBlock b (n + 1 - r.reclen)).map fun (left, right) => (r :: left, right)

def locate (d : List DirBlock) (off : ℕ) : Option Place :=
  match d.drop (off / dirblksiz) with
  | [] => none
  | b :: after => (cutBlock b (off % dirblksiz)).map fun (left, right) =>
    ⟨d.take (off / dirblksiz), left, right, after⟩

theorem cutBlock_eq {b left right : List Direct} {off : ℕ} (h : cutBlock b off = some (left, right)) :
    left ++ right = b ∧ span left = off := by
  induction b generalizing off left with
  | nil =>
    cases off with
    | zero => simp_all [cutBlock]
    | succ n => simp [cutBlock] at h
  | cons r b ih =>
    cases off with
    | zero => simp_all [cutBlock]
    | succ n =>
      simp only [cutBlock] at h
      split at h
      · cases h
      · obtain ⟨⟨left', right'⟩, hcut, heq⟩ := Option.map_eq_some_iff.mp h
        cases heq
        obtain ⟨hb, hspan⟩ := ih hcut
        refine ⟨by simp [hb], ?_⟩
        rw [span_cons, hspan]
        omega

theorem cutBlock_span {left right : List Direct} (hpos : ∀ r ∈ left, 0 < r.reclen) :
    cutBlock (left ++ right) (span left) = some (left, right) := by
  induction left with
  | nil => cases right <;> rfl
  | cons r left ih =>
    have hr := hpos r (by simp)
    obtain ⟨n, hn⟩ : ∃ n, span (r :: left) = n + 1 := ⟨r.reclen + span left - 1, by simp; omega⟩
    have hrest : n + 1 - r.reclen = span left := by
      rw [← hn, span_cons]
      omega
    rw [hn, cons_append, cutBlock, if_neg, hrest, ih fun x hx => hpos x (by simp [hx])]
    · rfl
    · rw [← hn, span_cons]
      omega

theorem locate_eq {d : List DirBlock} {off : ℕ} {p : Place} (h : locate d off = some p) :
    p.fill p.right = d ∧ p.offset = off := by
  rw [locate] at h
  split at h
  · cases h
  · rename_i b after hdrop
    obtain ⟨⟨left, right⟩, hcut, rfl⟩ := Option.map_eq_some_iff.mp h
    obtain ⟨hb, hspan⟩ := cutBlock_eq hcut
    have hlt : off / dirblksiz < d.length := by
      by_contra hge
      rw [drop_eq_nil_of_le (by omega)] at hdrop
      cases hdrop
    refine ⟨?_, ?_⟩
    · simp only [Place.fill, hb, ← hdrop]
      exact take_append_drop _ _
    · simp only [Place.offset, hspan, length_take, min_eq_left (le_of_lt hlt)]
      exact div_add_mod off dirblksiz

theorem locate_offset {p : Place} (ht : Tiled (p.left ++ p.right)) (hright : p.right ≠ []) :
    locate (p.fill p.right) p.offset = some p := by
  have hlt : span p.left < dirblksiz := by
    obtain ⟨r, b, hb⟩ := exists_cons_of_ne_nil hright
    have hfull := ht.full
    have hpos := (ht.fits r (by simp [hb])).1
    rw [hb, span_append, span_cons] at hfull
    omega
  have hpos : 0 < dirblksiz := by decide
  have hdiv : p.offset / dirblksiz = p.before.length := by
    rw [Place.offset, mul_add_div hpos, div_eq_of_lt hlt, add_zero]
  have hmod : p.offset % dirblksiz = span p.left := by
    rw [Place.offset, mul_add_mod, mod_eq_of_lt hlt]
  have hdrop : (p.fill p.right).drop p.before.length = (p.left ++ p.right) :: p.after := by
    simp [Place.fill]
  have htake : (p.fill p.right).take p.before.length = p.before := by
    simp [Place.fill]
  have hcut : cutBlock (p.left ++ p.right) (span p.left) = some (p.left, p.right) :=
    cutBlock_span fun r hr => (ht.fits r (mem_append_left _ hr)).1
  rw [locate, hdiv, hmod, hdrop]
  simp [hcut, htake]

theorem blockEntries_append (off prev : ℕ) (l b : List Direct) :
    blockEntries off prev (l ++ b) = blockEntries off prev l ++
      blockEntries (off + span l) ((l.getLast?.map Direct.reclen).getD prev) b := by
  induction l generalizing off prev with
  | nil => simp [blockEntries]
  | cons r l ih =>
    have hlast : (((r :: l).getLast?.map Direct.reclen).getD prev) =
        (l.getLast?.map Direct.reclen).getD r.reclen := by
      rw [getLast?_cons]
      cases l.getLast? <;> rfl
    rw [cons_append, blockEntries, blockEntries, ih, hlast, span_cons, add_assoc, append_assoc]

theorem entriesFrom_append (off : ℕ) (d e : List DirBlock) :
    entriesFrom off (d ++ e) = entriesFrom off d ++ entriesFrom (off + dirblksiz * d.length) e := by
  induction d generalizing off with
  | nil => simp [entriesFrom]
  | cons b d ih =>
    have hoff : off + dirblksiz + dirblksiz * d.length = off + dirblksiz * (d.length + 1) := by
      rw [mul_succ]
      omega
    rw [cons_append, entriesFrom, entriesFrom, ih, hoff, length_cons, append_assoc]

namespace Place

variable (p : Place)

def entriesLeft : List HashEntry :=
  entriesFrom 0 p.before ++ blockEntries (dirblksiz * p.before.length) 0 p.left

def entriesRight : List HashEntry := entriesFrom (dirblksiz * (p.before.length + 1)) p.after

theorem entries_fill (b : List Direct) : entries (p.fill b) =
    p.entriesLeft ++ (blockEntries p.offset p.prev b ++ p.entriesRight) := by
  have hoff : 0 + dirblksiz * p.before.length + dirblksiz = dirblksiz * (p.before.length + 1) := by
    rw [mul_succ]
    omega
  rw [entries, fill, entriesFrom_append, entriesFrom, blockEntries_append, hoff]
  simp [entriesLeft, entriesRight, offset, prev]

theorem mem_fill {b c : List Direct} (x : DirBlock) (hx : x ∈ p.fill c) :
    x = p.left ++ c ∨ x ∈ p.fill b := by
  simp only [fill, mem_append, mem_cons] at hx ⊢
  tauto

end Place

end MachUS.Ufs

namespace MachUS.Ufs

structure DiskOutcome (Dev : Type) where
  evict : ℕ → Dev × ℕ → Bool
  reads : ℕ → Option ℕ
  spaceReads : Option ℕ
  blockRead : Bool
  written : Bool
  stack : Bytes

structure Directory where
  blocks : List DirBlock
  stamp : ℕ

structure DirHash where
  lastOff : ℕ
  lastUnused : ℕ
  table : List HashEntry
  stamp : ℕ

def scanBlock : ℕ → ℕ → DirBlock → List HashEntry
  | _, _, [] => []
  | off, prev, r :: b =>
    if r.reclen = 0 then []
    else (if r.ino ≠ 0 ∧ r.size ≤ r.reclen then [⟨r.name, r.ino, off, r.reclen, prev⟩] else []) ++
      scanBlock (off + r.reclen) r.reclen b

def scanFrom : ℕ → List DirBlock → List HashEntry
  | _, [] => []
  | off, b :: d => scanBlock off 0 b ++ scanFrom (off + dirblksiz) d

def spaceInBlock (needed : ℕ) : ℕ → DirBlock → Option ℕ
  | _, [] => none
  | off, r :: b =>
    if r.reclen = 0 then none
    else if needed ≤ r.space then some off
    else spaceInBlock needed (off + r.reclen) b

def spaceFrom (needed : ℕ) : ℕ → List DirBlock → Option ℕ
  | _, [] => none
  | off, b :: d =>
    match spaceInBlock needed off b with
    | some found => some found
    | none => spaceFrom needed (off + dirblksiz) d

def readable (n : Option ℕ) (d : List DirBlock) : List DirBlock :=
  match n with
  | none => d
  | some n => d.take n

def scanTable (n : Option ℕ) (d : List DirBlock) : List HashEntry :=
  (scanFrom 0 (readable n d)).reverse

def scanSpace (n : Option ℕ) (needed : ℕ) (d : List DirBlock) : ℕ :=
  (spaceFrom needed 0 (readable n d)).getD (dirblksiz * (readable n d).length)

def copystr (name stack : Bytes) : Bytes :=
  if name.length < maxnamlen then name else name.take maxnamlen ++ stack

abbrev bytesOf (e : HashEntry) : Bytes := e.name.val

structure DirState (Dev : Type) where
  disk : Dev × ℕ → Option Directory
  cache : Dev × ℕ → Option DirHash
  wrecked : Bool

namespace DirState

variable {Dev : Type} [DecidableEq Dev] (s : DirState Dev) (o : DiskOutcome Dev) (dp : Dev × ℕ)

def wreck : DirState Dev := { s with wrecked := true }

def evict (p : Dev × ℕ → Bool) : DirState Dev :=
  { s with cache := fun k => if p k then none else s.cache k }

def dirRemove (k : Dev × ℕ) : DirState Dev :=
  { s with cache := Function.update s.cache k none }

def write (d : Directory) (blocks : List DirBlock) : DirState Dev :=
  { s with disk := Function.update s.disk dp (some { d with blocks := blocks }) }

def setHash (f : DirHash → DirHash) : DirState Dev :=
  { s with cache := Function.update s.cache dp ((s.cache dp).map f) }

def load (n : ℕ) : DirState Dev :=
  match s.cache dp, s.disk dp with
  | none, some d =>
    let h : DirHash := ⟨0, 0, scanTable (o.reads n) d.blocks, d.stamp⟩
    { s with cache := Function.update (s.evict (o.evict n)).cache dp (some h) }
  | _, _ => s

def find (name : Bytes) : Option HashEntry :=
  (s.cache dp).bind fun h => Keyed.find bytesOf name h.table

def amend (name : Bytes) (f : HashEntry → HashEntry) : DirState Dev :=
  s.setHash dp fun h =>
    { h with table := Keyed.amend bytesOf name f h.table }

def enterCached (e : HashEntry) : DirState Dev :=
  match s.cache dp with
  | none => s
  | some _ => (s.evict (o.evict 4)).setHash dp fun h => { h with table := e :: h.table }

def fileRemove (name : Bytes) : DirState Dev :=
  s.setHash dp fun h =>
    { h with table := Keyed.drop bytesOf name h.table }

def setHint (off unused : ℕ) : DirState Dev :=
  s.setHash dp fun h => { h with lastOff := off, lastUnused := unused }

def enterOffset (d : Directory) (size : ℕ) : ℕ :=
  match s.cache dp with
  | none => scanSpace o.spaceReads size d.blocks
  | some h =>
    if h.lastOff = 0 ∨ h.lastUnused < size then scanSpace o.spaceReads size d.blocks
    else h.lastOff

def tell (n : ℕ) (next : Option Bytes) (prev : ℕ) : DirState Dev :=
  match next with
  | none => s
  | some next => (s.load o dp n).amend dp next fun e => { e with prev := prev }

def entered (off spacefree dsize size : ℕ) (name : FileName) (ino : ℕ) (next : Option Bytes) :
    DirState Dev :=
  let s := s.setHint dp (off + dsize) (spacefree - size)
  let s := s.enterCached o dp ⟨name, ino, off + dsize, spacefree, dsize⟩
  s.tell o dp 5 next spacefree

def nextName (off : ℕ) (rest : List Direct) : Option Bytes :=
  if off % dirblksiz = 0 then none else rest.head?.map fun r => copystr r.name o.stack

def enterAt (d : Directory) (off : ℕ) (name : FileName) (ino : ℕ) : DirState Dev :=
  match locate d.blocks off with
  | some ⟨before, left, ep :: rest, after⟩ =>
    let p : Place := ⟨before, left, ep :: rest, after⟩
    let size := dirsiz name
    let next := nextName o (off + ep.reclen) rest
    if ep.ino = 0 then
      if ep.reclen < size then s.wreck
      else
        let s := if o.written then s.write dp d (p.fill (⟨ino, ep.reclen, name⟩ :: rest)) else s
        s.entered o dp off ep.reclen 0 size name ino next
    else if ep.reclen - dirsiz ep.name < size then s.wreck
    else
      let dsize := dirsiz ep.name
      let spacefree := ep.reclen - dsize
      let s := if o.written then s.write dp d (p.fill ({ ep with reclen := dsize } ::
        ⟨ino, spacefree, name⟩ :: rest)) else s
      let s := (s.load o dp 3).amend dp (copystr ep.name o.stack) fun e =>
        { e with reclen := dsize }
      s.entered o dp off spacefree dsize size name ino next
  | _ => s.wreck

def direnter (name : FileName) (ino : ℕ) : DirState Dev :=
  match s.disk dp with
  | none => s
  | some d =>
    let size := dirsiz name
    let off := s.enterOffset o dp d size
    if off = dirblksiz * d.blocks.length then
      if o.written then
        let s := s.write dp d (d.blocks ++ [[⟨ino, dirblksiz, name⟩]])
        (s.setHint dp off (dirblksiz - size)).enterCached o dp ⟨name, ino, off, dirblksiz, 0⟩
      else s.dirRemove dp
    else if o.blockRead then s.enterAt o dp d off name ino
    else s

def forget (name : FileName) (ino : ℕ) : DirState Dev :=
  match s.cache dp with
  | none => s
  | some _ =>
    ((s.setHash dp fun h => { h with lastOff := 0 }).fileRemove dp name).dirRemove (dp.1, ino)

def blank (d : Directory) (e : HashEntry) (reclen : ℕ) (name : FileName) : DirState Dev :=
  match locate d.blocks e.off with
  | some ⟨before, left, _ :: rest, after⟩ =>
    s.write dp d (Place.fill ⟨before, left, [], after⟩ (⟨0, reclen, name⟩ :: rest))
  | _ => s.wreck

def grow (ep : Direct) (reclen : ℕ) : DirState Dev :=
  if ep.ino = 0 then s else (s.load o dp 3).amend dp ep.name fun e => { e with reclen := reclen }

def collapse (d : Directory) (p : Place) (ep r : Direct) (rest : List Direct) (e : HashEntry) :
    DirState Dev :=
  let joined := ep.reclen + e.reclen
  let next := nextName o (e.off + e.reclen) rest
  if r.reclen ≠ e.reclen then s.wreck
  else
    let s := if o.written then s.write dp d (p.fill ({ ep with reclen := joined } :: rest)) else s
    (s.grow o dp ep joined).tell o dp 4 next joined

def dirremove (name : FileName) (reclen : ℕ) : ℕ → DirState Dev → DirState Dev
  | 0, s => s.wreck
  | fuel + 1, s =>
    let s := s.load o dp 2
    match s.find dp name, s.disk dp with
    | some e, some d =>
      if e.prev = 0 then
        (if o.written then s.blank dp d e reclen name else s).forget dp name e.ino
      else if o.blockRead then
        match locate d.blocks (e.off - e.prev) with
        | some ⟨before, left, ep :: rest, after⟩ =>
          if ep.reclen ≠ e.prev then dirremove name reclen fuel (s.dirRemove dp)
          else
            match rest with
            | [] => s.wreck
            | r :: rest =>
              (s.collapse o dp d ⟨before, left, [], after⟩ ep r rest e).forget dp name e.ino
        | _ => s.wreck
      else s
    | _, _ => s

def overwrite (d : Directory) (off ino reclen : ℕ) (name : FileName) : DirState Dev :=
  match locate d.blocks off with
  | some ⟨before, left, _ :: rest, after⟩ =>
    s.write dp d (Place.fill ⟨before, left, [], after⟩ (⟨ino, reclen, name⟩ :: rest))
  | _ => s.wreck

def dirrewrite (name : FileName) (reclen ino : ℕ) : DirState Dev :=
  let s := s.load o dp 2
  match s.find dp name, s.disk dp with
  | some e, some d =>
    let s := s.amend dp name fun e => { e with ino := ino }
    let s := if o.written then s.overwrite dp d e.off ino reclen name else s
    s.dirRemove (dp.1, ino)
  | _, _ => s

end DirState

inductive DirCall (Dev : Type) where
  | lookup (dp : Dev × ℕ) (name : FileName)
  | direnter (dp : Dev × ℕ) (name : FileName) (ino : ℕ+)
  | dirremove (dp : Dev × ℕ) (name : FileName)
  | dirrewrite (dp : Dev × ℕ) (name : FileName) (ino : ℕ+)
  | inval (p : Dev × ℕ → Bool)

namespace DirState

variable {Dev : Type} [DecidableEq Dev] (s : DirState Dev) (o : DiskOutcome Dev)

def namei (dp : Dev × ℕ) (name : FileName) : DirState Dev × Option HashEntry :=
  ((s.load o dp 0).evict (o.evict 1), (s.load o dp 0).find dp name)

def call : DirCall Dev → DirState Dev
  | .lookup dp _ => s.load o dp 0
  | .direnter dp name ino =>
    match s.namei o dp name with
    | (s, none) => s.direnter o dp name ino
    | (s, some _) => s
  | .dirremove dp name =>
    match s.namei o dp name with
    | (s, none) => s
    | (s, some e) => dirremove o dp name e.reclen 2 s
  | .dirrewrite dp name ino =>
    match s.namei o dp name with
    | (s, none) => s
    | (s, some e) => s.dirrewrite o dp name e.reclen ino
  | .inval p => s.evict p

end DirState

end MachUS.Ufs
