import Mathlib.Order.Interval.Finset.Nat
import MachUS.Foundation.LinkRing
import MachUS.Foundation.Transition

namespace MachUS.Ufs

open Function

def ncacheHash : ℕ := 37

def cacheBlksPerRegion : ℕ := 128

def initialReadBufs : ℕ := 32

def minReadCacheBufs : ℕ := 16

def kernSuccess : ℕ := 0

def kernFailure : ℕ := 5

def cacheHash (blkno : ℕ) : ℕ := (blkno / cacheBlksPerRegion * cacheBlksPerRegion) % ncacheHash

structure BlockRange where
  devport : ℕ
  blkno : ℕ
  numblks : ℕ
  deriving DecidableEq

namespace BlockRange

variable (b r : BlockRange)

def lastBlk : ℤ := r.blkno + r.numblks - 1

def InRegion : Prop := (r.blkno : ℤ) / cacheBlksPerRegion = r.lastBlk / cacheBlksPerRegion

def blocks : Finset ℕ := Finset.Ico r.blkno (r.blkno + r.numblks)

def Apart : Prop := b.devport = r.devport → Disjoint b.blocks r.blocks

def Conflicts : Prop :=
  r.devport = b.devport ∧ ((r.blkno ≤ b.blkno ∧ b.blkno < r.blkno + r.numblks) ∨
    (b.blkno < r.blkno ∧ r.blkno < b.blkno + b.numblks))

def Hit : Prop :=
  r.devport = b.devport ∧ r.blkno = b.blkno ∧ r.blkno + r.numblks ≤ b.blkno + b.numblks

instance : Decidable r.InRegion := inferInstanceAs (Decidable (_ = _))

instance : Decidable (b.Conflicts r) := inferInstanceAs (Decidable (_ ∧ _))

instance : Decidable (b.Hit r) := inferInstanceAs (Decidable (_ ∧ _))

variable {b r}

theorem Apart.symm (h : b.Apart r) : r.Apart b := fun hdev => (h hdev.symm).symm

theorem apart_of_not_conflicts (h : ¬b.Conflicts r) : b.Apart r := by
  intro hdev
  rw [Finset.disjoint_left]
  intro k hb hr
  rw [blocks, Finset.mem_Ico] at hb hr
  apply h
  refine ⟨hdev.symm, ?_⟩
  omega

theorem InRegion.block (h : r.InRegion) {k : ℕ} (hk : k ∈ r.blocks) :
    k / cacheBlksPerRegion = r.blkno / cacheBlksPerRegion := by
  rw [InRegion, lastBlk] at h
  rw [blocks, Finset.mem_Ico] at hk
  simp only [cacheBlksPerRegion] at *
  omega

theorem InRegion.drop (h : r.InRegion) {k : ℕ} (hk : k < r.numblks) :
    InRegion ⟨r.devport, r.blkno + k, r.numblks - k⟩ := by
  simp only [InRegion, lastBlk, cacheBlksPerRegion] at *
  omega

theorem apart_of_hash_ne (hb : b.InRegion) (hr : r.InRegion)
    (hne : cacheHash b.blkno ≠ cacheHash r.blkno) : b.Apart r := by
  intro _
  rw [Finset.disjoint_left]
  intro k hkb hkr
  apply hne
  rw [cacheHash, cacheHash, ← hb.block hkb, ← hr.block hkr]

end BlockRange

inductive BufState where
  | rfreeList
  | wfreeList
  | cachedNotValid
  | cachedValid
  | claimedNotValid
  | claimedValid
  | mustFree
  | writeList
  | limbo
  deriving DecidableEq

structure BufDesc (β : Type) where
  range : BlockRange
  blksize : ℕ
  buf : Option (List β)
  state : BufState
  error : ℕ

namespace BufDesc

variable {β : Type} (d : BufDesc β)

def initBuf : BufDesc β :=
  { d with range := { d.range with numblks := 0 }, blksize := 0, buf := none, error := kernSuccess }

def bytes : ℕ := d.blksize * d.range.numblks

def roundSize (page n : ℕ) : ℕ := (n * d.blksize + page - 1) / page * page

def Partial (page n : ℕ) : Prop := n < d.range.numblks ∧ d.roundSize page n < d.bytes

instance (page n : ℕ) : Decidable (d.Partial page n) := inferInstanceAs (Decidable (_ ∧ _))

def shrink (page n : ℕ) : BufDesc β :=
  let blocks := d.roundSize page n / d.blksize
  { d with
    range := ⟨d.range.devport, d.range.blkno + blocks, d.range.numblks - blocks⟩
    buf := d.buf.map (List.drop blocks)
    state := .cachedValid }

end BufDesc

inductive CacheNode where
  | rfree
  | bucket (i : ℕ)
  | desc (bp : ℕ)
  deriving DecidableEq

inductive ReadReply (β : Type) where
  | none
  | setup (tag : Option ℕ)
  | search (tag : Option ℕ)
  | data (err : ℕ) (data : Option (List β))
  deriving DecidableEq

inductive Linking (β : Type) where
  | setup
  | reinstall (data : Option (List β))

inductive Next (β : Type) where
  | done (reply : ReadReply β)
  | remove (r : BlockRange)
  | finish (bp : ℕ) (data : Option (List β))

inductive Unhooking (β : Type) where
  | give (r : BlockRange)
  | discard (n : Next β)

inductive ReadPhase (β : Type) where
  | idle (last : ReadReply β)
  | acquire (r : BlockRange) (blksize : ℕ)
  | tryReclaim (r : BlockRange) (blksize : ℕ)
  | reclaim (r : BlockRange) (blksize : ℕ) (cur : Option ℕ)
  | evict (r : BlockRange) (blksize : ℕ) (bp : ℕ)
  | strip (r : BlockRange) (blksize : ℕ) (bp : ℕ)
  | fill (r : BlockRange) (blksize : ℕ) (bp : ℕ)
  | link (bp : ℕ) (why : Linking β)
  | scan (bp : ℕ) (why : Linking β) (cur : CacheNode)
  | hook (bp : ℕ) (why : Linking β)
  | lookup (r : BlockRange)
  | search (r : BlockRange) (cur : CacheNode)
  | unhook (bp : ℕ) (k : Unhooking β)
  | take (bp : ℕ) (r : BlockRange)
  | wait (bp : ℕ) (r : BlockRange)
  | woken (bp : ℕ) (r : BlockRange)
  | abort (bp : ℕ) (err : ℕ) (n : Next β)
  | unlink (bp : ℕ) (n : Next β)
  | finish (bp : ℕ) (data : Option (List β))
  | free (bp : ℕ) (n : Next β)
  | clear (r : BlockRange)
  | remove (r : BlockRange) (cur : CacheNode)
  | panicked (r : BlockRange)

structure ReadRecord where
  linked : ℕ → Bool
  reclaimable : ℕ → Bool
  freed : ℕ → Bool
  misused : Bool
  failed : Bool

structure ReadCache (Thread β : Type) where
  desc : ℕ → BufDesc β
  made : ℕ
  chain : LinkRing CacheNode
  reclaimChain : LinkRing (Option ℕ)
  reclaimlCnt : ℤ
  hashLock : ℕ → Option Thread
  reclaimLock : Option Thread
  sleepers : ℕ → List Thread
  phase : Thread → ReadPhase β
  opened : List ℕ
  hits : List (ℕ × BlockRange)
  record : ReadRecord

inductive ReadCall (β : Type) where
  | setup (r : BlockRange) (blksize : ℕ)
  | search (r : BlockRange)
  | getData (bp : ℕ) (r : BlockRange)
  | finish (bp : ℕ) (data : Option (List β)) (count : ℕ)
  | abort (bp : ℕ) (err : ℕ)
  | remove (r : BlockRange)

def ReadCall.InRegion {β : Type} : ReadCall β → Prop
  | .setup r _ | .remove r => r.InRegion
  | _ => True

inductive ReadEvent (Thread β : Type) where
  | call (t : Thread) (c : ReadCall β)
  | go (t : Thread)

namespace ReadCache

variable {Thread β : Type} [DecidableEq Thread] (s : ReadCache Thread β)

@[simp]
def goto (t : Thread) (ph : ReadPhase β) : ReadCache Thread β :=
  { s with phase := update s.phase t ph }

@[simp]
def setDesc (bp : ℕ) (d : BufDesc β) : ReadCache Thread β :=
  { s with desc := update s.desc bp d }

@[simp]
def setState (bp : ℕ) (st : BufState) : ReadCache Thread β :=
  s.setDesc bp { s.desc bp with state := st }

@[simp]
def lockHash (i : ℕ) (owner : Option Thread) : ReadCache Thread β :=
  { s with hashLock := update s.hashLock i owner }

@[simp]
def lockReclaim (owner : Option Thread) : ReadCache Thread β := { s with reclaimLock := owner }

@[simp]
def misuse (b : Bool) : ReadCache Thread β :=
  { s with record := { s.record with misused := s.record.misused || b } }

@[simp]
def assert (b : Bool) : ReadCache Thread β :=
  { s with record := { s.record with failed := s.record.failed || !b } }

def bucketOf (bp : ℕ) : ℕ := cacheHash (s.desc bp).range.blkno

def linkRead (bp : ℕ) : ReadCache Thread β :=
  { s with
    chain := s.chain.enterFirst (.bucket (s.bucketOf bp)) (.desc bp)
    record := { (s.misuse (s.record.linked bp)).record with
      linked := update s.record.linked bp true } }

def unlinkRead (bp : ℕ) : ReadCache Thread β :=
  { s with
    chain := s.chain.remove (.desc bp)
    record := { (s.misuse (!s.record.linked bp)).record with
      linked := update s.record.linked bp false } }

def linkReclaim (bp : ℕ) : ReadCache Thread β :=
  { s with
    reclaimChain := s.reclaimChain.enterFirst none (some bp)
    reclaimlCnt := s.reclaimlCnt + 1
    record := { (s.misuse (s.record.reclaimable bp)).record with
      reclaimable := update s.record.reclaimable bp true } }

def unlinkReclaim (bp : ℕ) : ReadCache Thread β :=
  { s with
    reclaimChain := s.reclaimChain.remove (some bp)
    reclaimlCnt := s.reclaimlCnt - 1
    record := { (s.misuse (!s.record.reclaimable bp)).record with
      reclaimable := update s.record.reclaimable bp false } }

def freeRead (bp : ℕ) : ReadCache Thread β :=
  { s with
    desc := update s.desc bp { (s.desc bp).initBuf with state := .rfreeList }
    chain := s.chain.enter .rfree (.desc bp)
    record := { (s.misuse (s.record.freed bp || s.record.linked bp || s.opened.contains bp)).record with
      freed := update s.record.freed bp true } }

def popFree (bp : ℕ) : ReadCache Thread β :=
  { s with
    chain := s.chain.removeFirst .rfree
    record := { s.record with freed := update s.record.freed bp false } }

def fill (t : Thread) (bp : ℕ) (r : BlockRange) (blksize : ℕ) : ReadCache Thread β :=
  ((s.setDesc bp ⟨r, blksize, (s.desc bp).buf, .cachedNotValid, (s.desc bp).error⟩).assert
    (decide r.InRegion)).goto t (.link bp .setup)

def alloc (t : Thread) (r : BlockRange) (blksize : ℕ) : ReadCache Thread β :=
  { s.setDesc s.made { s.desc s.made with buf := none } with made := s.made + 1 }.goto t
    (.fill r blksize s.made)

def rouse : ReadPhase β → ReadPhase β
  | .wait bp r => .woken bp r
  | ph => ph

def wakeup (bp : ℕ) : ReadCache Thread β :=
  match s.sleepers bp with
  | [] => s
  | t :: ts =>
    { s with
      sleepers := update s.sleepers bp ts
      phase := update s.phase t (rouse (s.phase t)) }

def resume (t : Thread) : Next β → ReadCache Thread β
  | .done reply => s.goto t (.idle reply)
  | .remove r => s.goto t (.clear r)
  | .finish bp data => s.goto t (.finish bp data)

def receive (page : ℕ) (t : Thread) (bp : ℕ) (r : BlockRange) : ReadCache Thread β :=
  let d := s.desc bp
  if d.state = .claimedValid then
    if d.Partial page r.numblks then
      (s.setDesc bp (d.shrink page r.numblks)).goto t (.link bp (.reinstall d.buf))
    else (s.setDesc bp { d with buf := none }).goto t (.free bp (.done (.data kernSuccess d.buf)))
  else s.goto t (.free bp (.done (.data d.error none)))

def begin (t : Thread) : ReadCall β → Option (ReadCache Thread β)
  | .setup r blksize => some (s.goto t (.acquire r blksize))
  | .search r => some (s.goto t (.lookup r))
  | .getData bp r =>
    if (bp, r) ∈ s.hits then some { s.goto t (.take bp r) with hits := s.hits.erase (bp, r) }
    else none
  | .finish bp data count =>
    if bp ∈ s.opened then
      let s : ReadCache Thread β := { s with opened := s.opened.erase bp }
      if count ≠ (s.desc bp).bytes ∨ data = none then
        some (s.goto t (.abort bp kernFailure (.finish bp data)))
      else some (s.goto t (.finish bp data))
    else none
  | .abort bp err =>
    if bp ∈ s.opened then
      some { s.goto t (.abort bp err (.done .none)) with opened := s.opened.erase bp }
    else none
  | .remove r => some ((s.assert (decide r.InRegion)).goto t (.clear r))

def visitSearch (t : Thread) (r : BlockRange) : CacheNode → Option (ReadCache Thread β)
  | .desc bp =>
    let d := s.desc bp
    if d.range.Hit r ∧ (d.state = .cachedValid ∨ d.state = .cachedNotValid) then
      let st := if d.state = .cachedValid then BufState.claimedValid else .claimedNotValid
      some ((((s.setState bp st).unlinkRead bp).lockHash (cacheHash r.blkno) none).goto t
        (.unhook bp (.give r)))
    else some (s.goto t (.search r (s.chain.next (.desc bp))))
  | _ => none

def visitRemove (t : Thread) (r : BlockRange) : CacheNode → Option (ReadCache Thread β)
  | .desc bp =>
    let d := s.desc bp
    let onward := s.goto t (.remove r (s.chain.next (.desc bp)))
    if d.range.Conflicts r then
      match d.state with
      | .cachedNotValid =>
        some (onward.setDesc bp { d with state := .mustFree, error := kernFailure })
      | .cachedValid =>
        some ((((s.setState bp .limbo).unlinkRead bp).lockHash (cacheHash r.blkno) none).goto t
          (.unhook bp (.discard (.remove r))))
      | .mustFree => some onward
      | _ => some ((s.assert false).goto t (.panicked r))
    else some onward
  | _ => none

def visitScan (t : Thread) (bp : ℕ) (why : Linking β) : CacheNode → Option (ReadCache Thread β)
  | .desc x =>
    if (s.desc x).range.Conflicts (s.desc bp).range then
      let reply := match why with
        | .setup => ReadReply.setup none
        | .reinstall data => .data kernSuccess data
      some ((s.lockHash (s.bucketOf bp) none).goto t (.free bp (.done reply)))
    else some (s.goto t (.scan bp why (s.chain.next (.desc x))))
  | _ => none

def visitReclaim (t : Thread) (r : BlockRange) (blksize : ℕ) : Option ℕ → ReadCache Thread β
  | none => (s.lockReclaim none).alloc t r blksize
  | some bp =>
    if (s.desc bp).state = .cachedValid then
      (((s.setState bp .limbo).unlinkReclaim bp).lockReclaim none).goto t (.evict r blksize bp)
    else s.goto t (.reclaim r blksize (s.reclaimChain.prev (some bp)))

def abortRead (t : Thread) (bp err : ℕ) (n : Next β) : ReadCache Thread β :=
  let d := s.desc bp
  let s := s.assert (decide (d.state = .cachedNotValid ∨ d.state = .claimedNotValid ∨
    d.state = .mustFree))
  if d.state = .cachedNotValid ∨ d.state = .mustFree then
    (s.setState bp .limbo).goto t (.unlink bp n)
  else ((s.setDesc bp { d with state := .mustFree, error := err }).wakeup bp).resume t n

def finishRead (t : Thread) (bp : ℕ) (data : Option (List β)) : ReadCache Thread β :=
  let d := { s.desc bp with buf := data }
  let s := s.assert (decide (d.state = .cachedNotValid ∨ d.state = .claimedNotValid ∨
    d.state = .mustFree))
  match d.state with
  | .cachedNotValid => (s.setDesc bp { d with state := .cachedValid }).goto t (.idle .none)
  | .claimedNotValid =>
    ((s.setDesc bp { d with state := .claimedValid }).wakeup bp).goto t (.idle .none)
  | _ => (s.setDesc bp d).goto t (.unlink bp (.done .none))

def takeData (page : ℕ) (t : Thread) (bp : ℕ) (r : BlockRange) : ReadCache Thread β :=
  let d := s.desc bp
  let s := s.assert (decide (d.state = .claimedValid ∨ d.state = .claimedNotValid ∨
    d.state = .mustFree))
  if d.state = .claimedNotValid then
    { s.goto t (.wait bp r) with
      sleepers := update s.sleepers bp (s.sleepers bp ++ [t]) }
  else s.receive page t bp r

def wakeData (page : ℕ) (t : Thread) (bp : ℕ) (r : BlockRange) : ReadCache Thread β :=
  let d := s.desc bp
  (s.assert (decide (d.state = .claimedValid ∨ d.state = .mustFree))).receive page t bp r

def hooked (t : Thread) (bp : ℕ) : Linking β → ReadCache Thread β
  | .setup => { s.linkReclaim bp with opened := bp :: s.opened }.goto t (.idle (.setup (some bp)))
  | .reinstall data => (s.linkReclaim bp).goto t (.idle (.data kernSuccess data))

def unhooked (t : Thread) (bp : ℕ) : Unhooking β → ReadCache Thread β
  | .give r =>
    { s.unlinkReclaim bp with hits := (bp, r) :: s.hits }.goto t (.idle (.search (some bp)))
  | .discard n => (s.unlinkReclaim bp).goto t (.free bp n)

def proceed (page : ℕ) (t : Thread) : Option (ReadCache Thread β) :=
  match s.phase t with
  | .idle _ | .wait _ _ | .panicked _ => none
  | .acquire r blksize =>
    match s.chain.next .rfree with
    | .rfree => some (s.goto t (.tryReclaim r blksize))
    | .desc bp => some ((s.popFree bp).goto t (.fill r blksize bp))
    | .bucket _ => none
  | .tryReclaim r blksize =>
    if s.reclaimLock ≠ none then none
    else if s.reclaimlCnt ≤ minReadCacheBufs then some (s.alloc t r blksize)
    else some ((s.lockReclaim (some t)).goto t (.reclaim r blksize (s.reclaimChain.prev none)))
  | .reclaim r blksize cur => some (s.visitReclaim t r blksize cur)
  | .evict r blksize bp =>
    if s.hashLock (s.bucketOf bp) ≠ none then none
    else some ((s.unlinkRead bp).goto t (.strip r blksize bp))
  | .strip r blksize bp =>
    some ((s.setDesc bp (s.desc bp).initBuf).goto t (.fill r blksize bp))
  | .fill r blksize bp => some (s.fill t bp r blksize)
  | .link bp why =>
    let i := s.bucketOf bp
    if s.hashLock i ≠ none then none
    else some ((s.lockHash i (some t)).goto t (.scan bp why (s.chain.next (.bucket i))))
  | .scan bp why cur =>
    let i := s.bucketOf bp
    if cur = .bucket i then some (((s.linkRead bp).lockHash i none).goto t (.hook bp why))
    else s.visitScan t bp why cur
  | .hook bp why => if s.reclaimLock ≠ none then none else some (s.hooked t bp why)
  | .lookup r =>
    let i := cacheHash r.blkno
    if s.hashLock i ≠ none then none
    else some ((s.lockHash i (some t)).goto t (.search r (s.chain.next (.bucket i))))
  | .search r cur =>
    let i := cacheHash r.blkno
    if cur = .bucket i then some ((s.lockHash i none).goto t (.idle (.search none)))
    else s.visitSearch t r cur
  | .unhook bp k => if s.reclaimLock ≠ none then none else some (s.unhooked t bp k)
  | .take bp r => some (s.takeData page t bp r)
  | .woken bp r => some (s.wakeData page t bp r)
  | .abort bp err n => some (s.abortRead t bp err n)
  | .unlink bp n =>
    if s.hashLock (s.bucketOf bp) ≠ none then none
    else some ((s.unlinkRead bp).goto t (.unhook bp (.discard n)))
  | .finish bp data => some (s.finishRead t bp data)
  | .free bp n => some ((s.freeRead bp).resume t n)
  | .clear r =>
    let i := cacheHash r.blkno
    if s.hashLock i ≠ none then none
    else some ((s.lockHash i (some t)).goto t (.remove r (s.chain.next (.bucket i))))
  | .remove r cur =>
    let i := cacheHash r.blkno
    if cur = .bucket i then some ((s.lockHash i none).goto t (.idle .none))
    else s.visitRemove t r cur

def makeFree : ReadCache Thread β :=
  { s.setDesc s.made { s.desc s.made with buf := none } with made := s.made + 1 }.freeRead s.made

def cacheInit (desc : ℕ → BufDesc β) (chain : LinkRing CacheNode)
    (reclaimChain : LinkRing (Option ℕ)) : ReadCache Thread β :=
  makeFree^[initialReadBufs]
    { desc := desc
      made := 0
      chain := (List.range ncacheHash).foldl (fun c i => c.init (.bucket i)) (chain.init .rfree)
      reclaimChain := reclaimChain.init none
      reclaimlCnt := 0
      hashLock := fun _ => none
      reclaimLock := none
      sleepers := fun _ => []
      phase := fun _ => .idle .none
      opened := []
      hits := []
      record := ⟨fun _ => false, fun _ => false, fun _ => false, false, false⟩ }

def step (page : ℕ) : ReadEvent Thread β → Option (ReadCache Thread β)
  | .call t c =>
    match s.phase t with
    | .idle _ => s.begin t c
    | _ => none
  | .go t => s.proceed page t

end ReadCache

end MachUS.Ufs
