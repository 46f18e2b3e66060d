import MachUS.Ufs.ReadBuffers

namespace MachUS.Ufs

inductive Role where
  | evicting
  | filling
  | unlinking
  | linking (fresh : Bool)
  | giving
  | discarding
  | taking
  | freeing
  deriving DecidableEq

inductive Owner (Thread : Type) where
  | unmade
  | free
  | linked
  | hit
  | thread (t : Thread) (r : Role)

def Owner.InHash {Thread : Type} : Owner Thread → Prop
  | .linked | .thread _ .evicting | .thread _ .unlinking => True
  | _ => False

def Owner.Ranged {Thread : Type} : Owner Thread → Prop
  | .unmade | .free | .thread _ .filling | .thread _ .freeing => False
  | _ => True

theorem ranged_of_inHash {Thread : Type} {o : Owner Thread} (h : o.InHash) : o.Ranged := by
  rcases o with _ | _ | _ | _ | ⟨t, _ | _ | _ | (_ | _) | _ | _ | _ | _⟩ <;>
    simp [Owner.InHash, Owner.Ranged] at h ⊢

inductive OpStatus (Thread : Type) where
  | none
  | soon
  | opened
  | thread (t : Thread)

structure BufEntry (Thread : Type) where
  owner : Owner Thread
  hooker : Option (Thread × Bool)
  op : OpStatus Thread

section Tallies

variable {Thread : Type} (hooker : Option (Thread × Bool)) (op : OpStatus Thread) (st : BufState)

def Fresh : Prop := ∃ t, hooker = some (t, true)

def Stale : Prop := ∃ t, hooker = some (t, false)

def Ongoing : Prop := op ≠ .none ∧ (op = .soon ↔ Fresh hooker) ∧ ¬Stale hooker

def Over : Prop := op = .none ∧ ¬Fresh hooker

def Cached : Prop :=
  (st = .cachedNotValid ∨ st = .mustFree) ∧ Ongoing hooker op ∨ st = .cachedValid ∧ Over hooker op

def Claimed : Prop :=
  st = .claimedNotValid ∧ Ongoing hooker op ∨
    (st = .claimedValid ∨ st = .mustFree) ∧ Over hooker op

end Tallies

def BufEntry.Fits {Thread : Type} (e : BufEntry Thread) (st : BufState) (reclaim : Prop) : Prop :=
  match e.owner with
  | .unmade => e.op = .none ∧ e.hooker = none ∧ ¬reclaim
  | .free => st = .rfreeList ∧ e.op = .none ∧ e.hooker = none ∧ ¬reclaim
  | .linked => Cached e.hooker e.op st ∧ (reclaim ↔ e.hooker = none)
  | .hit => Claimed e.hooker e.op st ∧ e.hooker = none ∧ ¬reclaim
  | .thread _ .evicting => st = .limbo ∧ e.op = .none ∧ e.hooker = none ∧ ¬reclaim
  | .thread _ .unlinking =>
    (st = .limbo ∨ st = .mustFree) ∧ e.op = .none ∧ e.hooker = none ∧ reclaim
  | .thread _ (.linking true) =>
    st = .cachedNotValid ∧ e.op = .soon ∧ e.hooker = none ∧ ¬reclaim
  | .thread _ (.linking false) => st = .cachedValid ∧ e.op = .none ∧ e.hooker = none ∧ ¬reclaim
  | .thread _ .giving => Claimed e.hooker e.op st ∧ (reclaim ↔ e.hooker = none)
  | .thread _ .discarding =>
    (st = .limbo ∨ st = .mustFree) ∧ Over e.hooker e.op ∧ (reclaim ↔ e.hooker = none)
  | .thread _ .taking => Claimed e.hooker e.op st ∧ e.hooker = none ∧ ¬reclaim
  | .thread _ .filling | .thread _ .freeing => e.op = .none ∧ e.hooker = none ∧ ¬reclaim

def Linking.fresh {β : Type} : Linking β → Bool
  | .setup => true
  | .reinstall _ => false

def Next.Plain {β : Type} : Next β → Prop
  | .finish _ _ => False
  | _ => True

namespace ReadPhase

variable {β : Type}

def role : ReadPhase β → Option (ℕ × Role)
  | .evict _ _ bp => some (bp, .evicting)
  | .strip _ _ bp | .fill _ _ bp => some (bp, .filling)
  | .unlink bp _ => some (bp, .unlinking)
  | .link bp why | .scan bp why _ => some (bp, .linking why.fresh)
  | .unhook bp (.give _) => some (bp, .giving)
  | .unhook bp (.discard _) => some (bp, .discarding)
  | .take bp _ | .wait bp _ | .woken bp _ => some (bp, .taking)
  | .free bp _ => some (bp, .freeing)
  | _ => none

def hooking : ReadPhase β → Option (ℕ × Bool)
  | .hook bp why => some (bp, why.fresh)
  | _ => none

def operating : ReadPhase β → Option ℕ
  | .abort bp _ _ | .finish bp _ => some bp
  | _ => none

def reclaiming : ReadPhase β → Bool
  | .reclaim _ _ _ => true
  | _ => false

def sleeping : ReadPhase β → Option ℕ
  | .wait bp _ => some bp
  | _ => none

def Loose : ReadPhase β → Prop
  | .reclaim _ _ _ | .scan _ _ _ | .search _ _ | .wait _ _ | .remove _ _ | .panicked _ => False
  | _ => True

def Plain : ReadPhase β → Prop
  | .acquire r _ | .tryReclaim r _ | .reclaim r _ _ | .evict r _ _ | .strip r _ _ | .fill r _ _ =>
    r.InRegion
  | .abort _ _ n | .unlink _ n | .unhook _ (.discard n) | .free _ n => n.Plain
  | _ => True

end ReadPhase

structure Ledger (Thread : Type) where
  entry : ℕ → BufEntry Thread
  free : List ℕ
  bucket : ℕ → List ℕ
  reclaim : List ℕ

namespace Ledger

variable {Thread : Type} (g : Ledger Thread)

@[simp]
def put (bp : ℕ) (e : BufEntry Thread) : Ledger Thread :=
  { g with entry := Function.update g.entry bp e }

@[simp]
def withFree (l : List ℕ) : Ledger Thread := { g with free := l }

@[simp]
def withBucket (i : ℕ) (l : List ℕ) : Ledger Thread :=
  { g with bucket := Function.update g.bucket i l }

@[simp]
def withReclaim (l : List ℕ) : Ledger Thread := { g with reclaim := l }

end Ledger

structure BufView (Thread β : Type) where
  desc : BufDesc β
  entry : BufEntry Thread
  free : Prop
  bucket : ℕ → Prop
  reclaim : Prop
  unmade : Prop
  opened : Prop
  hit : Prop
  linked : Bool
  reclaimable : Bool
  freed : Bool

structure BufView.Settled {Thread β : Type} (v : BufView Thread β) : Prop where
  free : v.free ↔ v.entry.owner = .free
  bucket : ∀ i, v.bucket i ↔ v.entry.owner.InHash ∧ cacheHash v.desc.range.blkno = i
  fits : v.entry.Fits v.desc.state v.reclaim
  unmade : v.unmade ↔ v.entry.owner = .unmade
  opened : v.opened ↔ v.entry.op = .opened
  hit : v.hit ↔ v.entry.owner = .hit
  linked : v.linked = true ↔ v.entry.owner.InHash
  reclaimable : v.reclaimable = true ↔ v.reclaim
  freed : v.freed = true ↔ v.entry.owner = .free
  region : v.entry.owner.Ranged → v.desc.range.InRegion

structure Rings {Thread : Type} (g : Ledger Thread) (chain : LinkRing CacheNode)
    (reclaimChain : LinkRing (Option ℕ)) : Prop where
  free : chain.Holds .rfree (g.free.map .desc)
  bucket : ∀ i, i < ncacheHash → chain.Holds (.bucket i) ((g.bucket i).map .desc)
  reclaim : reclaimChain.Holds none (g.reclaim.map some)

def Cursor {α : Type} (l pre : List ℕ) (node : ℕ → α) (head cur : α) : Prop :=
  ∃ post, l = pre ++ post ∧ cur = (post.head?.map node).getD head

namespace ReadCache

variable {Thread β : Type} (s : ReadCache Thread β) (g : Ledger Thread)

def view (bp : ℕ) : BufView Thread β where
  desc := s.desc bp
  entry := g.entry bp
  free := bp ∈ g.free
  bucket := fun i => bp ∈ g.bucket i
  reclaim := bp ∈ g.reclaim
  unmade := s.made ≤ bp
  opened := bp ∈ s.opened
  hit := bp ∈ s.hits.map Prod.fst
  linked := s.record.linked bp
  reclaimable := s.record.reclaimable bp
  freed := s.record.freed bp

def lockOf : ReadPhase β → Option ℕ
  | .scan bp _ _ => some (s.bucketOf bp)
  | .search r _ | .remove r _ | .panicked r => some (cacheHash r.blkno)
  | _ => none

structure Tokens : Prop where
  role : ∀ t bp r, (s.phase t).role = some (bp, r) ↔ (g.entry bp).owner = .thread t r
  hooking : ∀ t bp f, (s.phase t).hooking = some (bp, f) ↔ (g.entry bp).hooker = some (t, f)
  operating : ∀ t bp, (s.phase t).operating = some bp ↔ (g.entry bp).op = .thread t

def Placed : ReadPhase β → Prop
  | .scan bp _ cur => ∃ pre, Cursor (g.bucket (s.bucketOf bp)) pre CacheNode.desc
      (.bucket (s.bucketOf bp)) cur ∧ ∀ x ∈ pre, ¬(s.desc x).range.Conflicts (s.desc bp).range
  | .search r cur | .remove r cur => ∃ pre, Cursor (g.bucket (cacheHash r.blkno)) pre CacheNode.desc
      (.bucket (cacheHash r.blkno)) cur
  | .reclaim _ _ cur => ∃ pre post, g.reclaim = pre ++ post ∧ cur = pre.getLast?
  | _ => True

structure Threads : Prop where
  hash : ∀ i t, s.hashLock i = some t ↔ s.lockOf (s.phase t) = some i
  reclaim : ∀ t, s.reclaimLock = some t ↔ (s.phase t).reclaiming = true
  placed : ∀ t, s.Placed g (s.phase t)
  plain : ∀ t, (s.phase t).Plain
  sleeping : ∀ t bp, t ∈ s.sleepers bp ↔ (s.phase t).sleeping = some bp
  sleepers : ∀ bp, (s.sleepers bp).Nodup

structure Inv : Prop where
  rings : Rings g s.chain s.reclaimChain
  settled : ∀ bp, (s.view g bp).Settled
  tokens : s.Tokens g
  threads : s.Threads g
  awake : ∀ bp, s.sleepers bp ≠ [] → (s.desc bp).state = .claimedNotValid
  openedOnce : s.opened.Nodup
  hitsOnce : (s.hits.map Prod.fst).Nodup
  apart : ∀ x y, x ≠ y → (g.entry x).owner.InHash → (g.entry y).owner.InHash →
    (s.desc x).range.Apart (s.desc y).range
  proper : s.record.misused = false
  failed : s.record.failed = true → ∃ t r, s.phase t = .panicked r

end ReadCache

end MachUS.Ufs

namespace MachUS.Ufs

open CacheNode List Ledger

variable {Thread : Type} {g : Ledger Thread} {chain : LinkRing CacheNode}
  {reclaimChain : LinkRing (Option ℕ)} {bp i : ℕ}

structure Ledger.Apart (g : Ledger Thread) : Prop where
  free : ∀ x i, x ∈ g.free → x ∉ g.bucket i
  bucket : ∀ x i j, x ∈ g.bucket i → x ∈ g.bucket j → i = j

structure Ledger.Out (g : Ledger Thread) (bp : ℕ) : Prop where
  free : bp ∉ g.free
  bucket : ∀ i, bp ∉ g.bucket i

namespace Ledger

theorem mem_unlinked {x j : ℕ} (hx : x ≠ bp) :
    x ∈ (g.withBucket i ((g.bucket i).erase bp)).bucket j ↔ x ∈ g.bucket j := by
  by_cases hj : j = i
  · subst hj
    simp [mem_erase_of_ne hx]
  · simp [hj]

theorem mem_linked {x j : ℕ} (hx : x ≠ bp) :
    x ∈ (g.withBucket i (bp :: g.bucket i)).bucket j ↔ x ∈ g.bucket j := by
  by_cases hj : j = i
  · subst hj
    simp [hx]
  · simp [hj]

theorem Out.mem_linked (h : g.Out bp) {j : ℕ} :
    bp ∈ (g.withBucket i (bp :: g.bucket i)).bucket j ↔ i = j := by
  by_cases hj : j = i
  · subst hj
    simp
  · simp [hj, Ne.symm hj, h.bucket j]

end Ledger

theorem cacheHash_lt (blkno : ℕ) : cacheHash blkno < ncacheHash := Nat.mod_lt _ (by decide)

theorem notMem_nodes {node : ℕ → CacheNode} (hnode : ∀ x, node x = .desc x) {head head' : CacheNode}
    {l l' : List ℕ} (hne : head ≠ head') (hhead : ∀ x, head ≠ .desc x) (hhead' : ∀ x, head' ≠ .desc x)
    (hl : ∀ x ∈ l', x ∉ l) : ∀ a ∈ head' :: l'.map node, a ∉ head :: l.map node := by
  obtain rfl : node = .desc := funext hnode
  intro a ha ha'
  rcases mem_cons.mp ha with rfl | ha
  · rcases mem_cons.mp ha' with heq | ha'
    · exact hne heq.symm
    · obtain ⟨x, -, hx⟩ := mem_map.mp ha'
      exact hhead' x hx.symm
  · obtain ⟨x, hx, rfl⟩ := mem_map.mp ha
    rcases mem_cons.mp ha' with heq | ha'
    · exact hhead x heq.symm
    · obtain ⟨y, hy, hxy⟩ := mem_map.mp ha'
      obtain rfl := desc.inj hxy
      exact hl y hx hy

theorem desc_notMem {l : List ℕ} {head : CacheNode} (hhead : ∀ x, head ≠ .desc x) (hl : bp ∉ l) :
    desc bp ∉ head :: l.map .desc := by
  intro hmem
  rcases mem_cons.mp hmem with heq | hmem
  · exact hhead bp heq.symm
  · obtain ⟨x, hx, hxb⟩ := mem_map.mp hmem
    exact hl (desc.inj hxb ▸ hx)

namespace Ledger.Apart

variable (h : g.Apart)

include h

theorem notMem_bucket {i j : ℕ} (hij : i ≠ j) :
    ∀ a ∈ CacheNode.bucket j :: (g.bucket j).map .desc,
      a ∉ CacheNode.bucket i :: (g.bucket i).map .desc :=
  notMem_nodes (fun _ => rfl) (fun heq => hij (CacheNode.bucket.inj heq)) (fun _ => nofun)
    (fun _ => nofun) fun x hx hx' => hij (h.bucket x i j hx' hx)

theorem notMem_free (j : ℕ) : ∀ a ∈ CacheNode.bucket j :: (g.bucket j).map .desc,
    a ∉ CacheNode.rfree :: g.free.map .desc :=
  notMem_nodes (fun _ => rfl) nofun (fun _ => nofun) (fun _ => nofun) fun x hx hx' =>
    h.free x j hx' hx

theorem free_notMem (j : ℕ) : ∀ a ∈ CacheNode.rfree :: g.free.map .desc,
    a ∉ CacheNode.bucket j :: (g.bucket j).map .desc :=
  notMem_nodes (fun _ => rfl) nofun (fun _ => nofun) (fun _ => nofun) fun x hx hx' =>
    h.free x j hx hx'

end Ledger.Apart

namespace Rings

variable (h : Rings g chain reclaimChain)

include h

theorem nodup_bucket (hi : i < ncacheHash) : (g.bucket i).Nodup := (h.bucket i hi).nodup.of_map _

theorem nodup_free : g.free.Nodup := h.free.nodup.of_map _

theorem nodup_reclaim : g.reclaim.Nodup := h.reclaim.nodup.of_map _

theorem put {e : BufEntry Thread} : Rings (g.put bp e) chain reclaimChain :=
  ⟨h.free, h.bucket, h.reclaim⟩

theorem linkRead (hapart : g.Apart) (hbp : g.Out bp) (hi : i < ncacheHash) :
    Rings (g.withBucket i (bp :: g.bucket i))
      (chain.enterFirst (.bucket i) (.desc bp)) reclaimChain := by
  refine ⟨?_, fun j hj => ?_, h.reclaim⟩
  · exact h.free.enterFirst_apart (hapart.notMem_free i) (h.bucket i hi)
      (desc_notMem (fun _ => nofun) hbp.free)
  · by_cases hij : j = i
    · subst hij
      simp only [withBucket, Function.update_self, map_cons]
      exact (h.bucket j hj).enterFirst (desc_notMem (fun _ => nofun) (hbp.bucket j))
    · simp only [withBucket, Function.update_of_ne hij]
      exact (h.bucket j hj).enterFirst_apart (hapart.notMem_bucket hij) (h.bucket i hi)
        (desc_notMem (fun _ => nofun) (hbp.bucket j))

theorem unlinkRead (hapart : g.Apart) (hbp : bp ∈ g.bucket i) (hi : i < ncacheHash) :
    Rings (g.withBucket i ((g.bucket i).erase bp)) (chain.remove (.desc bp)) reclaimChain := by
  have hmem : desc bp ∈ (g.bucket i).map desc := mem_map_of_mem hbp
  refine ⟨?_, fun j hj => ?_, h.reclaim⟩
  · exact h.free.remove_apart (hapart.notMem_free i) (h.bucket i hi) hmem
  · by_cases hij : j = i
    · subst hij
      have hring := h.bucket j hj
      have hnd := h.nodup_bucket hj
      obtain ⟨l₁, l₂, heq⟩ := append_of_mem hbp
      have hl₁ : bp ∉ l₁ := by
        rw [heq] at hnd
        grind
      rw [heq] at hring
      simp only [withBucket, Function.update_self, heq, erase_append_right _ hl₁, erase_cons_head]
      rw [map_append, map_cons] at hring
      rw [map_append]
      exact hring.remove
    · simp only [withBucket, Function.update_of_ne hij]
      exact (h.bucket j hj).remove_apart (hapart.notMem_bucket hij) (h.bucket i hi) hmem

theorem freeRead (hapart : g.Apart) (hbp : g.Out bp) :
    Rings (g.withFree (g.free ++ [bp])) (chain.enter .rfree (.desc bp)) reclaimChain := by
  refine ⟨?_, fun j hj => ?_, h.reclaim⟩
  · have hring : chain.Holds .rfree (g.free.map .desc ++ []) := by
      rw [append_nil]
      exact h.free
    obtain ⟨p, n, hgap⟩ := LinkRing.exists_gap CacheNode.rfree (g.free.map desc) []
    obtain rfl : n = .rfree := by simpa using hgap.mem_right
    have := hring.enter hgap (e := .desc bp) (by
      rw [append_nil]
      exact desc_notMem (fun _ => nofun) hbp.free)
    simpa [withFree] using this
  · exact (h.bucket j hj).enter_apart (hapart.free_notMem j) h.free
      (desc_notMem (fun _ => nofun) (hbp.bucket j))

theorem popFree {l : List ℕ} (hapart : g.Apart) (hl : g.free = bp :: l) :
    Rings (g.withFree l) (chain.removeFirst .rfree) reclaimChain := by
  have hring := h.free
  rw [hl, map_cons] at hring
  rw [hring.removeFirst_eq]
  have hsplit : chain.Holds .rfree ([] ++ .desc bp :: l.map .desc) := hring
  refine ⟨hsplit.remove, fun j hj => ?_, h.reclaim⟩
  exact (h.bucket j hj).remove_apart (hapart.free_notMem j) h.free (by simp [hl])

theorem linkReclaim (hbp : bp ∉ g.reclaim) : Rings (g.withReclaim (bp :: g.reclaim)) chain
    (reclaimChain.enterFirst none (some bp)) :=
  ⟨h.free, h.bucket, h.reclaim.enterFirst (by simp [hbp])⟩

theorem unlinkReclaim (hbp : bp ∈ g.reclaim) : Rings (g.withReclaim (g.reclaim.erase bp)) chain
    (reclaimChain.remove (some bp)) := by
  refine ⟨h.free, h.bucket, ?_⟩
  have hring := h.reclaim
  have hnd := h.nodup_reclaim
  obtain ⟨l₁, l₂, heq⟩ := append_of_mem hbp
  have hl₁ : bp ∉ l₁ := by
    rw [heq] at hnd
    grind
  rw [heq] at hring
  simp only [withReclaim, heq, erase_append_right _ hl₁, erase_cons_head]
  rw [map_append, map_cons] at hring
  rw [map_append]
  exact hring.remove

end Rings

end MachUS.Ufs
