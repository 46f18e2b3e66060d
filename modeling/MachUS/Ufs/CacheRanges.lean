import MachUS.Ufs.BufferPanics
import MachUS.Ufs.PendingWrites

namespace MachUS.Ufs

open Relation Transition WriteList List

namespace WriteList

variable {Thread β : Type} [DecidableEq Thread] {s s' : WriteList Thread β}
  {own : ℕ → WriteOwner Thread} {e : WriteEvent Thread β}

theorem Inv.step (h : s.Inv own) (hstep : s.step e = some s') : ∃ own', s'.Inv own' := by
  cases e with
  | call t c =>
    simp only [step] at hstep
    cases hph : s.phase t <;> rw [hph] at hstep
    case idle last =>
      cases c with
      | setup r blksize data =>
        cases hstep
        exact ⟨own, h.goto hph rfl rfl nofun nofun⟩
      | detect r wait =>
        cases hstep
        exact ⟨own, h.goto hph rfl rfl nofun nofun⟩
      | finish bp count =>
        simp only [begin] at hstep
        split at hstep
        case isTrue hmem =>
          cases hstep
          exact ⟨_, h.report hph hmem⟩
        case isFalse => cases hstep
      | abort bp =>
        simp only [begin] at hstep
        split at hstep
        case isTrue hmem =>
          cases hstep
          exact ⟨_, h.report hph hmem⟩
        case isFalse => cases hstep
    all_goals cases hstep
  | go t =>
    simp only [step, proceed] at hstep
    cases hph : s.phase t <;> rw [hph] at hstep <;> simp only at hstep
    case acquire =>
      cases hstep
      exact h.acquire hph
    case insert =>
      cases hstep
      exact h.insert hph
    case detect =>
      cases hstep
      exact ⟨own, h.detect hph⟩
    case finish =>
      cases hstep
      exact h.unlink hph
    case free =>
      cases hstep
      exact h.release hph
    all_goals cases hstep

def initOwner (Thread : Type) (n x : ℕ) : WriteOwner Thread := if x < n then .free else .unmade

omit [DecidableEq Thread] in
theorem initOwner_iff (n x : ℕ) : (initOwner Thread n x = .free ↔ x < n) ∧
    (initOwner Thread n x = .unmade ↔ n ≤ x) ∧ ¬(initOwner Thread n x).Pending ∧
    initOwner Thread n x ≠ .opened ∧ ∀ t, initOwner Thread n x ≠ .thread t ∧
      initOwner Thread n x ≠ .finishing t := by
  by_cases hx : x < n
  · simp [initOwner, hx, WriteOwner.Pending]
  · simp [initOwner, hx, WriteOwner.Pending, not_lt.mp hx]

omit [DecidableEq Thread] in
theorem init_inv (desc : ℕ → BufDesc β) :
    (init desc : WriteList Thread β).Inv (initOwner Thread initialWriteBufs) := by
  rw [init]
  generalize initialWriteBufs = n
  refine ⟨fun x => ?_, fun x => ?_, fun x => ?_, fun x => ?_, fun t x => ?_, fun t x => ?_,
    nodup_range, nodup_nil, nodup_nil, nofun, nofun, nofun⟩
  · rw [(initOwner_iff n x).1]
    exact mem_range
  · exact iff_of_false not_mem_nil (initOwner_iff n x).2.2.1
  · exact iff_of_false not_mem_nil (initOwner_iff n x).2.2.2.1
  · exact (initOwner_iff n x).2.1.symm
  · exact iff_of_false nofun ((initOwner_iff n x).2.2.2.2 t).1
  · exact iff_of_false nofun ((initOwner_iff n x).2.2.2.2 t).2

end WriteList

structure DataCache (Thread β : Type) where
  read : ReadCache Thread β
  write : WriteList Thread β

inductive CacheEvent (Thread β : Type) where
  | read (e : ReadEvent Thread β)
  | write (e : WriteEvent Thread β)

namespace DataCache

variable {Thread β : Type} (s : DataCache Thread β)

def next [DecidableEq Thread] (page : ℕ) (s : DataCache Thread β) :
    CacheEvent Thread β → Option (DataCache Thread β)
  | .read e => (s.read.next page e).map fun r => ⟨r, s.write⟩
  | .write e => (s.write.step e).map fun w => ⟨s.read, w⟩

def InRegion (_ : DataCache Thread β) : CacheEvent Thread β → Prop
  | .read e => e.InRegion
  | .write (.call _ (.setup r _ _)) | .write (.call _ (.detect r _)) => r.InRegion
  | .write _ => True

def Heeds : CacheEvent Thread β → Prop
  | .read e => s.read.Heeds e
  | .write _ => True

instance : ∀ e : CacheEvent Thread β, Decidable (s.InRegion e)
  | .read e => inferInstanceAs (Decidable e.InRegion)
  | .write (.call _ (.setup r _ _)) | .write (.call _ (.detect r _)) =>
    inferInstanceAs (Decidable r.InRegion)
  | .write (.call _ (.finish _ _)) | .write (.call _ (.abort _)) | .write (.go _) => isTrue trivial

instance [Fintype Thread] [DecidableEq β] : ∀ e : CacheEvent Thread β, Decidable (s.Heeds e)
  | .read e => inferInstanceAs (Decidable (s.read.Heeds e))
  | .write _ => isTrue trivial

def Linked (i bp : ℕ) : Prop := i < ncacheHash ∧ s.read.chain.Reaches (.bucket i) (.desc bp)

structure Disjoint [DecidableEq Thread] : Prop where
  region : ∀ i bp, s.Linked i bp → ∀ k ∈ (s.read.desc bp).range.blocks, cacheHash k = i ∧
    k / cacheBlksPerRegion = (s.read.desc bp).range.blkno / cacheBlksPerRegion
  linked : ∀ i j x y, s.Linked i x → s.Linked j y → x ≠ y →
    (s.read.desc x).range.Apart (s.read.desc y).range
  pending : ∀ x ∈ s.write.pending, ∀ y ∈ s.write.pending, x ≠ y →
    (s.write.desc x).range.Apart (s.write.desc y).range
  waiting : ∀ t x r, (s.write.phase t).waiting = some (x, r) →
    x ∈ s.write.pending ∧ (s.write.desc x).range.Conflicts r
  wakes : ∀ t t' bp r, s.write.phase t = .finish bp → (s.write.phase t').waiting = some (bp, r) →
    ((s.write.unlink t bp).phase t').waiting = none
  clear : ∀ t r wait, (s.write.detect t r wait).phase t = .idle (.detect false) →
    ∀ x ∈ s.write.pending, (s.write.desc x).range.Apart r

variable {s} [DecidableEq Thread] {g : Ledger Thread} {own : ℕ → WriteOwner Thread}

omit [DecidableEq Thread] in
theorem linked_iff (h : s.read.Inv g) {i bp : ℕ} : s.Linked i bp ↔
    i < ncacheHash ∧ bp ∈ g.bucket i := by
  refine and_congr_right fun hi => ?_
  rw [(h.rings.bucket i hi).reaches_iff]
  simp

theorem rouse_done {ph : WritePhase β} {bp : ℕ} {r : BlockRange} (h : ph.waiting = some (bp, r)) :
    (ph.rouse bp).waiting = none := by
  cases ph <;> cases h <;> simp [WritePhase.rouse, WritePhase.waiting]

theorem detect_clear {w : WriteList Thread β} {t : Thread} {r : BlockRange} {wait : Bool}
    (h : (w.detect t r wait).phase t = .idle (.detect false)) :
    ∀ x ∈ w.pending, (w.desc x).range.Apart r := by
  rw [detect] at h
  cases hc : w.conflict r with
  | none => exact fun x hx => BlockRange.apart_of_not_conflicts (conflict_none hc hx)
  | some on =>
    rw [hc] at h
    dsimp only at h
    split at h <;> simp at h

theorem Inv.disjoint (h : s.read.Inv g) (hw : s.write.Inv own) : s.Disjoint where
  region i bp hl := by
    obtain ⟨hi, hmem⟩ := (linked_iff h).mp hl
    obtain ⟨hin, rfl⟩ := h.hashed.mp hmem
    have hregion := h.inRegion (ranged_of_inHash hin)
    intro k hk
    have hblock := hregion.block hk
    refine ⟨?_, hblock⟩
    rw [ReadCache.bucketOf, cacheHash, cacheHash, hblock]
  linked i j x y hx hy hxy :=
    h.apart x y hxy (h.hashed.mp ((linked_iff h).mp hx).2).1 (h.hashed.mp ((linked_iff h).mp hy).2).1
  pending := hw.apart
  waiting := hw.waiting
  wakes t t' bp r hph hwait := by
    have hne : t' ≠ t := by
      rintro rfl
      rw [hph] at hwait
      cases hwait
    simp only [unlink, Function.update_of_ne hne]
    exact rouse_done hwait
  clear _ _ _ := detect_clear

theorem cache_disjoint (page : ℕ) (desc wdesc : ℕ → BufDesc β) (chain : LinkRing CacheNode)
    (reclaimChain : LinkRing (Option ℕ))
    (hrun : ReflTransGen (Under (next page) fun s e => s.InRegion e ∧ s.Heeds e)
      (⟨.cacheInit desc chain reclaimChain, .init wdesc⟩ : DataCache Thread β) s) : s.Disjoint := by
  have hinv : s.read.Sane ∧ ∃ own, s.write.Inv own := by
    refine invariant (I := fun s => s.read.Sane ∧ ∃ own, s.write.Inv own) ?_ hrun
      ⟨ReadCache.cacheInit_sane desc chain reclaimChain, _, init_inv wdesc⟩
    rintro s e s' ⟨hread, own, hwrite⟩ ⟨hr, hm⟩ hstep
    cases e with
    | read e =>
      obtain ⟨r, hr', rfl⟩ := Option.map_eq_some_iff.mp hstep
      exact ⟨hread.step hr hm hr', own, hwrite⟩
    | write e =>
      obtain ⟨w, hw', rfl⟩ := Option.map_eq_some_iff.mp hstep
      exact ⟨hread, hwrite.step hw'⟩
  obtain ⟨⟨g, hread, -⟩, own, hwrite⟩ := hinv
  exact Inv.disjoint hread hwrite

end DataCache

namespace RangeSample

open BufferSample

def boot : DataCache (Fin 2) Unit := ⟨BufferSample.boot, .init memory⟩

def writing (t : Fin 2) (n : ℕ) : List (CacheEvent (Fin 2) Unit) := replicate n (.write (.go t))

def rivals : List (CacheEvent (Fin 2) Unit) :=
  .write (.call 0 (.setup eight 512 none)) :: writing 0 2 ++
    .write (.call 1 (.setup four 512 none)) :: writing 1 2 ++
    .write (.call 0 (.finish 0 4096)) :: writing 0 2 ++ writing 1 1 ++
    .write (.call 0 (.detect eight false)) :: writing 0 1

def region (i : ℕ) : BlockRange := ⟨0, 128 * i, 8⟩

def setUp (t : Fin 2) (i : ℕ) : List (ReadEvent (Fin 2) Unit) :=
  .call t (.setup (region i) 512) :: go t 5

def recycled : List (ReadEvent (Fin 2) Unit) :=
  (range 32).flatMap (setUp 0) ++ .call 0 (.finish 31 (some []) 0) :: go 0 5 ++
    .call 1 (.setup (region 32) 512) :: go 1 2 ++ go 0 1 ++ go 1 3 ++ go 0 2 ++
    .call 1 (.setup (region 33) 512) :: go 1 2

end RangeSample

open RangeSample DataCache

theorem cache_disjoint_rivals : ∃ s, exec (next 2048) boot
    (BufferSample.partialHit.map .read ++ rivals) = some s ∧ s.write.pending = [1] ∧ s.Disjoint := by
  obtain ⟨s, hexec, htest⟩ := exec_of_check (by decide +kernel : check (next 2048) boot
    (BufferSample.partialHit.map .read ++ rivals) (fun s => s.write.pending = [1]) = true)
  exact ⟨s, hexec, by simpa using htest,
    cache_disjoint 2048 _ _ _ _ (run_of_exec (by decide +kernel) hexec)⟩

theorem recycled_buffer_misplaced : ∃ s,
    ReflTransGen (Under (next 4096) InRegion) boot s ∧ ¬s.Disjoint := by
  obtain ⟨s, hexec, htest⟩ := exec_of_check (by decide +kernel : check (next 4096) boot
    (recycled.map .read) (fun s => s.read.chain.next (.bucket 26) = .desc 31 ∧
      (s.read.desc 31).range = region 33) = true)
  simp only [decide_eq_true_eq] at htest
  refine ⟨s, run_of_exec (by decide +kernel) hexec, fun hdisjoint => ?_⟩
  have hlinked : s.Linked 26 31 := by
    refine ⟨by decide, 0, htest.1, fun j hj => ?_⟩
    obtain rfl : j = 0 := by omega
    rw [Function.iterate_one, htest.1]
    nofun
  have hhash := (hdisjoint.region 26 31 hlinked (128 * 33) (by rw [htest.2]; decide)).1
  revert hhash
  decide

end MachUS.Ufs
