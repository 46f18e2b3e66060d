import MachUS.Ufs.BufferMachine

namespace MachUS.Ufs

open Relation Transition ReadCache ReadPhase List

def ReadEvent.InRegion {Thread β : Type} : ReadEvent Thread β → Prop
  | .call _ c => c.InRegion
  | .go _ => True

instance {β : Type} : ∀ c : ReadCall β, Decidable c.InRegion
  | .setup r _ | .remove r => inferInstanceAs (Decidable r.InRegion)
  | .search _ | .getData _ _ | .finish _ _ _ | .abort _ _ => isTrue trivial

instance {Thread β : Type} : ∀ e : ReadEvent Thread β, Decidable e.InRegion
  | .call _ c => inferInstanceAs (Decidable c.InRegion)
  | .go _ => isTrue trivial

namespace ReadCache

variable {Thread β : Type} (s : ReadCache Thread β)

def Heeds : ReadEvent Thread β → Prop
  | .call _ (.finish bp data count) => count = (s.desc bp).bytes ∧ data ≠ none
  | .call _ _ => True
  | .go t =>
    match s.phase t with
    | .unhook bp _ => ∀ t', (s.phase t').halfLinked ≠ some bp
    | _ => True

def Clears : ReadEvent Thread β → Prop
  | .call _ _ => True
  | .go t =>
    match s.phase t with
    | .remove r (.desc bp) => (s.desc bp).range.Conflicts r → (s.desc bp).state ≠ .limbo
    | _ => True

instance [Fintype Thread] [DecidableEq β] (e : ReadEvent Thread β) : Decidable (s.Heeds e) := by
  rw [Heeds.eq_def]
  split
  · infer_instance
  · infer_instance
  · split <;> infer_instance

instance (e : ReadEvent Thread β) : Decidable (s.Clears e) := by
  rw [Clears.eq_def]
  split
  · infer_instance
  · split <;> infer_instance

variable {s} [DecidableEq Thread] {s' : ReadCache Thread β} {g : Ledger Thread} {t : Thread}
  {bp page : ℕ} {n : ReadEvent Thread β} {k : Unhooking β} {c : ReadCall β} {reply : ReadReply β}

omit [DecidableEq Thread] in
theorem Inv.hooked_in (h : s.Inv g) (hn : ∀ t', (s.phase t').halfLinked ≠ some bp) :
    (g.entry bp).hooker = none := by
  by_contra hne
  obtain ⟨⟨t', f⟩, hhook⟩ := Option.ne_none_iff_exists'.mp hne
  have hphase := (h.tokens.hooking t' bp f).mpr hhook
  apply hn t'
  cases hph : s.phase t' <;> rw [hph] at hphase <;> simp [hooking] at hphase
  simp [halfLinked, hphase]

theorem Inv.unhook (h : s.Inv g) (ha : s.Alert) (hph : s.phase t = .unhook bp k)
    (hn : ∀ t', (s.phase t').halfLinked ≠ some bp) (hfree : s.reclaimLock = none) :
    (s.unhooked t bp k).Sane := by
  cases k with
  | give r => exact h.unhooked_give ha hph hfree (h.hooked_in hn)
  | discard n => exact h.unhooked_discard ha hph hfree (h.hooked_in hn)

theorem Inv.begin (h : s.Inv g) (ha : s.Alert) (hph : s.phase t = .idle reply) (hr : c.InRegion)
    (hm : s.Heeds (.call t c)) (hstep : s.begin t c = some s') : s'.Sane := by
  cases c with
  | setup r blksize =>
    cases hstep
    exact h.move ha hph trivial trivial rfl rfl rfl hr nofun
  | search r =>
    cases hstep
    exact h.move ha hph trivial trivial rfl rfl rfl trivial nofun
  | getData bp r =>
    simp only [begin] at hstep
    split at hstep
    case isTrue hmem =>
      cases hstep
      exact h.begin_take ha hph hmem
    case isFalse => cases hstep
  | finish bp data count =>
    obtain ⟨hcount, hdata⟩ := hm
    simp only [begin] at hstep
    split at hstep
    case isTrue hmem =>
      rw [if_neg (by simp [hcount, hdata])] at hstep
      cases hstep
      exact h.begin_report ha hph hmem rfl rfl rfl trivial
    case isFalse => cases hstep
  | abort bp err =>
    simp only [begin] at hstep
    split at hstep
    case isTrue hmem =>
      cases hstep
      exact h.begin_report ha hph hmem rfl rfl rfl trivial
    case isFalse => cases hstep
  | remove r =>
    simp only [begin] at hstep
    have hin : r.InRegion := hr
    rw [assert_true (by simpa using hin)] at hstep
    cases hstep
    exact h.move ha hph trivial trivial rfl rfl rfl trivial nofun

omit [DecidableEq Thread] in
theorem blocked_else {o : Option Thread} [Decidable (o ≠ none)] {x : ReadCache Thread β}
    (h : (if o ≠ none then none else some x) = some s') : o = none ∧ x = s' := by
  split at h
  case isTrue => cases h
  case isFalse hfree =>
    cases h
    exact ⟨not_not.mp hfree, rfl⟩

theorem Inv.proceed (h : s.Inv g) (ha : s.Alert) (hm : s.Heeds (.go t))
    (hstep : s.proceed page t = some s') : s'.Sane := by
  cases hph : s.phase t
  case acquire => exact h.acquire ha hph hstep
  case tryReclaim => exact h.tryReclaim ha hph hstep
  case scan => exact h.scan ha hph hstep
  case search => exact h.search ha hph hstep
  case remove => exact h.remove ha hph hstep
  all_goals simp only [ReadCache.proceed, hph] at hstep
  case idle => cases hstep
  case wait => cases hstep
  case panicked => cases hstep
  case reclaim =>
    cases hstep
    exact h.reclaim ha hph
  case evict =>
    obtain ⟨hfree, rfl⟩ := blocked_else hstep
    exact h.evict ha hph hfree
  case strip =>
    cases hstep
    exact h.strip ha hph
  case fill =>
    cases hstep
    exact h.fill ha hph
  case unhook =>
    simp only [Heeds, hph] at hm
    obtain ⟨hfree, rfl⟩ := blocked_else hstep
    exact h.unhook ha hph hm hfree
  case link =>
    obtain ⟨hfree, rfl⟩ := blocked_else hstep
    exact h.link ha hph hfree
  case hook =>
    obtain ⟨hfree, rfl⟩ := blocked_else hstep
    exact h.hooked ha hph hfree
  case lookup =>
    obtain ⟨hfree, rfl⟩ := blocked_else hstep
    exact h.enter_bucket ha hph trivial rfl rfl rfl trivial (by simp) rfl rfl rfl hfree
      ⟨[], h.first (cacheHash_lt _)⟩
  case take =>
    cases hstep
    exact h.takeData ha hph
  case woken =>
    cases hstep
    exact h.wakeData ha hph
  case abort =>
    cases hstep
    exact h.abortRead ha hph
  case unlink =>
    obtain ⟨hfree, rfl⟩ := blocked_else hstep
    exact h.unlink ha hph hfree
  case finish =>
    cases hstep
    exact h.finishRead ha hph
  case free =>
    cases hstep
    exact h.free ha hph
  case clear =>
    obtain ⟨hfree, rfl⟩ := blocked_else hstep
    exact h.enter_bucket ha hph trivial rfl rfl rfl trivial (by simp) rfl rfl rfl hfree
      ⟨[], h.first (cacheHash_lt _)⟩

theorem Sane.step (h : s.Sane) {e : ReadEvent Thread β} (hr : e.InRegion) (hm : s.Heeds e)
    (hstep : s.step page e = some s') : s'.Sane := by
  obtain ⟨g, hinv, ha⟩ := h
  cases e with
  | call t c =>
    simp only [ReadCache.step] at hstep
    cases hph : s.phase t <;> rw [hph] at hstep
    case idle reply => exact hinv.begin ha hph hr hm hstep
    all_goals cases hstep
  | go t => exact hinv.proceed ha hm hstep

end ReadCache

namespace ReadCache

variable {Thread β : Type} [DecidableEq Thread] {s : ReadCache Thread β} {g : Ledger Thread}

theorem init_apart {α : Type} [DecidableEq α] {r : LinkRing α} {head head' : α} {l : List α}
    (h : r.Holds head l) (hne : head' ∉ head :: l) : (r.init head').Holds head l := by
  refine h.frame (fun a ha => Function.update_of_ne ?_ _ _) fun a ha =>
    Function.update_of_ne ?_ _ _ <;> exact ne_of_mem_of_not_mem ha hne

theorem heads_hold (chain : LinkRing CacheNode) (n : ℕ) :
    ((range n).foldl (fun c i => c.init (.bucket i)) (chain.init .rfree)).Holds .rfree [] ∧
      ∀ i < n, ((range n).foldl (fun c i => c.init (.bucket i)) (chain.init .rfree)).Holds
        (.bucket i) [] := by
  induction n with
  | zero => exact ⟨LinkRing.init_holds _ _, nofun⟩
  | succ n ih =>
    rw [range_succ, foldl_append]
    refine ⟨init_apart ih.1 (by simp), fun i hi => ?_⟩
    by_cases hin : i = n
    · subst hin
      exact LinkRing.init_holds _ _
    · exact init_apart (ih.2 i (by omega)) (by simpa using Ne.symm hin)

def startLedger (Thread : Type) (n : ℕ) : Ledger Thread where
  entry x := ⟨if x < n then .free else .unmade, none, .none⟩
  free := range n
  bucket _ := []
  reclaim := []

structure Starting (s : ReadCache Thread β) (n : ℕ) : Prop where
  inv : s.Inv (startLedger Thread n)
  made : s.made = n
  idle : ∀ t, s.phase t = .idle .none

omit [DecidableEq Thread] in
theorem startLedger_owner (Thread : Type) (n x : ℕ) : ((startLedger Thread n).entry x).owner = .free ∨
    ((startLedger Thread n).entry x).owner = .unmade := by
  simp only [startLedger]
  split <;> simp

omit [DecidableEq Thread] in
theorem idle_tokens (n : ℕ) (hidle : ∀ t, s.phase t = .idle .none) :
    s.Tokens (startLedger Thread n) := by
  constructor
  · intro t bp r
    rw [hidle]
    rcases startLedger_owner Thread n bp with howner | howner <;> simp [howner, role]
  · intro t bp f
    rw [hidle]
    simp [startLedger, hooking]
  · intro t bp
    rw [hidle]
    simp [startLedger, operating]

omit [DecidableEq Thread] in
theorem Starting.makeFree {n : ℕ} (h : s.Starting n) : s.makeFree.Starting (n + 1) := by
  obtain ⟨h, rfl, hidle⟩ := h
  have hset := h.settled s.made
  have hasleep : s.sleepers s.made = [] := h.asleep (by simp [startLedger])
  have hproper : s.record.freed s.made = false ∧ s.record.linked s.made = false ∧
      s.made ∉ s.opened := by
    have hfreed := hset.freed
    have hlinked := hset.linked
    have hopened := hset.opened
    simp only [view, startLedger, Owner.InHash] at hfreed hlinked hopened
    exact ⟨by simpa using hfreed, by simpa using hlinked, by simpa using hopened⟩
  have hout : (startLedger Thread s.made).Out s.made :=
    ⟨by simp [startLedger], by simp [startLedger]⟩
  have hrings := h.rings.freeRead h.listsApart hout
  have hdesc {x : ℕ} (hx : x ≠ s.made) : s.makeFree.desc x = s.desc x := by
    simp [ReadCache.makeFree, freeRead, hx]
  have hthreads := h.threads
  refine ⟨⟨⟨?_, hrings.bucket, hrings.reclaim⟩, fun x => ?_, idle_tokens _ hidle,
    ⟨fun i t => ?_, fun t => ?_, fun t => ?_, fun t => ?_, hthreads.sleeping, hthreads.sleepers⟩,
    fun x hx => ?_, h.openedOnce, h.hitsOnce, fun x y _ hin => ?_, ?_, h.failed⟩, rfl, hidle⟩
  · have hfree := hrings.free
    simp only [startLedger, Ledger.withFree, ← range_succ] at hfree
    exact hfree
  · by_cases hx : x = s.made
    · subst hx
      obtain ⟨hfree, hbucket, hfits, hunmade, hopened, hhit, hlinked, hlisted, hfreed, hregion⟩ := hset
      constructor <;> simp_all [view, startLedger, BufEntry.Fits, ReadCache.makeFree, freeRead,
        Owner.InHash, Owner.Ranged]
    · have hlt : x < s.made + 1 ↔ x < s.made := by omega
      have hle : s.made + 1 ≤ x ↔ s.made ≤ x := by omega
      have hentry : (startLedger Thread (s.made + 1)).entry x = (startLedger Thread s.made).entry x := by
        simp only [startLedger, hlt]
      have hlisted : x ∈ range (s.made + 1) ↔ x ∈ range s.made := by
        rw [mem_range, mem_range, hlt]
      have hsame : s.makeFree.view (startLedger Thread (s.made + 1)) x =
          s.view (startLedger Thread s.made) x := by
        refine view_eq (hdesc hx) hentry hlisted (fun _ => Iff.rfl) Iff.rfl hle ?_ ?_ ?_ ?_ ?_ <;>
          simp [ReadCache.makeFree, freeRead, hx]
      rw [hsame]
      exact h.settled x
  · have hhash := h.threads.hash i t
    rw [hidle] at hhash
    exact (hidle t) ▸ hhash
  · exact h.threads.reclaim t
  · change s.makeFree.Placed _ (s.phase t)
    rw [hidle]
    trivial
  · exact h.threads.plain t
  · have hne : x ≠ s.made := by
      rintro rfl
      exact hx hasleep
    rw [hdesc hne]
    exact h.awake x hx
  · rcases startLedger_owner Thread (s.made + 1) x with howner | howner <;>
      simp [howner, Owner.InHash] at hin
  · have hp := h.proper
    simp [ReadCache.makeFree, freeRead, hproper, hp]

omit [DecidableEq Thread] in
theorem starting (desc : ℕ → BufDesc β) (chain : LinkRing CacheNode)
    (reclaimChain : LinkRing (Option ℕ)) :
    (cacheInit desc chain reclaimChain : ReadCache Thread β).Starting initialReadBufs := by
  rw [cacheInit]
  induction initialReadBufs with
  | zero =>
    obtain ⟨hfree, hbuckets⟩ := heads_hold chain ncacheHash
    refine ⟨⟨⟨hfree, hbuckets, LinkRing.init_holds _ _⟩, fun x => ?_, idle_tokens 0 fun _ => rfl,
      ?_, nofun, nodup_nil, nodup_nil, nofun, rfl, nofun⟩, rfl, fun _ => rfl⟩
    · constructor <;> simp [view, startLedger, BufEntry.Fits, Owner.InHash, Owner.Ranged]
    · refine ⟨?_, ?_, fun _ => trivial, fun _ => trivial, ?_, fun _ => nodup_nil⟩ <;>
        simp [lockOf, reclaiming, sleeping]
  | succ n ih =>
    rw [Function.iterate_succ_apply']
    exact ih.makeFree

omit [DecidableEq Thread] in
theorem cacheInit_sane (desc : ℕ → BufDesc β) (chain : LinkRing CacheNode)
    (reclaimChain : LinkRing (Option ℕ)) :
    (cacheInit desc chain reclaimChain : ReadCache Thread β).Sane := by
  obtain ⟨h, -, hidle⟩ := @starting Thread _ desc chain reclaimChain
  refine ⟨_, h, fun x t r hph => ?_⟩
  rw [hidle] at hph
  cases hph

end ReadCache

end MachUS.Ufs
