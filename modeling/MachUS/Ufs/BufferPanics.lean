import MachUS.Ufs.BufferRuns

namespace MachUS.Ufs

open Relation Transition ReadPhase

namespace ReadPhase

variable {β : Type}

def reading : ReadPhase β → Option ℕ
  | .unhook bp (.give _) | .take bp _ | .wait bp _ | .woken bp _ => some bp
  | _ => none

def handling : ReadPhase β → Option ℕ
  | .strip _ _ bp | .fill _ _ bp | .link bp _ | .scan bp _ _ | .unhook bp (.discard _) | .free bp _ =>
    some bp
  | _ => none

end ReadPhase

inductive BufPlace (Thread : Type) where
  | free
  | bucket (i : ℕ)
  | tag
  | reader (t : Thread)
  | handler (t : Thread)
  deriving DecidableEq

namespace BufPlace

variable {Thread β : Type}

def Suits (d : BufDesc β) : BufPlace Thread → Prop
  | .free => d.state = .rfreeList
  | .bucket i => i = cacheHash d.range.blkno ∧ (d.state = .cachedNotValid ∨ d.state = .cachedValid ∨
      d.state = .mustFree ∨ d.state = .limbo)
  | .tag | .reader _ => d.state = .claimedNotValid ∨ d.state = .claimedValid ∨ d.state = .mustFree
  | .handler _ => True

def InHands : BufPlace Thread → Prop
  | .free | .bucket _ => False
  | _ => True

end BufPlace

namespace ReadCache

variable {Thread β : Type} (s : ReadCache Thread β)

def At (bp : ℕ) : BufPlace Thread → Prop
  | .free => s.chain.Reaches .rfree (.desc bp)
  | .bucket i => i < ncacheHash ∧ s.chain.Reaches (.bucket i) (.desc bp)
  | .tag => bp ∈ s.hits.map Prod.fst
  | .reader t => (s.phase t).reading = some bp
  | .handler t => (s.phase t).handling = some bp

structure Sound : Prop where
  place : ∀ bp p q, s.At bp p → s.At bp q → p = q
  state : ∀ bp p, s.At bp p → p.Suits (s.desc bp)
  claimed : ∀ bp < s.made, (s.desc bp).state = .claimedNotValid ∨ (s.desc bp).state = .claimedValid →
    ∃ p, s.At bp p ∧ p.InHands
  proper : s.record.misused = false
  asserted : s.record.failed = false

variable {s} {s' : ReadCache Thread β} {g : Ledger Thread} {t : Thread} {bp page : ℕ}

def Owner.place : Owner Thread → ℕ → Option (BufPlace Thread)
  | .unmade, _ => none
  | .free, _ => some .free
  | .linked, i | .thread _ .evicting, i | .thread _ .unlinking, i => some (.bucket i)
  | .hit, _ => some .tag
  | .thread t .giving, _ | .thread t .taking, _ => some (.reader t)
  | .thread t _, _ => some (.handler t)

def Role.Handler (r : Role) : Prop := r ≠ .evicting ∧ r ≠ .unlinking ∧ r ≠ .giving ∧ r ≠ .taking

theorem reading_iff {ph : ReadPhase β} : ph.reading = some bp ↔
    ph.role = some (bp, .giving) ∨ ph.role = some (bp, .taking) := by
  rcases ph
  case unhook bp k => cases k <;> simp [reading, role]
  all_goals simp [reading, role]

theorem handling_iff {ph : ReadPhase β} : ph.handling = some bp ↔
    ∃ r, ph.role = some (bp, r) ∧ Role.Handler r := by
  rcases ph
  case unhook bp k => cases k <;> simp [handling, role, Role.Handler]
  all_goals simp [handling, role, Role.Handler]

theorem place_handler {r : Role} {i : ℕ} (hr : Role.Handler r) :
    Owner.place (.thread t r) i = some (.handler t) := by
  obtain ⟨h₁, h₂, h₃, h₄⟩ := hr
  cases r <;> first | rfl | contradiction

theorem Inv.place (h : s.Inv g) {p : BufPlace Thread} (hp : s.At bp p) :
    Owner.place (g.entry bp).owner (s.bucketOf bp) = some p := by
  cases p with
  | free =>
    have hmem : bp ∈ g.free := by simpa using h.rings.free.reaches_iff.mp hp
    have howner : (g.entry bp).owner = .free := (h.settled bp).free.mp hmem
    simp [howner, Owner.place]
  | bucket i =>
    have hmem : bp ∈ g.bucket i := by simpa using (h.rings.bucket i hp.1).reaches_iff.mp hp.2
    obtain ⟨hin, rfl⟩ := h.hashed.mp hmem
    revert hin
    rcases (g.entry bp).owner with _ | _ | _ | _ | ⟨t', _ | _ | _ | (_ | _) | _ | _ | _ | _⟩ <;>
      simp [Owner.InHash, Owner.place]
  | tag =>
    have howner : (g.entry bp).owner = .hit := (h.settled bp).hit.mp hp
    simp [howner, Owner.place]
  | reader t => rcases reading_iff.mp hp with hrole | hrole <;> simp [h.owner hrole, Owner.place]
  | handler t =>
    obtain ⟨r, hrole, hr⟩ := handling_iff.mp hp
    rw [h.owner hrole, place_handler hr]

theorem Inv.suits (h : s.Inv g) {p : BufPlace Thread} (hp : s.At bp p) : p.Suits (s.desc bp) := by
  have hplace := h.place hp
  have hfits := (h.settled bp).fits
  simp only [view, BufEntry.Fits, Cached, Claimed] at hfits
  revert hplace hfits
  rcases (g.entry bp).owner with _ | _ | _ | _ | ⟨t', _ | _ | _ | (_ | _) | _ | _ | _ | _⟩ <;>
    simp only [Owner.place, Option.some.injEq, reduceCtorEq, false_implies] <;> rintro rfl hfits <;>
    simp only [BufPlace.Suits, bucketOf, true_and] <;> tauto

theorem Inv.claimed (h : s.Inv g) (hmade : bp < s.made)
    (hst : (s.desc bp).state = .claimedNotValid ∨ (s.desc bp).state = .claimedValid) :
    ∃ p, s.At bp p ∧ p.InHands := by
  have hset := h.settled bp
  have hfits := hset.fits
  simp only [view, BufEntry.Fits, Cached] at hfits
  have hunmade : (g.entry bp).owner ≠ .unmade := fun howner => by
    have := hset.unmade.mpr howner
    simp only [view] at this
    omega
  cases howner : (g.entry bp).owner with
  | unmade => exact absurd howner hunmade
  | free => rcases hst with hst | hst <;> simp [howner, hst] at hfits
  | linked => rcases hst with hst | hst <;> simp [howner, hst] at hfits
  | hit => exact ⟨.tag, hset.hit.mpr howner, trivial⟩
  | thread t r =>
    have hrole := (h.tokens.role t bp r).mpr howner
    have hin : r ≠ .evicting ∧ r ≠ .unlinking := by
      constructor <;> rintro rfl <;> rcases hst with hst | hst <;> simp [howner, hst] at hfits
    by_cases hreader : r = .giving ∨ r = .taking
    · refine ⟨.reader t, reading_iff.mpr ?_, trivial⟩
      rcases hreader with rfl | rfl
      · exact Or.inl hrole
      · exact Or.inr hrole
    · obtain ⟨hgiving, htaking⟩ := not_or.mp hreader
      exact ⟨.handler t, handling_iff.mpr ⟨r, hrole, hin.1, hin.2, hgiving, htaking⟩, trivial⟩

theorem Inv.sound (h : s.Inv g) (hcalm : ∀ t r, s.phase t ≠ .panicked r) : s.Sound where
  place := fun bp p q hp hq => Option.some.inj ((h.place hp).symm.trans (h.place hq))
  state := fun bp p hp => h.suits hp
  claimed := fun bp hmade hst => h.claimed hmade hst
  proper := h.proper
  asserted := by
    by_contra hne
    obtain ⟨t, r, hph⟩ := h.failed (by simpa using hne)
    exact hcalm t r hph

end ReadCache

open Relation Transition

namespace ReadCache

variable {Thread β : Type} [DecidableEq Thread] {s s' : ReadCache Thread β} {g : Ledger Thread}
  {t t' : Thread} {bp page : ℕ} {r r' : BlockRange} {ph : ReadPhase β} {c : ReadCall β}
  {e : ReadEvent Thread β}

theorem update_panicked {f : Thread → ReadPhase β} (h : Function.update f t ph t' = .panicked r)
    (hne : ∀ r, ph ≠ .panicked r) : f t' = .panicked r := by
  by_cases ht : t' = t
  · subst ht
    rw [Function.update_self] at h
    exact absurd h (hne r)
  · rwa [Function.update_of_ne ht] at h

theorem wakeup_panicked (h : (s.wakeup bp).phase t' = .panicked r) : s.phase t' = .panicked r := by
  rw [wakeup] at h
  cases hl : s.sleepers bp with
  | nil => rwa [hl] at h
  | cons t ts =>
    rw [hl] at h
    by_cases ht : t' = t
    · subst ht
      simp only [Function.update_self] at h
      cases hph : s.phase t' <;> rw [hph] at h <;> simp_all [rouse]
    · simpa [ht] using h

theorem resume_panicked {n : Next β} (h : (s.resume t n).phase t' = .panicked r) :
    s.phase t' = .panicked r := by
  cases n <;> exact update_panicked h nofun

theorem begin_panicked (hstep : s.begin t c = some s') (h : s'.phase t' = .panicked r) :
    s.phase t' = .panicked r := by
  cases c <;> simp only [ReadCache.begin] at hstep
  case setup => cases hstep; exact update_panicked h (by simp)
  case search => cases hstep; exact update_panicked h (by simp)
  case remove => cases hstep; exact update_panicked h (by simp)
  all_goals
    split at hstep
    case isFalse => cases hstep
    case isTrue =>
      try split at hstep
      all_goals
        cases hstep
        exact update_panicked h (by simp)

theorem receive_panicked (h : (s.receive page t bp r').phase t' = .panicked r) :
    s.phase t' = .panicked r := by
  simp only [receive] at h
  split at h
  case isTrue => split at h <;> exact update_panicked h (by simp)
  case isFalse => exact update_panicked h (by simp)

theorem abortRead_panicked {err : ℕ} {n : Next β}
    (h : (s.abortRead t bp err n).phase t' = .panicked r) : s.phase t' = .panicked r := by
  simp only [abortRead] at h
  split at h
  case isTrue => exact update_panicked h (by simp)
  case isFalse =>
    have hw := wakeup_panicked (resume_panicked h)
    exact hw

theorem finishRead_panicked {data : Option (List β)}
    (h : (s.finishRead t bp data).phase t' = .panicked r) : s.phase t' = .panicked r := by
  simp only [finishRead] at h
  split at h
  · exact update_panicked h (by simp)
  · have hw := wakeup_panicked (update_panicked h (by simp))
    exact hw
  · exact update_panicked h (by simp)

omit [DecidableEq Thread] in
theorem Inv.hashed_state (h : s.Inv g) {i : ℕ} (hmem : bp ∈ g.bucket i) :
    (s.desc bp).state = .cachedNotValid ∨ (s.desc bp).state = .cachedValid ∨
      (s.desc bp).state = .mustFree ∨ (s.desc bp).state = .limbo := by
  have hin := (h.hashed.mp hmem).1
  have hfits := (h.settled bp).fits
  simp only [view, BufEntry.Fits, Cached] at hfits
  revert hin hfits
  rcases (g.entry bp).owner with _ | _ | _ | _ | ⟨t', _ | _ | _ | (_ | _) | _ | _ | _ | _⟩ <;>
    simp only [Owner.InHash, false_implies] <;> tauto

theorem Inv.remove_panicked (h : s.Inv g) (hc : s.Clears (.go t)) {cur : CacheNode}
    (hph : s.phase t = .remove r' cur) (hstep : s.visitRemove t r' cur = some s')
    (hp : s'.phase t' = .panicked r) : s.phase t' = .panicked r := by
  cases cur with
  | rfree => cases hstep
  | bucket i => cases hstep
  | desc bp =>
    simp only [Clears, hph] at hc
    simp only [visitRemove] at hstep
    split at hstep
    case isFalse =>
      cases hstep
      exact update_panicked hp (by simp)
    case isTrue hcon =>
      rcases h.hashed_state (h.visited (Or.inr hph)) with hst | hst | hst | hst
      · rw [hst] at hstep
        cases hstep
        exact update_panicked hp (by simp)
      · rw [hst] at hstep
        cases hstep
        exact update_panicked hp (by simp)
      · rw [hst] at hstep
        cases hstep
        exact update_panicked hp (by simp)
      · exact absurd hst (hc hcon)

theorem Inv.proceed_panicked (h : s.Inv g) (hc : s.Clears (.go t))
    (hstep : s.proceed page t = some s') (hp : s'.phase t' = .panicked r) :
    s.phase t' = .panicked r := by
  simp only [ReadCache.proceed] at hstep
  cases hph : s.phase t <;> rw [hph] at hstep <;> simp only at hstep
  case idle => cases hstep
  case wait => cases hstep
  case panicked => cases hstep
  case acquire =>
    split at hstep <;> cases hstep <;> exact update_panicked hp (by simp)
  case tryReclaim =>
    split at hstep
    case isTrue => cases hstep
    case isFalse => split at hstep <;> cases hstep <;> exact update_panicked hp (by simp)
  case reclaim cur =>
    cases hstep
    cases cur with
    | none => exact update_panicked hp (by simp)
    | some bp =>
      simp only [visitReclaim] at hp
      split at hp <;> exact update_panicked hp (by simp)
  case scan bp why cur =>
    split at hstep
    case isTrue =>
      cases hstep
      exact update_panicked hp (by simp)
    case isFalse =>
      cases cur <;> simp only [visitScan] at hstep
      case desc => split at hstep <;> cases hstep <;> exact update_panicked hp (by simp)
      all_goals cases hstep
  case search cur =>
    split at hstep
    case isTrue =>
      cases hstep
      exact update_panicked hp (by simp)
    case isFalse =>
      cases cur <;> simp only [visitSearch] at hstep
      case desc => split at hstep <;> cases hstep <;> exact update_panicked hp (by simp)
      all_goals cases hstep
  case remove =>
    split at hstep
    case isTrue =>
      cases hstep
      exact update_panicked hp (by simp)
    case isFalse => exact h.remove_panicked hc hph hstep hp
  case strip =>
    cases hstep
    exact update_panicked hp (by simp)
  case fill =>
    cases hstep
    exact update_panicked hp (by simp)
  case take =>
    cases hstep
    simp only [ReadCache.takeData] at hp
    split at hp
    case isTrue => exact update_panicked hp (by simp)
    case isFalse =>
      have hphase := receive_panicked hp
      exact hphase
  case woken =>
    cases hstep
    have hphase := receive_panicked hp
    exact hphase
  case abort =>
    cases hstep
    exact abortRead_panicked hp
  case finish =>
    cases hstep
    exact finishRead_panicked hp
  case free =>
    cases hstep
    have hphase := resume_panicked hp
    exact hphase
  case hook why =>
    obtain ⟨-, rfl⟩ := blocked_else hstep
    cases why <;> exact update_panicked hp (by simp)
  case unhook k =>
    obtain ⟨-, rfl⟩ := blocked_else hstep
    cases k <;> exact update_panicked hp (by simp)
  all_goals
    obtain ⟨-, rfl⟩ := blocked_else hstep
    exact update_panicked hp (by simp)

def Guarded (s : ReadCache Thread β) (e : ReadEvent Thread β) : Prop :=
  e.InRegion ∧ s.Heeds e ∧ s.Clears e

instance [Fintype Thread] [DecidableEq β] (s : ReadCache Thread β) (e : ReadEvent Thread β) :
    Decidable (s.Guarded e) := inferInstanceAs (Decidable (_ ∧ _ ∧ _))

def next (page : ℕ) (s : ReadCache Thread β) (e : ReadEvent Thread β) :
    Option (ReadCache Thread β) := s.step page e

def Calm (s : ReadCache Thread β) : Prop := s.Sane ∧ ∀ t r, s.phase t ≠ .panicked r

theorem Calm.step (h : s.Calm) (hk : s.Guarded e) (hstep : s.step page e = some s') : s'.Calm := by
  obtain ⟨hr, hm, hc⟩ := hk
  refine ⟨h.1.step hr hm hstep, fun t' r hp => ?_⟩
  obtain ⟨⟨g, hinv, -⟩, hcalm⟩ := h
  cases e with
  | call t c =>
    simp only [ReadCache.step] at hstep
    cases hph : s.phase t <;> rw [hph] at hstep
    case idle => exact hcalm t' r (begin_panicked hstep hp)
    all_goals cases hstep
  | go t => exact hcalm t' r (hinv.proceed_panicked hc hstep hp)

theorem buffers_sound (page : ℕ) (desc : ℕ → BufDesc β) (chain : LinkRing CacheNode)
    (reclaimChain : LinkRing (Option ℕ)) (hrun : ReflTransGen (Under (next page) Guarded)
      (cacheInit desc chain reclaimChain : ReadCache Thread β) s) : s.Sound := by
  have hstart : (cacheInit desc chain reclaimChain : ReadCache Thread β).Calm := by
    refine ⟨cacheInit_sane desc chain reclaimChain, fun t r hph => ?_⟩
    rw [(starting desc chain reclaimChain).idle] at hph
    cases hph
  have hcalm : s.Calm := invariant (fun _ _ _ h hk hstep => h.step hk hstep) hrun hstart
  obtain ⟨⟨g, hinv, -⟩, hcalm⟩ := hcalm
  exact hinv.sound hcalm

end ReadCache

namespace BufferSample

open ReadCache

def memory : ℕ → BufDesc Unit := fun _ => ⟨⟨0, 0, 0⟩, 0, none, .rfreeList, 0⟩

def boot : ReadCache (Fin 2) Unit := cacheInit memory ⟨id, id⟩ ⟨id, id⟩

def go (t : Fin 2) (n : ℕ) : List (ReadEvent (Fin 2) Unit) := List.replicate n (.go t)

def eight : BlockRange := ⟨0, 0, 8⟩

def four : BlockRange := ⟨0, 0, 4⟩

def partialHit : List (ReadEvent (Fin 2) Unit) :=
  .call 0 (.setup eight 512) :: go 0 5 ++ .call 1 (.search four) :: go 1 3 ++
    .call 1 (.getData 0 four) :: .go 1 ::
    .call 0 (.finish 0 (some (List.replicate 8 ())) 4096) :: .go 0 :: go 1 4 ++
    .call 0 (.remove ⟨0, 4, 2⟩) :: go 0 6

def shortFinish : List (ReadEvent (Fin 2) Unit) :=
  .call 0 (.setup eight 512) :: go 0 5 ++ .call 0 (.finish 0 (some []) 0) :: go 0 5

end BufferSample

open BufferSample ReadCache

theorem buffers_sound_partial_hit : ∃ s, exec (next 2048) boot partialHit = some s ∧
    (s.desc 0).state = .rfreeList ∧ s.Sound := by
  obtain ⟨s, hexec, htest⟩ := exec_of_check (by decide +kernel :
    check (next 2048) boot partialHit (fun s => (s.desc 0).state = .rfreeList) = true)
  exact ⟨s, hexec, by simpa using htest,
    buffers_sound 2048 _ _ _ (run_of_exec (by decide +kernel) hexec)⟩

theorem short_finish_fails : ∃ s, ReflTransGen (Under (next 4096) fun _ e => e.InRegion) boot s ∧
    ¬s.Sound := by
  obtain ⟨s, hexec, htest⟩ := exec_of_check (by decide +kernel :
    check (next 4096) boot shortFinish (fun s => s.record.failed) = true)
  refine ⟨s, run_of_exec (by decide +kernel) hexec, fun hsound => ?_⟩
  simp [hsound.asserted] at htest

end MachUS.Ufs
