import MachUS.Ufs.ReadBuffers

namespace MachUS.Ufs

open List

def initialWriteBufs : ℕ := 256

inductive WriteReply where
  | none
  | setup (tag : ℕ)
  | detect (found : Bool)
  deriving DecidableEq

inductive WritePhase (β : Type) where
  | idle (last : WriteReply)
  | acquire (r : BlockRange) (blksize : ℕ) (data : Option (List β))
  | insert (r : BlockRange) (bp : ℕ)
  | blocked (r : BlockRange) (bp on : ℕ)
  | detect (r : BlockRange) (wait : Bool)
  | watching (r : BlockRange) (on : ℕ)
  | finish (bp : ℕ)
  | free (bp : ℕ)

structure WriteList (Thread β : Type) where
  desc : ℕ → BufDesc β
  made : ℕ
  free : List ℕ
  pending : List ℕ
  opened : List ℕ
  phase : Thread → WritePhase β

inductive WriteCall (β : Type) where
  | setup (r : BlockRange) (blksize : ℕ) (data : Option (List β))
  | finish (bp : ℕ) (count : ℕ)
  | abort (bp : ℕ)
  | detect (r : BlockRange) (wait : Bool)

inductive WriteEvent (Thread β : Type) where
  | call (t : Thread) (c : WriteCall β)
  | go (t : Thread)

namespace WritePhase

variable {β : Type}

def holding : WritePhase β → Option ℕ
  | .insert _ bp | .blocked _ bp _ | .free bp => some bp
  | _ => none

def finishing : WritePhase β → Option ℕ
  | .finish bp => some bp
  | _ => none

def waiting : WritePhase β → Option (ℕ × BlockRange)
  | .blocked r _ on | .watching r on => some (on, r)
  | _ => none

def inserting : WritePhase β → Option (ℕ × BlockRange)
  | .insert r bp | .blocked r bp _ => some (bp, r)
  | _ => none

def rouse (bp : ℕ) : WritePhase β → WritePhase β
  | .blocked r b on => if on = bp then .insert r b else .blocked r b on
  | .watching r on => if on = bp then .detect r true else .watching r on
  | ph => ph

end WritePhase

namespace WriteList

variable {Thread β : Type} [DecidableEq Thread] (s : WriteList Thread β)

@[simp]
def goto (t : Thread) (ph : WritePhase β) : WriteList Thread β :=
  { s with phase := Function.update s.phase t ph }

def conflict (r : BlockRange) : Option ℕ :=
  s.pending.find? fun bp => (s.desc bp).range.Conflicts r

def acquire (t : Thread) (r : BlockRange) (blksize : ℕ) (data : Option (List β)) :
    WriteList Thread β :=
  match s.free with
  | bp :: rest =>
    { s with
      desc := Function.update s.desc bp ⟨r, blksize, data, .writeList, (s.desc bp).error⟩
      free := rest }.goto t (.insert r bp)
  | [] =>
    { s with
      desc := Function.update s.desc s.made ⟨r, blksize, data, .writeList, (s.desc s.made).error⟩
      made := s.made + 1 }.goto t (.insert r s.made)

def insert (t : Thread) (r : BlockRange) (bp : ℕ) : WriteList Thread β :=
  match s.conflict r with
  | some on => s.goto t (.blocked r bp on)
  | none =>
    { s with pending := bp :: s.pending, opened := bp :: s.opened }.goto t (.idle (.setup bp))

def detect (t : Thread) (r : BlockRange) (wait : Bool) : WriteList Thread β :=
  match s.conflict r with
  | some on => if wait then s.goto t (.watching r on) else s.goto t (.idle (.detect true))
  | none => s.goto t (.idle (.detect false))

def unlink (t : Thread) (bp : ℕ) : WriteList Thread β :=
  { s with
    pending := s.pending.erase bp
    phase := Function.update (fun t => (s.phase t).rouse bp) t (.free bp) }

def release (t : Thread) (bp : ℕ) : WriteList Thread β :=
  { s with
    desc := Function.update s.desc bp { (s.desc bp).initBuf with state := .wfreeList }
    free := s.free ++ [bp] }.goto t (.idle .none)

def begin (t : Thread) : WriteCall β → Option (WriteList Thread β)
  | .setup r blksize data => some (s.goto t (.acquire r blksize data))
  | .finish bp _ | .abort bp =>
    if bp ∈ s.opened then some { s.goto t (.finish bp) with opened := s.opened.erase bp } else none
  | .detect r wait => some (s.goto t (.detect r wait))

def proceed (t : Thread) : Option (WriteList Thread β) :=
  match s.phase t with
  | .idle _ | .blocked _ _ _ | .watching _ _ => none
  | .acquire r blksize data => some (s.acquire t r blksize data)
  | .insert r bp => some (s.insert t r bp)
  | .detect r wait => some (s.detect t r wait)
  | .finish bp => some (s.unlink t bp)
  | .free bp => some (s.release t bp)

def step : WriteEvent Thread β → Option (WriteList Thread β)
  | .call t c =>
    match s.phase t with
    | .idle _ => s.begin t c
    | _ => none
  | .go t => s.proceed t

def init (desc : ℕ → BufDesc β) : WriteList Thread β where
  desc bp := if bp < initialWriteBufs then
    { ({ desc bp with buf := none } : BufDesc β).initBuf with state := .wfreeList } else desc bp
  made := initialWriteBufs
  free := range initialWriteBufs
  pending := []
  opened := []
  phase _ := .idle .none

end WriteList

inductive WriteOwner (Thread : Type) where
  | unmade
  | free
  | opened
  | finishing (t : Thread)
  | thread (t : Thread)

def WriteOwner.Pending {Thread : Type} : WriteOwner Thread → Prop
  | .opened | .finishing _ => True
  | _ => False

namespace WriteList

variable {Thread β : Type} (s : WriteList Thread β)

structure Inv (own : ℕ → WriteOwner Thread) : Prop where
  free : ∀ x, x ∈ s.free ↔ own x = .free
  pending : ∀ x, x ∈ s.pending ↔ (own x).Pending
  opened : ∀ x, x ∈ s.opened ↔ own x = .opened
  unmade : ∀ x, s.made ≤ x ↔ own x = .unmade
  holding : ∀ t x, (s.phase t).holding = some x ↔ own x = .thread t
  finishing : ∀ t x, (s.phase t).finishing = some x ↔ own x = .finishing t
  freeOnce : s.free.Nodup
  pendingOnce : s.pending.Nodup
  openedOnce : s.opened.Nodup
  inserting : ∀ t x r, (s.phase t).inserting = some (x, r) → (s.desc x).range = r
  waiting : ∀ t x r, (s.phase t).waiting = some (x, r) →
    x ∈ s.pending ∧ (s.desc x).range.Conflicts r
  apart : ∀ x ∈ s.pending, ∀ y ∈ s.pending, x ≠ y → (s.desc x).range.Apart (s.desc y).range

variable {s} [DecidableEq Thread] {s' : WriteList Thread β} {own own' : ℕ → WriteOwner Thread}
  {t t' : Thread} {bp x : ℕ} {ph ph' : WritePhase β} {r : BlockRange} {o' : WriteOwner Thread}

structure Turn (s s' : WriteList Thread β) (own : ℕ → WriteOwner Thread) (t : Thread) (bp : ℕ)
    (o' : WriteOwner Thread) : Prop where
  mine : ∀ x, x ≠ bp → own x ≠ .thread t ∧ own x ≠ .finishing t
  holding : ∀ x, (s'.phase t).holding = some x ↔ x = bp ∧ o' = .thread t
  finishing : ∀ x, (s'.phase t).finishing = some x ↔ x = bp ∧ o' = .finishing t
  owner : ∀ t', t' ≠ t → (o' = .thread t' ↔ own bp = .thread t') ∧
    (o' = .finishing t' ↔ own bp = .finishing t')
  others : ∀ t', t' ≠ t → (s'.phase t').holding = (s.phase t').holding ∧
    (s'.phase t').finishing = (s.phase t').finishing

theorem Inv.holds (h : s.Inv own) (ht : Turn s s' own t bp o') (t' : Thread) (x : ℕ) :
    (s'.phase t').holding = some x ↔ Function.update own bp o' x = .thread t' := by
  obtain ⟨hmine, hholding, -, howner, hothers⟩ := ht
  by_cases htt : t' = t
  · subst htt
    rw [hholding]
    by_cases hx : x = bp
    · subst hx
      simp
    · simp [hx, (hmine x hx).1]
  · rw [(hothers t' htt).1, h.holding]
    by_cases hx : x = bp
    · subst hx
      simp [(howner t' htt).1]
    · simp [hx]

theorem Inv.finishes (h : s.Inv own) (ht : Turn s s' own t bp o') (t' : Thread) (x : ℕ) :
    (s'.phase t').finishing = some x ↔ Function.update own bp o' x = .finishing t' := by
  obtain ⟨hmine, -, hfinishing, howner, hothers⟩ := ht
  by_cases htt : t' = t
  · subst htt
    rw [hfinishing]
    by_cases hx : x = bp
    · subst hx
      simp
    · simp [hx, (hmine x hx).2]
  · rw [(hothers t' htt).2, h.finishing]
    by_cases hx : x = bp
    · subst hx
      simp [(howner t' htt).2]
    · simp [hx]

omit [DecidableEq Thread] in
theorem Inv.turn (h : s.Inv own) {ph ph' : WritePhase β} (hph : s.phase t = ph)
    (hself : s'.phase t = ph') (hmine : ∀ x, ph.holding = some x ∨ ph.finishing = some x → x = bp)
    (hholding : ∀ x, ph'.holding = some x ↔ x = bp ∧ o' = .thread t)
    (hfinishing : ∀ x, ph'.finishing = some x ↔ x = bp ∧ o' = .finishing t)
    (howner : ∀ t', t' ≠ t → (o' = .thread t' ↔ own bp = .thread t') ∧
      (o' = .finishing t' ↔ own bp = .finishing t'))
    (hothers : ∀ t', t' ≠ t → (s'.phase t').holding = (s.phase t').holding ∧
      (s'.phase t').finishing = (s.phase t').finishing) : Turn s s' own t bp o' := by
  subst hph hself
  refine ⟨fun x hx => ⟨fun ho => hx ?_, fun ho => hx ?_⟩, hholding, hfinishing, howner, hothers⟩
  · exact hmine x (Or.inl ((h.holding t x).mpr ho))
  · exact hmine x (Or.inr ((h.finishing t x).mpr ho))

theorem Inv.goto (h : s.Inv own) (hph : s.phase t = ph) (hholding : ph'.holding = ph.holding)
    (hfinishing : ph'.finishing = ph.finishing)
    (hinserting : ∀ x r, ph'.inserting = some (x, r) → (s.desc x).range = r)
    (hwaiting : ∀ x r, ph'.waiting = some (x, r) → x ∈ s.pending ∧ (s.desc x).range.Conflicts r) :
    (s.goto t ph').Inv own := by
  refine ⟨h.free, h.pending, h.opened, h.unmade, fun t' x => ?_, fun t' x => ?_, h.freeOnce,
    h.pendingOnce, h.openedOnce, fun t' x r hx => ?_, fun t' x r hx => ?_, h.apart⟩
  all_goals
    simp only [WriteList.goto] at *
    by_cases ht : t' = t
  · subst ht
    rw [Function.update_self, hholding, ← hph]
    exact h.holding t' x
  · rw [Function.update_of_ne ht]
    exact h.holding t' x
  · subst ht
    rw [Function.update_self, hfinishing, ← hph]
    exact h.finishing t' x
  · rw [Function.update_of_ne ht]
    exact h.finishing t' x
  · subst ht
    rw [Function.update_self] at hx
    exact hinserting x r hx
  · rw [Function.update_of_ne ht] at hx
    exact h.inserting t' x r hx
  · subst ht
    rw [Function.update_self] at hx
    exact hwaiting x r hx
  · rw [Function.update_of_ne ht] at hx
    exact h.waiting t' x r hx

end WriteList

namespace WriteList

variable {Thread β : Type} [DecidableEq Thread] {s s' : WriteList Thread β}
  {own : ℕ → WriteOwner Thread} {t t' : Thread} {bp x blksize : ℕ} {r : BlockRange}
  {data : Option (List β)} {wait : Bool} {last : WriteReply}

theorem Inv.fill (h : s.Inv own) (hph : s.phase t = .acquire r blksize data) {made : ℕ} {free : List ℕ}
    (hown : own bp = .free ∨ own bp = .unmade) (hfree : ∀ x, x ∈ free ↔ x ∈ s.free ∧ x ≠ bp)
    (hnd : free.Nodup) (hmade : ∀ x, made ≤ x ↔ s.made ≤ x ∧ x ≠ bp) :
    Inv ({ s with
      desc := Function.update s.desc bp ⟨r, blksize, data, .writeList, (s.desc bp).error⟩
      made := made
      free := free }.goto t (.insert r bp)) (Function.update own bp (.thread t)) := by
  let s' : WriteList Thread β := { s with
    desc := Function.update s.desc bp ⟨r, blksize, data, .writeList, (s.desc bp).error⟩
    made := made
    free := free }.goto t (.insert r bp)
  have hout : bp ∉ s.pending := by
    rw [h.pending]
    rcases hown with hown | hown <;> simp [hown, WriteOwner.Pending]
  have hclosed : bp ∉ s.opened := by
    rw [h.opened]
    rcases hown with hown | hown <;> simp [hown]
  have hturn : Turn s s' own t bp (.thread t) := by
    have hself : s'.phase t = .insert r bp := by simp [s']
    refine h.turn hph hself (by simp [WritePhase.holding, WritePhase.finishing]) ?_ ?_ ?_ ?_
    · simp [WritePhase.holding, eq_comm]
    · simp [WritePhase.finishing]
    · intro t' ht
      rcases hown with hown | hown <;> simp [hown, ht.symm]
    · intro t' ht
      simp [s', ht]
  have hkeep {x : ℕ} (hx : x ∈ s.pending) : s'.desc x = s.desc x := by
    have hne : x ≠ bp := ne_of_mem_of_not_mem hx hout
    simp [s', hne]
  refine ⟨fun x => ?_, fun x => ?_, fun x => ?_, fun x => ?_, h.holds hturn, h.finishes hturn, hnd,
    h.pendingOnce, h.openedOnce, fun t' x r' hx => ?_, fun t' x r' hx => ?_,
    fun x hx y hy hxy => ?_⟩
  · by_cases hx : x = bp
    · subst hx
      simp [hfree]
    · simp [hfree, hx, h.free]
  · by_cases hx : x = bp
    · subst hx
      simpa [s', WriteOwner.Pending] using hout
    · simpa [s', hx] using h.pending x
  · by_cases hx : x = bp
    · subst hx
      simpa [s'] using hclosed
    · simpa [s', hx] using h.opened x
  · by_cases hx : x = bp
    · subst hx
      simp [hmade]
    · simp [hmade, hx, h.unmade]
  · by_cases ht : t' = t
    · subst ht
      simp only [WriteList.goto, Function.update_self, WritePhase.inserting, Option.some.injEq,
        Prod.mk.injEq] at hx
      obtain ⟨rfl, rfl⟩ := hx
      simp
    · simp only [WriteList.goto, Function.update_of_ne ht] at hx
      have hne : x ≠ bp := by
        rintro rfl
        have hheld : (s.phase t').holding = some x := by
          cases hph' : s.phase t' <;> rw [hph'] at hx <;> simp_all [WritePhase.inserting,
            WritePhase.holding]
        have := (h.holding t' x).mp hheld
        rcases hown with hown | hown <;> simp [hown] at this
      simpa [hne] using h.inserting t' x r' hx
  · by_cases ht : t' = t
    · subst ht
      simp [WritePhase.waiting] at hx
    · simp only [WriteList.goto, Function.update_of_ne ht] at hx
      obtain ⟨hmem, hcon⟩ := h.waiting t' x r' hx
      exact ⟨hmem, (hkeep hmem).symm ▸ hcon⟩
  · rw [hkeep hx, hkeep hy]
    exact h.apart x hx y hy hxy

theorem Inv.acquire (h : s.Inv own) (hph : s.phase t = .acquire r blksize data) :
    ∃ own', (s.acquire t r blksize data).Inv own' := by
  rw [WriteList.acquire]
  cases hl : s.free with
  | nil =>
    refine ⟨_, h.fill hph (Or.inr ((h.unmade s.made).mp le_rfl)) (fun x => ?_) ?_ fun x => ?_⟩
    · rw [hl]
      simp
    · exact nodup_nil
    · omega
  | cons bp rest =>
    have hnd := h.freeOnce
    rw [hl, nodup_cons] at hnd
    refine ⟨_, h.fill hph (Or.inl ((h.free bp).mp (by simp [hl]))) (fun x => ?_) hnd.2 fun x => ?_⟩
    · rw [hl]
      have hne : x ∈ rest → x ≠ bp := fun hx => ne_of_mem_of_not_mem hx hnd.1
      constructor
      · exact fun hx => ⟨mem_cons_of_mem _ hx, hne hx⟩
      · rintro ⟨hx, hxb⟩
        exact (mem_cons.mp hx).resolve_left hxb
    · refine ⟨fun hx => ⟨hx, ?_⟩, And.left⟩
      rintro rfl
      have hfree := (h.free x).mp (by simp [hl])
      rw [(h.unmade x).mp hx] at hfree
      cases hfree

omit [DecidableEq Thread] in
theorem conflict_none (hc : s.conflict r = none) {x : ℕ} (hx : x ∈ s.pending) :
    ¬(s.desc x).range.Conflicts r := by
  have := find?_eq_none.mp hc x hx
  simpa using this

omit [DecidableEq Thread] in
theorem conflict_some {x : ℕ} (hc : s.conflict r = some x) :
    x ∈ s.pending ∧ (s.desc x).range.Conflicts r := by
  refine ⟨mem_of_find?_eq_some hc, ?_⟩
  simpa using find?_some hc

theorem Inv.insert (h : s.Inv own) (hph : s.phase t = .insert r bp) :
    ∃ own', (s.insert t r bp).Inv own' := by
  rw [WriteList.insert]
  have hrange : (s.desc bp).range = r := h.inserting t bp r (by rw [hph]; rfl)
  cases hc : s.conflict r with
  | some on =>
    refine ⟨own, h.goto hph rfl rfl (fun x r' hx => ?_) fun x r' hx => ?_⟩
    · cases hx
      exact hrange
    · cases hx
      exact conflict_some hc
  | none =>
    have howner : own bp = .thread t := (h.holding t bp).mp (by rw [hph]; rfl)
    have hout : bp ∉ s.pending := by simp [h.pending, howner, WriteOwner.Pending]
    have hclosed : bp ∉ s.opened := by simp [h.opened, howner]
    let s' : WriteList Thread β :=
      { s with pending := bp :: s.pending, opened := bp :: s.opened }.goto t (.idle (.setup bp))
    have hturn : Turn s s' own t bp .opened := by
      have hself : s'.phase t = .idle (.setup bp) := by simp [s']
      refine h.turn hph hself (by simp [WritePhase.holding, WritePhase.finishing]) ?_ ?_ ?_ ?_
      · simp [WritePhase.holding]
      · simp [WritePhase.finishing]
      · intro t' ht
        simp [howner, ht.symm]
      · intro t' ht
        simp [s', ht]
    refine ⟨Function.update own bp .opened, fun x => ?_, fun x => ?_, fun x => ?_, fun x => ?_,
      h.holds hturn, h.finishes hturn, h.freeOnce, nodup_cons.mpr ⟨hout, h.pendingOnce⟩,
      nodup_cons.mpr ⟨hclosed, h.openedOnce⟩, fun t' x r' hx => ?_, fun t' x r' hx => ?_,
      fun x hx y hy hxy => ?_⟩
    · by_cases hx : x = bp
      · subst hx
        simp [h.free, howner]
      · simp [hx, h.free]
    · by_cases hx : x = bp
      · subst hx
        simp [WriteOwner.Pending]
      · simp [hx, h.pending]
    · by_cases hx : x = bp
      · subst hx
        simp
      · simp [hx, h.opened]
    · by_cases hx : x = bp
      · subst hx
        simp [h.unmade, howner]
      · simp [hx, h.unmade]
    · by_cases ht : t' = t
      · subst ht
        simp [WritePhase.inserting] at hx
      · simp only [WriteList.goto, Function.update_of_ne ht] at hx
        exact h.inserting t' x r' hx
    · by_cases ht : t' = t
      · subst ht
        simp [WritePhase.waiting] at hx
      · simp only [WriteList.goto, Function.update_of_ne ht] at hx
        obtain ⟨hmem, hcon⟩ := h.waiting t' x r' hx
        exact ⟨mem_cons_of_mem _ hmem, hcon⟩
    · have hclear {y : ℕ} (hy : y ∈ s.pending) : (s.desc y).range.Apart (s.desc bp).range :=
        BlockRange.apart_of_not_conflicts (hrange ▸ conflict_none hc hy)
      rcases mem_cons.mp hx with rfl | hx' <;> rcases mem_cons.mp hy with rfl | hy'
      · exact absurd rfl hxy
      · exact (hclear hy').symm
      · exact hclear hx'
      · exact h.apart x hx' y hy' hxy

theorem Inv.detect (h : s.Inv own) (hph : s.phase t = .detect r wait) :
    (s.detect t r wait).Inv own := by
  rw [WriteList.detect]
  cases hc : s.conflict r with
  | none => exact h.goto hph rfl rfl nofun nofun
  | some on =>
    dsimp only
    split
    · refine h.goto hph rfl rfl nofun fun x r' hx => ?_
      cases hx
      exact conflict_some hc
    · exact h.goto hph rfl rfl nofun nofun

theorem rouse_holding (ph : WritePhase β) : (ph.rouse bp).holding = ph.holding ∧
    (ph.rouse bp).finishing = ph.finishing ∧ (ph.rouse bp).inserting = ph.inserting := by
  cases ph with
  | blocked r b on =>
    simp only [WritePhase.rouse]
    split <;> exact ⟨rfl, rfl, rfl⟩
  | watching r on =>
    simp only [WritePhase.rouse]
    split <;> exact ⟨rfl, rfl, rfl⟩
  | _ => exact ⟨rfl, rfl, rfl⟩

theorem rouse_waiting {ph : WritePhase β} (hx : (ph.rouse bp).waiting = some (x, r)) :
    x ≠ bp ∧ ph.waiting = some (x, r) := by
  cases ph with
  | blocked r b on =>
    simp only [WritePhase.rouse] at hx
    split at hx
    case isTrue => cases hx
    case isFalse hne =>
      cases hx
      exact ⟨hne, rfl⟩
  | watching r on =>
    simp only [WritePhase.rouse] at hx
    split at hx
    case isTrue => cases hx
    case isFalse hne =>
      cases hx
      exact ⟨hne, rfl⟩
  | _ => cases hx

theorem Inv.unlink (h : s.Inv own) (hph : s.phase t = .finish bp) :
    ∃ own', (s.unlink t bp).Inv own' := by
  have howner : own bp = .finishing t := (h.finishing t bp).mp (by rw [hph]; rfl)
  have hturn : Turn s (s.unlink t bp) own t bp (.thread t) := by
    have hself : (s.unlink t bp).phase t = .free bp := by simp [WriteList.unlink]
    refine h.turn hph hself (by simp [WritePhase.holding, WritePhase.finishing]) ?_ ?_ ?_ ?_
    · simp [WritePhase.holding, eq_comm]
    · simp [WritePhase.finishing]
    · intro t' ht
      simp [howner, ht.symm]
    · intro t' ht
      obtain ⟨hholding, hfinishing, -⟩ := @rouse_holding _ bp (s.phase t')
      simp [WriteList.unlink, ht, hholding, hfinishing]
  refine ⟨Function.update own bp (.thread t), fun x => ?_, fun x => ?_, fun x => ?_, fun x => ?_,
    h.holds hturn, h.finishes hturn, h.freeOnce, h.pendingOnce.erase bp, h.openedOnce,
    fun t' x r' hx => ?_, fun t' x r' hx => ?_, fun x hx y hy => ?_⟩
  · by_cases hx : x = bp
    · subst hx
      simp [WriteList.unlink, h.free, howner]
    · simp [WriteList.unlink, hx, h.free]
  · by_cases hx : x = bp
    · subst hx
      simp [WriteList.unlink, WriteOwner.Pending, h.pendingOnce.not_mem_erase]
    · simp [WriteList.unlink, hx, mem_erase_of_ne hx, h.pending]
  · by_cases hx : x = bp
    · subst hx
      simp [WriteList.unlink, h.opened, howner]
    · simp [WriteList.unlink, hx, h.opened]
  · by_cases hx : x = bp
    · subst hx
      simp [WriteList.unlink, h.unmade, howner]
    · simp [WriteList.unlink, hx, h.unmade]
  · by_cases ht : t' = t
    · subst ht
      simp [WriteList.unlink, WritePhase.inserting] at hx
    · simp only [WriteList.unlink, Function.update_of_ne ht] at hx
      rw [(rouse_holding (s.phase t')).2.2] at hx
      exact h.inserting t' x r' hx
  · by_cases ht : t' = t
    · subst ht
      simp [WriteList.unlink, WritePhase.waiting] at hx
    · simp only [WriteList.unlink, Function.update_of_ne ht] at hx
      obtain ⟨hne, hx⟩ := rouse_waiting hx
      obtain ⟨hmem, hcon⟩ := h.waiting t' x r' hx
      exact ⟨(mem_erase_of_ne hne).mpr hmem, hcon⟩
  · exact h.apart x (mem_of_mem_erase hx) y (mem_of_mem_erase hy)

theorem Inv.release (h : s.Inv own) (hph : s.phase t = .free bp) :
    ∃ own', (s.release t bp).Inv own' := by
  have howner : own bp = .thread t := (h.holding t bp).mp (by rw [hph]; rfl)
  have hout : bp ∉ s.pending := by simp [h.pending, howner, WriteOwner.Pending]
  have hnot : bp ∉ s.free := by simp [h.free, howner]
  have hturn : Turn s (s.release t bp) own t bp .free := by
    have hself : (s.release t bp).phase t = .idle .none := by simp [WriteList.release]
    refine h.turn hph hself (by simp [WritePhase.holding, WritePhase.finishing]) ?_ ?_ ?_ ?_
    · simp [WritePhase.holding]
    · simp [WritePhase.finishing]
    · intro t' ht
      simp [howner, ht.symm]
    · intro t' ht
      simp [WriteList.release, ht]
  have hkeep {x : ℕ} (hx : x ≠ bp) : (s.release t bp).desc x = s.desc x := by
    simp [WriteList.release, hx]
  refine ⟨Function.update own bp .free, fun x => ?_, fun x => ?_, fun x => ?_, fun x => ?_,
    h.holds hturn, h.finishes hturn, ?_, h.pendingOnce, h.openedOnce, fun t' x r' hx => ?_,
    fun t' x r' hx => ?_, fun x hx y hy hxy => ?_⟩
  · by_cases hx : x = bp
    · subst hx
      simp [WriteList.release]
    · simp [WriteList.release, hx, h.free]
  · by_cases hx : x = bp
    · subst hx
      simpa [WriteList.release, WriteOwner.Pending] using hout
    · simp [WriteList.release, hx, h.pending]
  · by_cases hx : x = bp
    · subst hx
      simp [WriteList.release, h.opened, howner]
    · simp [WriteList.release, hx, h.opened]
  · by_cases hx : x = bp
    · subst hx
      simp [WriteList.release, h.unmade, howner]
    · simp [WriteList.release, hx, h.unmade]
  · exact nodup_append.mpr ⟨h.freeOnce, nodup_singleton bp, by
      intro x hx y hy
      obtain rfl := mem_singleton.mp hy
      exact ne_of_mem_of_not_mem hx hnot⟩
  · by_cases ht : t' = t
    · subst ht
      simp [WriteList.release, WritePhase.inserting] at hx
    · simp only [WriteList.release, WriteList.goto, Function.update_of_ne ht] at hx
      have hne : x ≠ bp := by
        rintro rfl
        have hheld : (s.phase t').holding = some x := by
          cases hph' : s.phase t' <;> rw [hph'] at hx <;> simp_all [WritePhase.inserting,
            WritePhase.holding]
        have heq := (h.holding t' x).mp hheld
        rw [howner] at heq
        cases heq
        exact ht rfl
      rw [hkeep hne]
      exact h.inserting t' x r' hx
  · by_cases ht : t' = t
    · subst ht
      simp [WriteList.release, WritePhase.waiting] at hx
    · simp only [WriteList.release, WriteList.goto, Function.update_of_ne ht] at hx
      obtain ⟨hmem, hcon⟩ := h.waiting t' x r' hx
      rw [hkeep (ne_of_mem_of_not_mem hmem hout)]
      exact ⟨hmem, hcon⟩
  · rw [hkeep (ne_of_mem_of_not_mem hx hout), hkeep (ne_of_mem_of_not_mem hy hout)]
    exact h.apart x hx y hy hxy

theorem Inv.report (h : s.Inv own) (hph : s.phase t = .idle last) (hmem : bp ∈ s.opened) :
    Inv { s.goto t (.finish bp) with opened := s.opened.erase bp }
      (Function.update own bp (.finishing t)) := by
  have howner : own bp = .opened := (h.opened bp).mp hmem
  let s' : WriteList Thread β := { s.goto t (.finish bp) with opened := s.opened.erase bp }
  have hturn : Turn s s' own t bp (.finishing t) := by
    have hself : s'.phase t = .finish bp := by simp [s']
    refine h.turn hph hself (by simp [WritePhase.holding, WritePhase.finishing]) ?_ ?_ ?_ ?_
    · simp [WritePhase.holding]
    · simp [WritePhase.finishing, eq_comm]
    · intro t' ht
      simp [howner, ht.symm]
    · intro t' ht
      simp [s', ht]
  refine ⟨fun x => ?_, fun x => ?_, fun x => ?_, fun x => ?_, h.holds hturn, h.finishes hturn,
    h.freeOnce, h.pendingOnce, h.openedOnce.erase bp, fun t' x r' hx => ?_, fun t' x r' hx => ?_,
    h.apart⟩
  · by_cases hx : x = bp
    · subst hx
      simp [h.free, howner]
    · simp [hx, h.free]
  · by_cases hx : x = bp
    · subst hx
      simp [h.pending, howner, WriteOwner.Pending]
    · simp [hx, h.pending]
  · by_cases hx : x = bp
    · subst hx
      simp [h.openedOnce.not_mem_erase]
    · simp [hx, mem_erase_of_ne hx, h.opened]
  · by_cases hx : x = bp
    · subst hx
      simp [h.unmade, howner]
    · simp [hx, h.unmade]
  · by_cases ht : t' = t
    · subst ht
      simp [WritePhase.inserting] at hx
    · simp only [WriteList.goto, Function.update_of_ne ht] at hx
      exact h.inserting t' x r' hx
  · by_cases ht : t' = t
    · subst ht
      simp [WritePhase.waiting] at hx
    · simp only [WriteList.goto, Function.update_of_ne ht] at hx
      exact h.waiting t' x r' hx

end WriteList

end MachUS.Ufs
