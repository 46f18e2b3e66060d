import MachUS.Ux.SelectResults

set_option linter.unusedSectionVars false

namespace MachUS.Ux

open Function Option Uxselect

section Fitting

variable {K U P : Type} {n : ℕ} {a : Uxselect n} {q : SelectPhase U n} {r : Registry U n}
  {sw : U → Option (Sweep K P)} {c : Scan n} {v : Visit n} {ret : SelRet}

theorem Fit.returned (h : Fit a q r sw) (hquiet : a.state = .completed ∨ ∀ v, ¬ r.Waits v)
    (hret : ret ≠ .success) :
    Fit { a with answer := some a.signaledFds } (.returned ret) r sw :=
  { h with stage := ⟨rfl, hquiet, fun hs => absurd hs hret, fun hs => absurd hs hret⟩ }

theorem Fit.abandoned (h : Fit a q r sw) (hret : ret ≠ .success) :
    Fit { a with state := .completed, answer := some a.signaledFds } (.returned ret) r sw :=
  { h with
    slots := fun v hv => ⟨(h.slots v hv).1, fun hne => absurd rfl hne⟩
    stage := ⟨rfl, .inl rfl, fun hs => absurd hs hret, fun hs => absurd hs hret⟩ }

theorem Fit.finished (h : Fit a q r sw) (hlooked : ∀ v, v ∈ a.looked ↔ v ∈ a.ahead) :
    Fit { a with
      state := .completed
      foundFds := a.countFoundFds
      answer := some a.signaledFds } (.returned .success) r sw :=
  { h with
    slots := fun v hv => ⟨(h.slots v hv).1, fun hne => absurd rfl hne⟩
    stage := ⟨rfl, .inl rfl, fun _ => rfl, fun _ => hlooked⟩ }

theorem Scans.exhausted {found localOnly : Bool} (h : Scans a r ⟨localOnly, [], found⟩ none) :
    ∀ v, v ∈ a.looked ↔ v ∈ a.ahead := by
  refine fun v => ⟨h.looked v, fun hv => ?_⟩
  rcases h.covered v hv with hlooked | ⟨-, hmem⟩
  · exact hlooked
  · exact absurd hmem List.not_mem_nil

theorem Scans.again (h : Scans a r ⟨true, [], false⟩ none) : Scans a r ⟨false, a.ahead, false⟩ none := by
  refine ⟨h.alive, h.unanswered, looks_nodup, fun v hv => ⟨hv, fun hs => ?_, fun hw => ?_, ?_⟩,
    h.looked, fun v hv => .inl ((h.exhausted v).mpr hv), fun hl => Bool.noConfusion hl,
    fun hl => Bool.noConfusion hl⟩
  · exact some_ne_none v (h.quiet rfl rfl v hs).symm
  · exact some_ne_none v (h.alone rfl v hw).symm
  · exact fun heq => some_ne_none v heq.symm

theorem Scans.found (h : Scans a r c (some v)) (hfree : ¬ r.Waits v) :
    Scans a r { c with found := true } none :=
  { h with
    ahead := fun y hy => ⟨(h.ahead y hy).1, (h.ahead y hy).2.1, (h.ahead y hy).2.2.1,
      fun heq => some_ne_none y heq.symm⟩
    alone := fun hl y hy => by
      cases h.alone hl y hy
      exact absurd hy hfree
    quiet := fun _ hf => Bool.noConfusion hf }

theorem fit_create {nfds : ℤ} {given : Finset (Visit n)} {timed : Bool}
    (hbounded : ∀ v ∈ given, v ∈ (create nfds given timed).ahead ↔ (v.2.val : ℤ) < nfds)
    (hr : ∀ v, ¬ r.Waits v) : Fit (create nfds given timed)
      (.scanning ⟨true, (create nfds given timed).ahead, false⟩) r sw := by
  refine ⟨rfl, rfl, Finset.Subset.refl _, rfl, Finset.empty_subset _, hbounded,
    fun v hv => absurd hv (hr v), fun v u s u' s' h => absurd ⟨u, s, h⟩ (hr v), ?_⟩
  refine ⟨fun h => SelState.noConfusion h, rfl, looks_nodup, fun v hv => ?_,
    fun v hv => absurd hv (Finset.notMem_empty v), fun v hv => .inr ⟨rfl, hv⟩,
    fun _ v hv => absurd hv (hr v), fun _ _ v hv => absurd hv (Finset.notMem_empty v)⟩
  exact ⟨hv, Finset.notMem_empty v, hr v, fun heq => some_ne_none v heq.symm⟩

end Fitting

namespace Selects

variable {K U P : Type} {n : ℕ}

def Registered (x : Selects K U P n) (k : K) : Registry U n := fun v u s =>
  ((x.io u).activeSelects s).selector = some k ∧ ((x.io u).activeSelects s).visit = v

def sweeps (x : Selects K U P n) (u : U) : Option (Sweep K P) := (x.io u).sweep

def Fits (x : Selects K U P n) (k : K) : Prop :=
  Fit (x.selector k) (x.phase k) (x.Registered k) x.sweeps

structure Tallied (x : Selects K U P n) : Prop where
  fits : ∀ k, x.Fits k
  holder : ∀ u w k, x.sweeps u = some w → w.holder = .inl k →
    ∃ c v s ret, x.phase k = .finishing c v u s ret
  sweeping : ∀ k c v u s ret, x.phase k = .finishing c v u s ret →
    ∃ w, x.sweeps u = some w ∧ w.holder = .inl k

def Idle : SelectPhase U n → Prop
  | .finishing _ _ _ _ _ => False
  | _ => True

theorem idle_of_eq {p q : SelectPhase U n} (h : p = q) (hq : Idle q) : Idle p := h ▸ hq

variable [DecidableEq K] [DecidableEq U] [DecidableEq P] {x y : Selects K U P n} {k : K} {u : U}
  {s : SlotIndex} {v : Visit n} {c : Scan n} {ret : SelRet} {e : SelectEvent K U P n}

theorem Tallied.moves {a : Uxselect n} {q : SelectPhase U n} (h : x.Tallied) (hidle : Idle (x.phase k))
    (hq : Idle q) (hfit : Fit a q (x.Registered k) x.sweeps) : ((x.sets k a).goes k q).Tallied := by
  have hphase (k' : K) (hne : k' ≠ k) : ((x.sets k a).goes k q).phase k' = x.phase k' :=
    update_of_ne hne ..
  have hself : ((x.sets k a).goes k q).phase k = q := update_self ..
  refine ⟨fun k' => ?_, fun u w k' hw hk => ?_, fun k' c v u s ret hk => ?_⟩
  · by_cases hne : k' = k
    · subst hne
      unfold Fits
      rw [hself, show ((x.sets k' a).goes k' q).selector k' = a from update_self ..]
      exact hfit
    · unfold Fits
      rw [hphase k' hne,
        show ((x.sets k a).goes k q).selector k' = x.selector k' from update_of_ne hne ..]
      exact h.fits k'
  · obtain ⟨c, v, s, ret, hp⟩ := h.holder u w k' hw hk
    by_cases hne : k' = k
    · subst hne
      exact (idle_of_eq hp.symm hidle).elim
    · exact ⟨c, v, s, ret, (hphase k' hne).trans hp⟩
  · by_cases hne : k' = k
    · subst hne
      rw [hself] at hk
      exact (idle_of_eq hk.symm hq).elim
    · rw [hphase k' hne] at hk
      exact h.sweeping k' c v u s ret hk

theorem Tallied.aside (h : x.Tallied) (hselector : y.selector = x.selector) (hphase : y.phase = x.phase)
    (hregistered : y.Registered = x.Registered) (hsweeps : y.sweeps = x.sweeps) : y.Tallied := by
  obtain ⟨hfits, hholder, hsweeping⟩ := h
  refine ⟨fun k => ?_, ?_, ?_⟩
  · unfold Fits
    rw [hselector, hphase, hregistered, hsweeps]
    exact hfits k
  · rw [hphase, hsweeps]
    exact hholder
  · rw [hphase, hsweeps]
    exact hsweeping

theorem Tallied.goes {q : SelectPhase U n} (h : x.Tallied) (hidle : Idle (x.phase k)) (hq : Idle q)
    (hstage : Stage (x.selector k) (x.Registered k) x.sweeps q) : (x.goes k q).Tallied :=
  (h.moves hidle hq ((h.fits k).goes hstage)).aside (update_eq_self k x.selector).symm rfl rfl rfl

theorem Tallied.at_phase {q : SelectPhase U n} (h : x.Tallied) (hp : x.phase k = q) :
    Fit (x.selector k) q (x.Registered k) x.sweeps := hp ▸ h.fits k

def Forgotten (x : Selects K U P n) (k : K) : Prop := ∀ u s, ((x.io u).activeSelects s).selector ≠ some k

theorem Forgotten.free (h : x.Forgotten k) (v : Visit n) : ¬ (x.Registered k).Waits v :=
  fun ⟨u, s, hr⟩ => h u s hr.1

def Spared (x : Selects K U P n) : SelectEvent K U P n → Prop
  | .start _ nfds given timed =>
    ∀ v ∈ given, v ∈ (create nfds given timed).ahead ↔ (v.2.val : ℤ) < nfds
  | .visit k entry _ =>
    match x.phase k with
    | .scanning ⟨false, _ :: _, _⟩ => entry.bind x.emptyRecord = none → x.Forgotten k
    | _ => True
  | .sweep u =>
    match x.sweeps u with
    | some ⟨.inl k, _, next, _⟩ =>
      match x.phase k with
      | .finishing ⟨false, _, _⟩ _ _ _ ret =>
        uxioMaxSelectCount ≤ next → ret ≠ .success → x.Forgotten k
      | _ => True
    | _ => True
  | _ => True

theorem finish_eq (x : Selects K U P n) (k : K) : x.finish k = (x.sets k { x.selector k with
    state := .completed
    foundFds := (x.selector k).countFoundFds
    answer := some (x.selector k).signaledFds }).goes k (.returned .success) := by
  simp [finish, returns, sets, goes]

theorem abandon_eq (x : Selects K U P n) (k : K) (ret : SelRet) :
    x.abandon k ret = (x.sets k { x.selector k with
      state := .completed
      answer := some (x.selector k).signaledFds }).goes k (.returned ret) := by
  simp [abandon, returns, sets, goes]

section

variable (h : x.Tallied) (hidle : Idle (x.phase k))

include h hidle

theorem Tallied.finish
    (hlooked : ∀ v, v ∈ (x.selector k).looked ↔ v ∈ (x.selector k).ahead) : (x.finish k).Tallied := by
  rw [finish_eq]
  exact h.moves hidle trivial ((h.fits k).finished hlooked)

theorem Tallied.abandon (hret : ret ≠ .success) : (x.abandon k ret).Tallied := by
  rw [abandon_eq]
  exact h.moves hidle trivial ((h.fits k).abandoned hret)

theorem Tallied.returns (hforgotten : x.Forgotten k)
    (hret : ret ≠ .success) : (x.returns k ret).Tallied :=
  h.moves hidle trivial ((h.fits k).returned (.inr hforgotten.free) hret)

end

theorem forgotten_of_free (h : ∀ v, ¬ (x.Registered k).Waits v) : x.Forgotten k :=
  fun u s hs => h _ ⟨u, s, hs, rfl⟩

theorem Tallied.pass {port : Bool} (h : x.Tallied) (hy : x.passStep k port (x.phase k) = some y) :
    y.Tallied := by
  cases hp : x.phase k with
  | scanning c =>
    have hidle : Idle (x.phase k) := idle_of_eq hp trivial
    have hstage := (h.at_phase hp).stage
    rw [hp] at hy
    obtain ⟨localOnly, rest, found⟩ := c
    cases rest with
    | cons v rest => cases localOnly <;> cases found <;> cases hy
    | nil =>
      have hlooked := hstage.exhausted
      cases localOnly with
      | false =>
        cases hy
        exact h.goes hidle trivial ⟨hstage.alive, hstage.unanswered, hlooked⟩
      | true =>
        cases found with
        | true =>
          cases hy
          exact h.finish hidle hlooked
        | false =>
          have hforgotten : x.Forgotten k := forgotten_of_free fun v hv =>
            some_ne_none v (hstage.alone rfl v hv).symm
          simp only [passStep] at hy
          split_ifs at hy
          · cases hy
            exact h.returns hidle hforgotten (by decide)
          · cases hy
            exact h.returns hidle hforgotten (by decide)
          · cases hy
            exact h.goes hidle trivial hstage.again
  | unborn | completing _ _ _ _ _ _ | finishing _ _ _ _ _ | probing _ _ _ _ _ | storing _ _ _ | settling
  | blocked | returned _ =>
    rw [hp] at hy
    cases hy

theorem Tallied.settle {msg : MsgRet} (h : x.Tallied) (hy : x.settleStep k msg (x.phase k) = some y) :
    y.Tallied := by
  cases hp : x.phase k with
  | settling =>
    have hidle : Idle (x.phase k) := idle_of_eq hp trivial
    have hstage := (h.at_phase hp).stage
    rw [hp] at hy
    simp only [settleStep] at hy
    by_cases htimed : (x.selector k).timed = true
    · rw [if_pos htimed] at hy
      cases msg with
      | interrupted =>
        cases hy
        exact h.abandon hidle (by decide)
      | timedOut =>
        split_ifs at hy
        · cases hy
          exact h.finish hidle hstage.looked
        · cases hy
          exact h.abandon hidle (by decide)
      | received | failed =>
        cases hy
        exact h.finish hidle hstage.looked
    · rw [if_neg htimed] at hy
      split_ifs at hy with hnew
      · cases hy
        have hfit := h.fits k
        have hwaiting : SelState.waiting ≠ .completed := by decide
        refine h.moves hidle trivial { hfit with
          slots := fun v hv => ⟨(hfit.slots v hv).1, fun _ => (hfit.slots v hv).2 hstage.alive⟩
          stage := ⟨hwaiting, hstage.unanswered, hstage.looked⟩ }
      · cases hy
        exact h.finish hidle hstage.looked
  | unborn | scanning _ | completing _ _ _ _ _ _ | finishing _ _ _ _ _ | probing _ _ _ _ _
  | storing _ _ _ | blocked | returned _ =>
    rw [hp] at hy
    cases hy

theorem Tallied.wake {interrupted : Bool} (h : x.Tallied)
    (hy : x.wakeStep k interrupted (x.phase k) = some y) : y.Tallied := by
  cases hp : x.phase k with
  | blocked =>
    have hidle : Idle (x.phase k) := idle_of_eq hp trivial
    have hstage := (h.at_phase hp).stage
    rw [hp] at hy
    simp only [wakeStep] at hy
    split_ifs at hy
    · cases hy
      exact h.abandon hidle (by decide)
    · cases hy
      exact h.finish hidle hstage.looked
  | unborn | scanning _ | completing _ _ _ _ _ _ | finishing _ _ _ _ _ | probing _ _ _ _ _
  | storing _ _ _ | settling | returned _ =>
    rw [hp] at hy
    cases hy

theorem Tallied.attempt {p : P} (h : x.Tallied) (hy : x.attemptStep k p ret (x.phase k) = some y) :
    y.Tallied := by
  cases hp : x.phase k with
  | probing c v u s wait =>
    have hidle : Idle (x.phase k) := idle_of_eq hp trivial
    obtain ⟨hscans, hremote⟩ := (h.at_phase hp).stage
    rw [hp] at hy
    cases wait with
    | true =>
      simp only [attemptStep] at hy
      cases hborn : x.prober p <;> rw [hborn] at hy <;> cases hy
      have hprobes : (x.probes p (.started u s k v)).Tallied := h.aside rfl rfl rfl rfl
      exact hprobes.goes hidle trivial ⟨hscans.remote hremote, hremote⟩
    | false =>
      cases hy
      exact h.goes hidle trivial ⟨hscans, fun hl => Bool.noConfusion (hremote.symm.trans hl)⟩
  | unborn | scanning _ | completing _ _ _ _ _ _ | finishing _ _ _ _ _ | storing _ _ _ | settling
  | blocked | returned _ =>
    rw [hp] at hy
    cases hy

theorem slots_activeSelects (x : Selects K U P n) (u u' : U) (s s' : SlotIndex) (i : SelectInfo K n) :
    ((x.slots u s i).io u').activeSelects s' =
      if u' = u ∧ s' = s then i else (x.io u').activeSelects s' := by
  by_cases hu : u' = u
  · subst hu
    by_cases hs : s' = s
    · subst hs
      simp [slots, turns]
    · simp [slots, turns, hs]
  · simp [slots, turns, hu]

theorem slots_sweeps (x : Selects K U P n) (u : U) (s : SlotIndex) (i : SelectInfo K n) :
    (x.slots u s i).sweeps = x.sweeps := by
  funext u'
  unfold sweeps slots turns
  by_cases hu : u' = u
  · subst hu
    simp
  · simp [hu]

theorem notes_activeSelects (x : Selects K U P n) (u u' : U) (i : SelType) (b : SelProbe) :
    ((x.notes u i b).io u').activeSelects = (x.io u').activeSelects := by
  by_cases hu : u' = u
  · subst hu
    simp [notes, turns]
  · simp [notes, turns, hu]

theorem notes_sweeps (x : Selects K U P n) (u : U) (i : SelType) (b : SelProbe) :
    (x.notes u i b).sweeps = x.sweeps := by
  funext u'
  unfold sweeps notes turns
  by_cases hu : u' = u
  · subst hu
    simp
  · simp [hu]

theorem Tallied.store (h : x.Tallied) (hy : x.storeStep k (x.phase k) = some y) : y.Tallied := by
  cases hp : x.phase k with
  | storing c u s =>
    have hidle : Idle (x.phase k) := idle_of_eq hp trivial
    obtain ⟨hscans, hremote⟩ := (h.at_phase hp).stage
    rw [hp] at hy
    cases hy
    have hregistered : (x.slots u s { (x.io u).activeSelects s with thread := true }).Registered =
        x.Registered := by
      funext k' v' u' s'
      unfold Registered
      rw [slots_activeSelects]
      by_cases hplace : u' = u ∧ s' = s
      · obtain ⟨rfl, rfl⟩ := hplace
        simp
      · rw [if_neg hplace]
    have hstored := h.aside (y := x.slots u s { (x.io u).activeSelects s with thread := true }) rfl rfl
      hregistered (slots_sweeps x u s _)
    refine hstored.goes hidle trivial ?_
    rw [hregistered]
    exact hscans
  | unborn | scanning _ | completing _ _ _ _ _ _ | finishing _ _ _ _ _ | probing _ _ _ _ _ | settling
  | blocked | returned _ =>
    rw [hp] at hy
    cases hy

theorem Tallied.start {nfds : ℤ} {given : Finset (Visit n)} {timed : Bool} (h : x.Tallied)
    (hspared : x.Spared (.start k nfds given timed)) (hy : x.next (.start k nfds given timed) = some y) :
    y.Tallied := by
  simp only [next] at hy
  cases hp : x.phase k with
  | unborn =>
    rw [hp] at hy
    cases hy
    exact h.moves (idle_of_eq hp trivial) trivial (fit_create hspared (h.at_phase hp).stage)
  | scanning _ | completing _ _ _ _ _ _ | finishing _ _ _ _ _ | probing _ _ _ _ _ | storing _ _ _
  | settling | blocked | returned _ =>
    rw [hp] at hy
    cases hy

theorem Tallied.turns {z : Uxio K P n} (h : x.Tallied)
    (hslots : ∀ s, (z.activeSelects s).selector = ((x.io u).activeSelects s).selector ∧
      (z.activeSelects s).visit = ((x.io u).activeSelects s).visit)
    (hsweep : z.sweep = (x.io u).sweep) : (x.turns u z).Tallied := by
  refine h.aside rfl rfl ?_ ?_
  · funext k v u' s
    unfold Registered Selects.turns
    by_cases hu : u' = u
    · subst hu
      simp only [update_self]
      rw [(hslots s).1, (hslots s).2]
    · simp only [update_of_ne hu]
  · funext u'
    unfold sweeps Selects.turns
    by_cases hu : u' = u
    · subst hu
      simp only [update_self]
      exact hsweep
    · simp only [update_of_ne hu]

theorem Tallied.read {consumes : Bool} (h : x.Tallied) : (x.uxRead u consumes).Tallied := by
  unfold uxRead
  split_ifs
  · exact h.turns (fun _ => ⟨rfl, rfl⟩) rfl
  · exact h.turns (fun _ => ⟨rfl, rfl⟩) rfl
  · exact h

section Occupation

variable {wait thread : Bool}

theorem occupy_eq (x : Selects K U P n) (u : U) (s : SlotIndex) (k : K) (v : Visit n) (wait : Bool) :
    (x.occupy u s k v wait).selector = x.selector ∧ (x.occupy u s k v wait).phase = x.phase ∧
      (x.occupy u s k v wait).io = (x.slots u s ⟨some k, v, wait, false⟩).io := by
  unfold occupy evict
  cases ((x.io u).activeSelects s).selector <;> exact ⟨rfl, rfl, rfl⟩

def Takes (x y : Selects K U P n) (u : U) (s : SlotIndex) (i : SelectInfo K n) : Prop :=
  ∀ u' s', (y.io u').activeSelects s' = if u' = u ∧ s' = s then i else (x.io u').activeSelects s'

theorem Takes.others {i : SelectInfo K n} {k' : K} (h : Takes x y u s i) (hk : i.selector ≠ some k') :
    y.Registered k' = (x.Registered k').without u s := by
  funext v' u' s'
  unfold Registered Registry.without
  rw [h]
  by_cases hplace : u' = u ∧ s' = s
  · rw [if_pos hplace]
    simp [hplace, hk]
  · rw [if_neg hplace]
    simp [hplace]

theorem Takes.own (h : Takes x y u s ⟨some k, v, wait, thread⟩)
    (hvacant : ((x.io u).activeSelects s).selector ≠ some k) :
    y.Registered k = (x.Registered k).plus v u s := by
  funext v' u' s'
  unfold Registered Registry.plus
  rw [h]
  by_cases hplace : u' = u ∧ s' = s
  · rw [if_pos hplace]
    obtain ⟨rfl, rfl⟩ := hplace
    simp [hvacant, eq_comm]
  · rw [if_neg hplace]
    simp [hplace]

theorem Tallied.occupies {localOnly found : Bool} {rest : List (Visit n)} {q : SelectPhase U n}
    (h : x.Tallied) (hp : x.phase k = .scanning ⟨localOnly, v :: rest, found⟩)
    (hvacant : x.Vacant ((x.io u).activeSelects s))
    (hslots : Takes x y u s ⟨some k, v, wait, thread⟩) (hsweeps : y.sweeps = x.sweeps)
    (hselector : y.selector = update x.selector k ((x.selector k).visits v))
    (hphase : y.phase = update x.phase k q) (hq : Idle q)
    (hstage : Scans ((x.selector k).visits v) ((x.Registered k).plus v u s) ⟨localOnly, rest, found⟩
      (some v) → Stage ((x.selector k).visits v) ((x.Registered k).plus v u s) x.sweeps q) :
    y.Tallied := by
  have hscans : Scans _ _ _ _ := (h.at_phase hp).stage
  have hcompleted {k' : K} (hk : ((x.io u).activeSelects s).selector = some k') :
      (x.selector k').state = .completed := by
    unfold Vacant at hvacant
    rw [hk] at hvacant
    exact hvacant.2
  have hown : ((x.io u).activeSelects s).selector ≠ some k := fun hk => hscans.alive (hcompleted hk)
  have hother (k' : K) (hne : k' ≠ k) : y.phase k' = x.phase k' ∧ y.selector k' = x.selector k' :=
    ⟨by rw [hphase, update_of_ne hne], by rw [hselector, update_of_ne hne]⟩
  have hself : y.phase k = q := by rw [hphase, update_self]
  refine ⟨fun k' => ?_, fun u' w k' hw hk => ?_, fun k' c' v' u' s' ret' hk => ?_⟩
  · unfold Fits
    rw [hsweeps]
    by_cases hne : k' = k
    · subst hne
      rw [hself, hslots.own hown, hselector, update_self]
      exact (h.at_phase hp).occupied (hstage hscans.visits.occupied)
    · rw [(hother k' hne).1, (hother k' hne).2, hslots.others fun heq => hne (some.inj heq).symm]
      exact (h.fits k').evicted fun v' hv' => hcompleted hv'.1
  · rw [hsweeps] at hw
    obtain ⟨c', v', s', ret', hp'⟩ := h.holder u' w k' hw hk
    have hne : k' ≠ k := by
      rintro rfl
      rw [hp] at hp'
      cases hp'
    exact ⟨c', v', s', ret', (hother k' hne).1.trans hp'⟩
  · have hne : k' ≠ k := by
      rintro rfl
      exact (idle_of_eq (hk.symm.trans hself) hq).elim
    rw [(hother k' hne).1] at hk
    rw [hsweeps]
    exact h.sweeping k' c' v' u' s' ret' hk

end Occupation

theorem vacant_of_emptyRecord (h : x.emptyRecord u = some s) : x.Vacant ((x.io u).activeSelects s) := by
  have hfound := List.find?_some h
  simpa using hfound

theorem emptyRecord_visits (x : Selects K U P n) (k : K) (v : Visit n) (u : U) :
    (x.sets k ((x.selector k).visits v)).emptyRecord u = x.emptyRecord u := by
  have hvacant (i : SelectInfo K n) : (x.sets k ((x.selector k).visits v)).Vacant i ↔ x.Vacant i := by
    unfold Vacant
    cases i.selector with
    | none => rfl
    | some k' =>
      by_cases hk : k' = k
      · subst hk
        simp [sets, visits]
      · simp [sets, hk]
  unfold emptyRecord
  simp only [hvacant]
  rfl

theorem sets_returns (x : Selects K U P n) (k : K) (a : Uxselect n) (ret : SelRet) :
    (x.sets k a).returns k ret =
      (x.sets k { a with answer := some a.signaledFds }).goes k (.returned ret) := by
  simp [returns, sets, goes]

theorem Tallied.leaves (h : x.Tallied) {localOnly found : Bool} {rest : List (Visit n)}
    (hp : x.phase k = .scanning ⟨localOnly, v :: rest, found⟩) (hforgotten : x.Forgotten k)
    (hret : ret ≠ .success) : ((x.sets k ((x.selector k).visits v)).returns k ret).Tallied := by
  rw [sets_returns]
  refine h.moves (idle_of_eq hp trivial) trivial ?_
  have hscans : Scans _ _ _ _ := (h.at_phase hp).stage
  have hfit := (h.at_phase hp).visits (q := .scanning ⟨localOnly, rest, found⟩) ?_
  · exact hfit.returned (.inr hforgotten.free) hret
  · have hv := hscans.visits
    exact { hv with
      ahead := fun y hy => ⟨(hv.ahead y hy).1, (hv.ahead y hy).2.1, (hv.ahead y hy).2.2.1,
        fun heq => some_ne_none y heq.symm⟩
      alone := fun _ y hy => absurd hy (hforgotten.free y)
      quiet := hscans.quiet }

theorem Tallied.selectOne {localOnly found wait : Bool} {rest : List (Visit n)} (h : x.Tallied)
    (hp : x.phase k = .scanning ⟨localOnly, v :: rest, found⟩)
    (hspared : x.emptyRecord u = none → x.Forgotten k) :
    ((x.sets k ((x.selector k).visits v)).uxSelectOne k ⟨localOnly, rest, found⟩ v u wait).Tallied := by
  have hidle : Idle (x.phase k) := idle_of_eq hp trivial
  have hscans : Scans _ _ _ _ := (h.at_phase hp).stage
  unfold uxSelectOne
  by_cases hlocal : ((x.sets k ((x.selector k).visits v)).io u).selectState v.1 ≠ .succeeded ∧
      localOnly = true
  · rw [if_pos hlocal]
    obtain ⟨-, rfl⟩ := hlocal
    exact h.moves hidle trivial ((h.at_phase hp).visits hscans.skips)
  · rw [if_neg hlocal, emptyRecord_visits]
    cases hempty : x.emptyRecord u with
    | none =>
      have hret : SelRet.resourceExhausted ≠ .success := by decide
      have hleaves := h.leaves hp (hspared hempty) hret
      cases localOnly with
      | true => exact hleaves
      | false => exact hleaves
    | some s =>
      have hvacant := vacant_of_emptyRecord hempty
      obtain ⟨hselector, hphase, hio⟩ :=
        occupy_eq (x.sets k ((x.selector k).visits v)) u s k v wait
      have hslots {z : Selects K U P n} (hz : z.io =
          ((x.sets k ((x.selector k).visits v)).occupy u s k v wait).io) :
          Takes x z u s ⟨some k, v, wait, false⟩ ∧ z.sweeps = x.sweeps := by
        constructor
        · intro u' s'
          rw [hz, hio, slots_activeSelects]
          rfl
        · unfold sweeps
          rw [hz, hio]
          exact slots_sweeps x u s _
      cases hprobe : ((x.sets k ((x.selector k).visits v)).io u).selectState v.1 with
      | succeeded =>
        refine h.occupies hp hvacant (hslots rfl).1 (hslots rfl).2 hselector
          (congrArg (fun f => update f k _) hphase) trivial fun hstage => ⟨hstage, fun _ => ⟨rfl, ?_⟩⟩
        exact .inr (.inr ⟨rfl, rfl, rfl⟩)
      | requested =>
        cases localOnly with
        | true => exact absurd ⟨by rw [hprobe]; decide, rfl⟩ hlocal
        | false =>
          exact h.occupies hp hvacant (hslots rfl).1 (hslots rfl).2 hselector
            (congrArg (fun f => update f k _) hphase) trivial fun hstage => hstage.remote rfl
      | nothing =>
        cases localOnly with
        | true => exact absurd ⟨by rw [hprobe]; decide, rfl⟩ hlocal
        | false =>
          have htakes {z : Selects K U P n}
              (hz : z.io = ((((x.sets k ((x.selector k).visits v)).occupy u s k v wait).notes u v.1
                .requested).slots u s ⟨some k, v, wait, true⟩).io) :
              Takes x z u s ⟨some k, v, wait, true⟩ ∧ z.sweeps = x.sweeps := by
            constructor
            · intro u' s'
              rw [hz, slots_activeSelects, notes_activeSelects]
              by_cases hplace : u' = u ∧ s' = s
              · rw [if_pos hplace, if_pos hplace]
              · rw [if_neg hplace, if_neg hplace, (hslots rfl).1, if_neg hplace]
            · have hsame : z.sweeps = ((((x.sets k ((x.selector k).visits v)).occupy u s k v wait).notes u
                  v.1 .requested).slots u s ⟨some k, v, wait, true⟩).sweeps := by
                unfold sweeps
                rw [hz]
              rw [hsame, slots_sweeps, notes_sweeps, (hslots rfl).2]
          exact h.occupies hp hvacant (htakes rfl).1 (htakes rfl).2 hselector
            (congrArg (fun f => update f k _) hphase) trivial fun hstage => ⟨hstage, rfl⟩

theorem Tallied.visit {entry : Option U} {wait : Bool} (h : x.Tallied)
    (hspared : x.Spared (.visit k entry wait)) (hy : x.visitStep k entry wait (x.phase k) = some y) :
    y.Tallied := by
  cases hp : x.phase k with
  | scanning c =>
    rw [hp] at hy
    obtain ⟨localOnly, rest, found⟩ := c
    cases rest with
    | nil => cases hy
    | cons v rest =>
      have hforgotten : entry.bind x.emptyRecord = none → x.Forgotten k := by
        cases localOnly with
        | true =>
          have hscans : Scans _ _ _ _ := (h.at_phase hp).stage
          exact fun _ => forgotten_of_free fun v hv => some_ne_none v (hscans.alone rfl v hv).symm
        | false =>
          simp only [Spared, hp] at hspared
          exact hspared
      simp only [visitStep] at hy
      cases entry with
      | none =>
        cases hy
        exact h.leaves hp (hforgotten rfl) (by decide)
      | some u =>
        simp only at hy
        split_ifs at hy
        cases hy
        exact h.selectOne hp hforgotten
  | unborn | completing _ _ _ _ _ _ | finishing _ _ _ _ _ | probing _ _ _ _ _ | storing _ _ _
  | settling | blocked | returned _ =>
    rw [hp] at hy
    cases hy

end Selects

end MachUS.Ux
