import MachUS.Ux.SelectSteps
import Mathlib.Data.Fintype.Basic

set_option linter.unusedSectionVars false

namespace MachUS.Ux

open Function Transition Option

namespace Selects

variable {K U P : Type} {n : ℕ} [DecidableEq K] [DecidableEq U] [DecidableEq P] {x y : Selects K U P n} {k : K}
  {u : U} {s : SlotIndex} {v : Visit n} {c : Scan n} {ret : SelRet} {e : SelectEvent K U P n}

theorem done_registered (x : Selects K U P n) (u : U) (s : SlotIndex) (holder : K ⊕ P) (prober : Bool) :
    (x.uxSelectOneDone u s holder prober).Registered = x.Registered := by
  funext k' v' u' s'
  unfold Registered uxSelectOneDone turns
  by_cases hu : u' = u
  · subst hu
    simp only [update_self]
  · simp only [update_of_ne hu]

theorem done_sweeps (x : Selects K U P n) (u : U) (s : SlotIndex) (holder : K ⊕ P) (prober : Bool) :
    (x.uxSelectOneDone u s holder prober).sweeps = update x.sweeps u
      (some ⟨holder, ((x.io u).activeSelects s).visit.1, 0, 0⟩) := by
  funext u'
  unfold sweeps uxSelectOneDone turns
  by_cases hu : u' = u
  · subst hu
    simp only [update_self]
  · simp only [update_of_ne hu]

variable {w : Sweep K P}

theorem Tallied.begins (h : x.Tallied) (hsweep : x.sweeps u = none)
    (hselector : y.selector = x.selector) (hregistered : y.Registered = x.Registered)
    (hsweeps : y.sweeps = update x.sweeps u (some w))
    (hphase : ∀ k, y.phase k = x.phase k ∧ w.holder ≠ .inl k ∨
      Idle (x.phase k) ∧ w.holder = .inl k ∧ (∃ c v s ret, y.phase k = .finishing c v u s ret) ∧
        Stage (x.selector k) (x.Registered k) y.sweeps (y.phase k)) : y.Tallied := by
  refine ⟨fun k => ?_, fun u' w' k hw hk => ?_, fun k c v u' s ret hk => ?_⟩
  · have hbegun := (h.fits k).begun (w := w) hsweep
    unfold Fits
    rw [← hsweeps] at hbegun
    rw [hselector, hregistered]
    rcases hphase k with ⟨heq, -⟩ | ⟨-, -, -, hstage⟩
    · rw [heq]
      exact hbegun
    · exact hbegun.goes hstage
  · rw [hsweeps] at hw
    by_cases hu : u' = u
    · subst hu
      rw [update_self] at hw
      cases hw
      rcases hphase k with ⟨-, hne⟩ | ⟨-, -, hfinishing, -⟩
      · exact absurd hk hne
      · exact hfinishing
    · rw [update_of_ne hu] at hw
      obtain ⟨c, v, s, ret, hp⟩ := h.holder u' w' k hw hk
      rcases hphase k with ⟨heq, -⟩ | ⟨hidle, -⟩
      · exact ⟨c, v, s, ret, heq.trans hp⟩
      · exact (idle_of_eq hp.symm hidle).elim
  · rw [hsweeps]
    rcases hphase k with ⟨heq, -⟩ | ⟨-, hholder, ⟨c', v', s', ret', hfinishing⟩, -⟩
    · rw [heq] at hk
      obtain ⟨w', hw', hholder⟩ := h.sweeping k c v u' s ret hk
      have hu : u' ≠ u := by
        rintro rfl
        rw [hsweep] at hw'
        cases hw'
      exact ⟨w', by rw [update_of_ne hu]; exact hw', hholder⟩
    · rw [hfinishing] at hk
      cases hk
      exact ⟨w, update_self .., hholder⟩

theorem Tallied.complete (h : x.Tallied) (hy : x.completeStep k (x.phase k) = some y) : y.Tallied := by
  cases hp : x.phase k with
  | completing c v u s ret prober =>
    obtain ⟨hscans, hcame⟩ := (h.at_phase hp).stage
    rw [hp] at hy
    simp only [completeStep] at hy
    split_ifs at hy with hsweep
    cases hy
    have hsweeps := done_sweeps x u s (.inl k) prober
    refine h.begins (not_isSome_iff_eq_none.mp hsweep) rfl
      (done_registered x u s (.inl k) prober) hsweeps fun k' => ?_
    by_cases hne : k' = k
    · subst hne
      have hself : ((x.uxSelectOneDone u s (.inl k') prober).goes k' (.finishing c v u s ret)).phase k' =
          .finishing c v u s ret := update_self ..
      refine .inr ⟨idle_of_eq hp trivial, rfl, ⟨c, v, s, ret, hself⟩, ?_⟩
      rw [hself]
      refine ⟨hscans, fun hl => (hcame hl).imp_right fun hcame => hcame.imp_right fun hr => ?_⟩
      refine ⟨hr, _, (congrFun hsweeps u).trans (update_self ..), ?_, Nat.zero_le _⟩
      exact congrArg Prod.fst hr.2
    · exact .inl ⟨update_of_ne hne .., fun heq => hne (Sum.inl.inj heq).symm⟩
  | unborn | scanning _ | finishing _ _ _ _ _ | probing _ _ _ _ _ | storing _ _ _ | settling | blocked
  | returned _ =>
    rw [hp] at hy
    cases hy

theorem Tallied.report {p : P} (h : x.Tallied) (hy : x.next (.report p) = some y) : y.Tallied := by
  simp only [next] at hy
  cases hp : x.prober p with
  | probing u s k v type wait =>
    rw [hp] at hy
    simp only at hy
    split_ifs at hy with hsweep
    cases hy
    exact h.begins (not_isSome_iff_eq_none.mp hsweep) rfl (done_registered x u s (.inr p) true)
      (done_sweeps x u s (.inr p) true) fun k' => .inl ⟨rfl, Sum.inr_ne_inl⟩
  | unborn | started _ _ _ _ | finishing _ | gone =>
    rw [hp] at hy
    cases hy

theorem turns_sweeps (x : Selects K U P n) (u : U) (z : Uxio K P n) :
    (x.turns u z).sweeps = update x.sweeps u z.sweep := by
  funext u'
  unfold sweeps turns
  by_cases hu : u' = u
  · subst hu
    simp only [update_self]
  · simp only [update_of_ne hu]

theorem Tallied.advances {w w' : Sweep K P} (h : x.Tallied) (hw : x.sweeps u = some w)
    (hholder : w'.holder = w.holder) (hphase : y.phase = x.phase)
    (hsweeps : y.sweeps = update x.sweeps u (some w'))
    (hfits : ∀ k, Fit (y.selector k) (x.phase k) (y.Registered k) y.sweeps) : y.Tallied := by
  refine ⟨fun k => ?_, fun u' w₁ k hw₁ hk => ?_, fun k c v u' s ret hk => ?_⟩
  · unfold Fits
    rw [hphase]
    exact hfits k
  · rw [hsweeps] at hw₁
    rw [hphase]
    by_cases hu : u' = u
    · subst hu
      rw [update_self] at hw₁
      cases hw₁
      exact h.holder u' w k hw (hholder.symm.trans hk)
    · rw [update_of_ne hu] at hw₁
      exact h.holder u' w₁ k hw₁ hk
  · rw [hphase] at hk
    rw [hsweeps]
    obtain ⟨w₁, hw₁, hheld⟩ := h.sweeping k c v u' s ret hk
    by_cases hu : u' = u
    · subst hu
      cases hw.symm.trans hw₁
      exact ⟨w', update_self .., hholder.trans hheld⟩
    · exact ⟨w₁, by rw [update_of_ne hu]; exact hw₁, hheld⟩

theorem Tallied.sweepSlot (h : x.Tallied) (hw : x.sweeps u = some w)
    (hs : w.next = s.val) : (x.sweepSlot u w s).Tallied := by
  have hpassed {k : K} {w' : Sweep K P} (hnext : w'.next = w.next + 1) (htype : w'.type = w.type)
      (hslot : ∀ v, x.Registered k v u s → v.1 ≠ w.type) :
      Fit (x.selector k) (x.phase k) (x.Registered k) (update x.sweeps u (some w')) :=
    (h.fits k).passed hw hs hnext htype hslot
  have hkept (w' : Sweep K P) : (x.turns u { x.io u with sweep := some w' }).Registered = x.Registered := by
    funext k' v' u' s'
    unfold Registered Selects.turns
    by_cases hu : u' = u
    · subst hu
      simp only [update_self]
    · simp only [update_of_ne hu]
  have hover (hslot : ∀ k v, x.Registered k v u s → v.1 ≠ w.type) :
      (x.turns u { x.io u with sweep := some { w with next := w.next + 1 } }).Tallied := by
    have hsweeps := turns_sweeps x u { x.io u with sweep := some { w with next := w.next + 1 } }
    refine h.advances hw ?_ rfl hsweeps fun k => ?_
    · rfl
    · rw [hkept, hsweeps]
      exact hpassed rfl rfl (hslot k)
  unfold Selects.sweepSlot
  simp only
  cases hselector : ((x.io u).activeSelects s).selector with
  | none =>
    refine hover fun k v hv => ?_
    rw [hv.1] at hselector
    cases hselector
  | some k₁ =>
    simp only
    by_cases htype : ((x.io u).activeSelects s).visit.1 = w.type
    · rw [if_pos htype]
      let z : Uxio K P n := { x.io u with
        activeSelects := update (x.io u).activeSelects s
          { (x.io u).activeSelects s with selector := none }
        sweep := some { w with
          next := w.next + 1
          countSignaled := w.countSignaled +
            ((x.selector k₁).signal ((x.io u).activeSelects s).visit).1.toNat } }
      let x₁ := (x.sets k₁ ((x.selector k₁).signal ((x.io u).activeSelects s).visit).2).references k₁ (-1)
      have hsweeps : (x₁.turns u z).sweeps = update x.sweeps u z.sweep := turns_sweeps x₁ u z
      have htakes : Takes x (x₁.turns u z) u s { (x.io u).activeSelects s with selector := none } := by
        intro u' s'
        by_cases hu : u' = u
        · subst hu
          by_cases hs' : s' = s
          · subst hs'
            simp [Selects.turns, z]
          · simp [Selects.turns, z, hs']
        · rw [if_neg fun hplace : u' = u ∧ s' = s => hu hplace.1]
          simp only [Selects.turns, update_of_ne hu]
          rfl
      refine h.advances hw ?_ rfl hsweeps fun k => ?_
      · rfl
      rw [htakes.others nofun, hsweeps]
      by_cases hne : k = k₁
      · subst hne
        have hsel : (x₁.turns u z).selector k =
            ((x.selector k).signal ((x.io u).activeSelects s).visit).2 := update_self ..
        have hsignalled {w' : Sweep K P} (hnext : w'.next = w.next + 1) (ht : w'.type = w.type) :=
          (h.fits k).signalled ⟨hselector, rfl⟩ (fun v' hv' => hv'.2.symm) hw hs hnext ht
        rw [hsel]
        exact hsignalled rfl rfl
      · have hsel : (x₁.turns u z).selector k = x.selector k := update_of_ne hne ..
        have hnone (v : Visit n) : ¬ x.Registered k v u s := fun hv =>
          hne (some.inj (hv.1.symm.trans hselector))
        have hpast {w' : Sweep K P} (hnext : w'.next = w.next + 1) (ht : w'.type = w.type) :=
          ((h.fits k).evicted fun v hv => absurd hv (hnone v)).passed hw hs hnext ht
            fun v hv => absurd hv.1 (hnone v)
        rw [hsel]
        exact hpast rfl rfl
    · rw [if_neg htype]
      exact hover fun k v hv => hv.2 ▸ htype

theorem Tallied.ends (h : x.Tallied) (hw : x.sweeps u = some w)
    (hregistered : y.Registered = x.Registered) (hsweeps : y.sweeps = update x.sweeps u none)
    (hphase : ∀ k, y.phase k = x.phase k ∧ y.selector k = x.selector k ∧ w.holder ≠ .inl k ∨
      w.holder = .inl k ∧ Idle (y.phase k) ∧
        Fit (y.selector k) (y.phase k) (x.Registered k) (update x.sweeps u none)) :
    y.Tallied := by
  refine ⟨fun k => ?_, fun u' w₁ k hw₁ hk => ?_, fun k c v u' s ret hk => ?_⟩
  · unfold Fits
    rw [hregistered, hsweeps]
    rcases hphase k with ⟨heq, hsel, hne⟩ | ⟨-, -, hfit⟩
    · rw [heq, hsel]
      refine (h.fits k).ended fun c v s ret hp => ?_
      obtain ⟨w₁, hw₁, hheld⟩ := h.sweeping k c v u s ret hp
      cases hw.symm.trans hw₁
      exact hne hheld
    · exact hfit
  · rw [hsweeps] at hw₁
    by_cases hu : u' = u
    · subst hu
      rw [update_self] at hw₁
      cases hw₁
    · rw [update_of_ne hu] at hw₁
      obtain ⟨c, v, s, ret, hp⟩ := h.holder u' w₁ k hw₁ hk
      rcases hphase k with ⟨heq, -⟩ | ⟨hholder, -⟩
      · exact ⟨c, v, s, ret, heq.trans hp⟩
      · obtain ⟨c', v', s', ret', hp'⟩ := h.holder u w k hw hholder
        rw [hp'] at hp
        cases hp
        exact absurd rfl hu
  · rw [hsweeps]
    rcases hphase k with ⟨heq, -, hne⟩ | ⟨-, hidle, -⟩
    · rw [heq] at hk
      obtain ⟨w₁, hw₁, hheld⟩ := h.sweeping k c v u' s ret hk
      have hu : u' ≠ u := by
        rintro rfl
        cases hw.symm.trans hw₁
        exact hne hheld
      exact ⟨w₁, by rw [update_of_ne hu]; exact hw₁, hheld⟩
    · exact (idle_of_eq hk.symm hidle).elim

theorem signaled_of_due {a : Uxselect n} {r : Registry U n} {sw : U → Option (Sweep K P)}
    (hdue : Due a r sw v u s) (hw : sw u = some w) (hover : ¬ w.next < uxioMaxSelectCount) :
    v ∈ a.signaledFds := by
  rcases hdue with hin | ⟨-, w', hw', -, hle⟩
  · exact hin
  · cases hw.symm.trans hw'
    exact absurd (hle.trans_lt s.isLt) hover

variable {z : Uxio K P n}

theorem registered_turns (hslots : z.activeSelects = (x.io u).activeSelects) :
    (x.turns u z).Registered = x.Registered := by
  funext k' v' u' s'
  unfold Registered Selects.turns
  by_cases hu : u' = u
  · subst hu
    simp only [update_self, hslots]
  · simp only [update_of_ne hu]

theorem Tallied.goesOn {a : Uxselect n} {q : SelectPhase U n}
    (h : x.Tallied) (hw : x.sweeps u = some w) (hholder : w.holder = .inl k)
    (hslots : z.activeSelects = (x.io u).activeSelects) (hsweep : z.sweep = none) (hq : Idle q)
    (hfit : Fit a q (x.Registered k) (update x.sweeps u none)) :
    (((x.turns u z).sets k a).goes k q).Tallied := by
  refine h.ends hw (registered_turns hslots) ?_ fun k' => ?_
  · rw [← hsweep]
    exact turns_sweeps x u z
  · by_cases hne : k' = k
    · subst hne
      have hphase : (((x.turns u z).sets k' a).goes k' q).phase k' = q := update_self ..
      have hselector : (((x.turns u z).sets k' a).goes k' q).selector k' = a := update_self ..
      rw [hphase, hselector]
      exact .inr ⟨hholder, hq, hfit⟩
    · refine .inl ⟨update_of_ne hne .., update_of_ne hne .., fun heq => hne ?_⟩
      exact Sum.inl.inj (heq.symm.trans hholder)

theorem goes_eq (x : Selects K U P n) (k : K) (q : SelectPhase U n) :
    x.goes k q = (x.sets k (x.selector k)).goes k q := by
  simp [sets, Selects.goes]

theorem Tallied.backs (h : x.Tallied) (hw : x.sweeps u = some w)
    (hholder : w.holder = .inl k) (hover : ¬ w.next < uxioMaxSelectCount)
    (hp : x.phase k = .finishing c v u s ret) (hslots : z.activeSelects = (x.io u).activeSelects)
    (hsweep : z.sweep = none) (hforgotten : c.localOnly = false → ret ≠ .success → x.Forgotten k) :
    ((x.turns u z).back k c v ret).Tallied := by
  have hfit := h.at_phase hp
  have hswept {q : SelectPhase U n} (hq : ∀ c v s ret, q ≠ .finishing c v u s ret)
      (hstage : Stage (x.selector k) (x.Registered k) x.sweeps q) :
      Fit (x.selector k) q (x.Registered k) (update x.sweeps u none) :=
    (hfit.goes hstage).ended hq
  obtain ⟨hscans, hcame⟩ := hfit.stage
  unfold back
  by_cases hlocal : c.localOnly = true
  · obtain ⟨rfl, hdue⟩ := hcame hlocal
    have hin := signaled_of_due hdue hw hover
    have hfree : ¬ (x.Registered k).Waits v := fun hv => (hfit.slots v hv).2 hscans.alive hin
    rw [if_pos hlocal]
    have hsame : ({ (x.turns u z).selector k with
        signaledFds := insert v ((x.turns u z).selector k).signaledFds } : Uxselect n) = x.selector k := by
      change ({ x.selector k with signaledFds := insert v (x.selector k).signaledFds } : Uxselect n) = _
      rw [Finset.insert_eq_of_mem hin]
    rw [hsame]
    exact h.goesOn hw hholder hslots hsweep trivial
      (hswept (by rintro c v s ret ⟨⟩) (hscans.found hfree))
  · rw [if_neg hlocal]
    have hremote := Bool.eq_false_of_not_eq_true hlocal
    by_cases hret : ret = .success
    · subst hret
      rw [goes_eq]
      exact h.goesOn hw hholder hslots hsweep trivial
        (hswept (by rintro c v s ret ⟨⟩) (hscans.remote hremote))
    · have hleft : ((x.turns u z).returns k ret).Tallied := by
        refine h.goesOn hw hholder hslots hsweep trivial ?_
        have hrest : Fit (x.selector k) (.scanning c) (x.Registered k) (update x.sweeps u none) :=
          hswept (by rintro c v s ret ⟨⟩) (hscans.remote hremote)
        exact hrest.returned (.inr (hforgotten hremote hret).free) hret
      cases ret with
      | success => exact absurd rfl hret
      | _ => exact hleft

theorem Tallied.sweepEnds (h : x.Tallied) (hspared : x.Spared (.sweep u))
    (hw : x.sweeps u = some w) (hover : ¬ w.next < uxioMaxSelectCount) : (x.sweepEnds u w).Tallied := by
  obtain ⟨z, hz, hslots, hsweep⟩ : ∃ z, (if 0 < w.countSignaled then
      x.turns u { x.io u with
        selectState := update (x.io u).selectState w.type .nothing
        sweep := none
        owed := update (x.io u).owed w.type false }
      else x.turns u { x.io u with sweep := none }) = x.turns u z ∧
      z.activeSelects = (x.io u).activeSelects ∧ z.sweep = none := by
    split_ifs
    · exact ⟨_, rfl, rfl, rfl⟩
    · exact ⟨_, rfl, rfl, rfl⟩
  unfold Selects.sweepEnds
  simp only
  rw [hz]
  unfold resume
  cases hholder : w.holder with
  | inl k =>
    obtain ⟨c, v, s, ret, hp⟩ := h.holder u w k hw hholder
    have hturned : (x.turns u z).phase k = .finishing c v u s ret := hp
    simp only [hturned]
    refine h.backs hw hholder hover hp hslots hsweep fun hremote hret => ?_
    obtain ⟨holder, type, next, count⟩ := w
    obtain ⟨localOnly, rest, found⟩ := c
    subst hholder hremote
    simp only [Spared, hw, hp] at hspared
    exact hspared (Nat.le_of_not_lt hover) hret
  | inr p =>
    refine h.ends hw (registered_turns hslots) ?_ fun k => .inl ⟨rfl, rfl, ?_⟩
    · rw [← hsweep]
      exact turns_sweeps x u z
    · rw [hholder]
      exact Sum.inr_ne_inl

theorem Tallied.next (h : x.Tallied) (hspared : x.Spared e) (hy : x.next e = some y) : y.Tallied := by
  cases e with
  | start k nfds given timed => exact h.start hspared hy
  | visit k entry wait => exact h.visit hspared hy
  | pass k port => exact h.pass hy
  | attempt k p ret => exact h.attempt hy
  | store k => exact h.store hy
  | complete k => exact h.complete hy
  | settle k msg => exact h.settle hy
  | wake k interrupted => exact h.wake hy
  | begin p =>
    simp only [Selects.next] at hy
    cases hp : x.prober p <;> rw [hp] at hy <;> cases hy
    exact h.aside rfl rfl rfl rfl
  | report p => exact h.report hy
  | sweep u =>
    simp only [Selects.next] at hy
    cases hw : (x.io u).sweep with
    | none =>
      rw [hw] at hy
      cases hy
    | some w =>
      rw [hw] at hy
      simp only at hy
      split_ifs at hy with hnext
      · cases hy
        exact h.sweepSlot hw rfl
      · cases hy
        exact h.sweepEnds hspared hw hnext
  | read u consumes =>
    cases hy
    exact h.read

theorem boot_tallied (idle : SelectInfo K n) : (boot idle : Selects K U P n).Tallied := by
  have hfree (k : K) (v : Visit n) : ¬ ((boot idle : Selects K U P n).Registered k).Waits v := by
    rintro ⟨u, s, ⟨⟩, -⟩
  refine ⟨fun k => ?_, by rintro u w k ⟨⟩, by rintro k c v u s ret ⟨⟩⟩
  refine ⟨rfl, rfl, Finset.Subset.refl _, rfl, Finset.empty_subset _, by rintro v ⟨⟩,
    fun v hv => absurd hv (hfree k v), fun v u s u' s' hr => absurd ⟨u, s, hr⟩ (hfree k v), hfree k⟩

end Selects

structure Uxselect.Reports {n : ℕ} (a : Uxselect n) (ret : SelRet) : Prop where
  settled : a.answer = some a.signaledFds
  looked : ret = .success → ∀ v, v ∈ a.looked ↔ v ∈ a.given ∧ (v.2.val : ℤ) < a.nFds
  ready : ret = .success → a.signaledFds ⊆ a.given ∩ a.told
  found : ret = .success → a.foundFds = a.signaledFds.card
  acknowledged : ret = .success → a.acknowledged ⊆ a.signaledFds

namespace Selects

variable {K U P : Type} {n : ℕ} [DecidableEq K] [DecidableEq U] [DecidableEq P] {x : Selects K U P n} {k : K}
  {ret : SelRet} {idle : SelectInfo K n} {es : List (SelectEvent K U P n)}

theorem Tallied.reports (h : x.Tallied) (hp : x.phase k = .returned ret) : (x.selector k).Reports ret := by
  have hfit := h.at_phase hp
  have hreturned : Returned _ _ ret := hfit.stage
  have hgiven : (x.selector k).selectedFds ⊆ (x.selector k).given := by
    rw [hfit.selected]
    exact Finset.filter_subset _ _
  refine ⟨hreturned.answered, fun hret v => ?_, fun _ => ?_, fun hret => ?_, fun _ => ?_⟩
  · rw [hreturned.looked hret v]
    refine ⟨fun hv => ?_, fun ⟨hv, hlt⟩ => (hfit.bounded v hv).mpr hlt⟩
    have hin := hgiven (Uxselect.mem_looks hv)
    exact ⟨hin, (hfit.bounded v hin).mp hv⟩
  · exact Finset.subset_inter (hfit.signaled.trans hgiven) hfit.told
  · exact (hreturned.found hret).trans hfit.counted
  · exact hfit.acknowledged.subset

theorem select_results (hrun : exec next (boot idle) es = some x)
    (hspared : Admits next Spared (boot idle) es) :
    ∀ k ret, x.phase k = .returned ret → (x.selector k).Reports ret := by
  have hsteps := run_of_exec hspared hrun
  have htallied : x.Tallied :=
    invariant (fun _ _ _ hx hspared hy => hx.next hspared hy) hsteps (boot_tallied idle)
  exact fun k ret hp => htallied.reports hp

instance Forgotten.decidable [Fintype U] (x : Selects K U P n) (k : K) : Decidable (x.Forgotten k) :=
  inferInstanceAs (Decidable (∀ u s, ((x.io u).activeSelects s).selector ≠ some k))

instance Spared.decidable [Fintype U] (x : Selects K U P n) (e : SelectEvent K U P n) :
    Decidable (x.Spared e) := by
  unfold Spared
  repeat' split
  all_goals infer_instance

namespace Sample

def slot : SelectInfo Unit 2 := ⟨none, (.read, 0), false, false⟩

def idleSelects : Selects Unit Unit Unit 2 := boot slot

def answered (given : Finset (Visit 2)) : List (SelectEvent Unit Unit Unit 2) :=
  [.start () 1 given false, .visit () (some ()) true, .pass () false, .visit () (some ()) true,
    .attempt () () .success, .store (), .pass () false, .settle () .received, .begin (), .report ()] ++
    List.replicate 17 (.sweep ()) ++ [.wake () false]

def late : List (SelectEvent Unit Unit Unit 2) :=
  [.start () 2 {(.read, 0), (.read, 1)} false, .visit () (some ()) true, .visit () (some ()) true,
    .pass () false, .visit () (some ()) true, .attempt () () .success, .store (), .visit () none true,
    .begin (), .report (), .sweep ()]

def succeeded (x : Selects Unit Unit Unit 2) : Bool :=
  match x.phase () with
  | .returned .success => true
  | _ => false

theorem phase_of_succeeded {x : Selects Unit Unit Unit 2} (h : succeeded x = true) :
    x.phase () = .returned .success := by
  unfold succeeded at h
  split at h
  · assumption
  · cases h

theorem answered_reports : ∃ x : Selects Unit Unit Unit 2, x.phase () = .returned .success ∧
    (x.selector ()).Reports .success := by
  have hcheck : check next idleSelects (answered {(.read, 0)}) succeeded = true := by
    decide +kernel
  obtain ⟨x, hrun, hx⟩ := exec_of_check hcheck
  have hp := phase_of_succeeded hx
  exact ⟨x, hp, select_results hrun (by decide +kernel) () .success hp⟩

theorem select_skips_and_writes_late :
    (¬ ∀ (es : List (SelectEvent Unit Unit Unit 2)) (x : Selects Unit Unit Unit 2),
      exec next idleSelects es = some x →
        ∀ ret, x.phase () = .returned ret → (x.selector ()).Reports ret) ∧
    check next idleSelects late (fun x =>
      (x.phase () matches .returned .badFd) ∧ (x.selector ()).answer = some ∅ ∧
        (x.selector ()).signaledFds = {(.read, 0)}) = true := by
  refine ⟨fun hclaim => ?_, by decide +kernel⟩
  have hcheck : check next idleSelects (answered {(.read, 0), (.write, 0)}) (fun x =>
      succeeded x && decide (((.write, 0) : Visit 2) ∉ (x.selector ()).looked ∧
        (.write, 0) ∈ (x.selector ()).given ∧ (x.selector ()).nFds = 1)) = true := by
    decide +kernel
  obtain ⟨x, hrun, hx⟩ := exec_of_check hcheck
  rw [Bool.and_eq_true, decide_eq_true_eq] at hx
  obtain ⟨hsucceeded, hunlooked, hgiven, hnfds⟩ := hx
  have hreports := hclaim _ x hrun .success (phase_of_succeeded hsucceeded)
  refine hunlooked ((hreports.looked rfl (.write, 0)).mpr ⟨hgiven, ?_⟩)
  rw [hnfds]
  decide

end Sample

end Selects

end MachUS.Ux
