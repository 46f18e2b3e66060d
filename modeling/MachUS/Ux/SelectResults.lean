import MachUS.Ux.Selects

namespace MachUS.Ux

open Function List Uxselect

namespace Uxselect

variable {n : ℕ} {nfds : ℤ} {fds : Finset (Visit n)}

theorem lookSet_sublist (i : SelType) (js : List (Fin n)) (seen : ℤ) :
    (lookSet nfds fds i js seen).1.Sublist ((js.map fun j => (i, j)).filter (· ∈ fds)) := by
  induction js generalizing seen with
  | nil => exact .slnil
  | cons j js ih =>
    rw [lookSet]
    by_cases hseen : seen < nfds
    · rw [if_pos hseen]
      by_cases hj : (i, j) ∈ fds
      · rw [if_pos hj, map_cons, filter_cons_of_pos (by simpa using hj)]
        exact (ih (seen + 1)).cons_cons _
      · rw [if_neg hj, map_cons, filter_cons_of_neg (by simpa using hj)]
        exact ih seen
    · rw [if_neg hseen]
      exact nil_sublist _

theorem mem_lookSet {i : SelType} {js : List (Fin n)} {seen : ℤ} {v : Visit n}
    (h : v ∈ (lookSet nfds fds i js seen).1) : v.1 = i ∧ v ∈ fds := by
  obtain ⟨hmap, hmem⟩ := mem_filter.mp ((lookSet_sublist i js seen).subset h)
  obtain ⟨j, -, rfl⟩ := mem_map.mp hmap
  exact ⟨rfl, by simpa using hmem⟩

theorem lookSet_nodup (i : SelType) (seen : ℤ) :
    (lookSet nfds fds i (finRange n) seen).1.Nodup := by
  refine ((nodup_finRange n).map fun a b h => ?_).filter _ |>.sublist (lookSet_sublist i _ seen)
  exact (Prod.mk.inj h).2

theorem mem_looks {v : Visit n} (h : v ∈ looks nfds fds) : v ∈ fds := by
  rcases mem_append.mp h with h | h
  · exact (mem_lookSet h).2
  · rcases mem_append.mp h with h | h
    · exact (mem_lookSet h).2
    · exact (mem_lookSet h).2

theorem looks_nodup : (looks nfds fds).Nodup := by
  refine nodup_append'.mpr ⟨lookSet_nodup _ _,
    nodup_append'.mpr ⟨lookSet_nodup _ _, lookSet_nodup _ _, ?_⟩, ?_⟩
  · intro v hw he
    cases (mem_lookSet hw).1.symm.trans (mem_lookSet he).1
  · intro v hr hrest
    rcases mem_append.mp hrest with hw | he
    · cases (mem_lookSet hr).1.symm.trans (mem_lookSet hw).1
    · cases (mem_lookSet hr).1.symm.trans (mem_lookSet he).1

end Uxselect

section Fitting

variable {K U P : Type} {n : ℕ}

abbrev Registry (U : Type) (n : ℕ) := Visit n → U → SlotIndex → Prop

def Registry.Waits (r : Registry U n) (v : Visit n) : Prop := ∃ u s, r v u s

def Uxselect.ahead (a : Uxselect n) : List (Visit n) := looks a.nFds a.selectedFds

structure Scans (a : Uxselect n) (r : Registry U n) (c : Scan n) (cur : Option (Visit n)) : Prop where
  alive : a.state ≠ .completed
  unanswered : a.answer = none
  nodup : c.rest.Nodup
  ahead : ∀ v ∈ c.rest, v ∈ a.ahead ∧ v ∉ a.signaledFds ∧ ¬ r.Waits v ∧ cur ≠ some v
  looked : ∀ v ∈ a.looked, v ∈ a.ahead
  covered : ∀ v ∈ a.ahead, v ∈ a.looked ∨ c.localOnly = true ∧ v ∈ c.rest
  alone : c.localOnly = true → ∀ v, r.Waits v → cur = some v
  quiet : c.localOnly = true → c.found = false → ∀ v ∈ a.signaledFds, cur = some v

structure Rests (a : Uxselect n) : Prop where
  alive : a.state ≠ .completed
  unanswered : a.answer = none
  looked : ∀ v, v ∈ a.looked ↔ v ∈ a.ahead

structure Returned (a : Uxselect n) (r : Registry U n) (ret : SelRet) : Prop where
  answered : a.answer = some a.signaledFds
  quiet : a.state = .completed ∨ ∀ v, ¬ r.Waits v
  found : ret = .success → a.foundFds = a.countFoundFds
  looked : ret = .success → ∀ v, v ∈ a.looked ↔ v ∈ a.ahead

def Due (a : Uxselect n) (r : Registry U n) (sw : U → Option (Sweep K P)) (v : Visit n) (u : U)
    (s : SlotIndex) : Prop :=
  v ∈ a.signaledFds ∨ r v u s ∧ ∃ w, sw u = some w ∧ w.type = v.1 ∧ w.next ≤ s.val

def Stage (a : Uxselect n) (r : Registry U n) (sw : U → Option (Sweep K P)) : SelectPhase U n → Prop
  | .unborn => ∀ v, ¬ r.Waits v
  | .scanning c => Scans a r c none
  | .completing c v u s ret _ =>
    Scans a r c (some v) ∧ (c.localOnly = true → ret = .success ∧ (v ∈ a.signaledFds ∨ r v u s))
  | .finishing c v u s ret =>
    Scans a r c (some v) ∧ (c.localOnly = true → ret = .success ∧ Due a r sw v u s)
  | .probing c v _ _ _ => Scans a r c (some v) ∧ c.localOnly = false
  | .storing c _ _ => Scans a r c none ∧ c.localOnly = false
  | .settling | .blocked => Rests a
  | .returned ret => Returned a r ret

structure Fit (a : Uxselect n) (q : SelectPhase U n) (r : Registry U n)
    (sw : U → Option (Sweep K P)) : Prop where
  counted : a.countFoundFds = a.signaledFds.card
  acknowledged : a.acknowledged = a.signaledFds
  told : a.signaledFds ⊆ a.told
  selected : a.selectedFds = a.given.filter fun v => v.1 ≠ .except
  signaled : a.signaledFds ⊆ a.selectedFds
  bounded : ∀ v ∈ a.given, v ∈ a.ahead ↔ (v.2.val : ℤ) < a.nFds
  slots : ∀ v, r.Waits v → v ∈ a.selectedFds ∧ (a.state ≠ .completed → v ∉ a.signaledFds)
  unique : ∀ v u s u' s', r v u s → r v u' s' → u = u' ∧ s = s'
  stage : Stage a r sw q

variable {a : Uxselect n} {q q' : SelectPhase U n} {r r' : Registry U n} {sw sw' : U → Option (Sweep K P)}
  {c : Scan n} {cur : Option (Visit n)} {v : Visit n} {u : U} {s : SlotIndex} {ret : SelRet}

theorem Fit.goes (h : Fit a q r sw) (hstage : Stage a r sw q') : Fit a q' r sw :=
  { h with stage := hstage }

theorem Scans.fewer (h : Scans a r c cur) (hr : ∀ v, r'.Waits v → r.Waits v) : Scans a r' c cur :=
  { h with
    ahead := fun v hv => ⟨(h.ahead v hv).1, (h.ahead v hv).2.1,
      fun hw => (h.ahead v hv).2.2.1 (hr v hw), (h.ahead v hv).2.2.2⟩
    alone := fun hl v hv => h.alone hl v (hr v hv) }

theorem Fit.swept (h : Fit a q r sw)
    (hdue : ∀ c v u s ret, q = .finishing c v u s ret → Due a r sw v u s → Due a r sw' v u s) :
    Fit a q r sw' := by
  refine { h with stage := ?_ }
  have hstage := h.stage
  cases q with
  | finishing c v u s ret =>
    exact ⟨hstage.1, fun hl => (hstage.2 hl).imp_right (hdue c v u s ret rfl)⟩
  | unborn | scanning _ | completing _ _ _ _ _ _ | probing _ _ _ _ _ | storing _ _ _ | settling | blocked
  | returned _ => exact hstage

def Registry.without (r : Registry U n) (u : U) (s : SlotIndex) : Registry U n :=
  fun v u' s' => r v u' s' ∧ ¬ (u' = u ∧ s' = s)

def Registry.plus (r : Registry U n) (v : Visit n) (u : U) (s : SlotIndex) : Registry U n :=
  fun v' u' s' => r v' u' s' ∨ v' = v ∧ u' = u ∧ s' = s

theorem Registry.waits_without (hw : (r.without u s).Waits v) : r.Waits v := by
  obtain ⟨u', s', h, -⟩ := hw
  exact ⟨u', s', h⟩

theorem Fit.evicted (h : Fit a q r sw) (hslot : ∀ v, r v u s → a.state = .completed) :
    Fit a q (r.without u s) sw := by
  have hfewer (v : Visit n) : (r.without u s).Waits v → r.Waits v := Registry.waits_without
  have hkept {v : Visit n} {u' : U} {s' : SlotIndex} (halive : a.state ≠ .completed)
      (hr : r v u' s') : r.without u s v u' s' := by
    refine ⟨hr, ?_⟩
    rintro ⟨rfl, rfl⟩
    exact halive (hslot v hr)
  refine { h with
    slots := fun v hv => h.slots v (hfewer v hv)
    unique := fun v u₁ s₁ u₂ s₂ h₁ h₂ => h.unique v u₁ s₁ u₂ s₂ h₁.1 h₂.1
    stage := ?_ }
  have hstage := h.stage
  cases q with
  | unborn => exact fun v hv => hstage v (hfewer v hv)
  | scanning c => exact Scans.fewer hstage hfewer
  | completing c v u' s' ret prober =>
    refine ⟨hstage.1.fewer hfewer, fun hl => (hstage.2 hl).imp_right fun hcame => ?_⟩
    exact hcame.imp_right (hkept hstage.1.alive)
  | finishing c v u' s' ret =>
    refine ⟨hstage.1.fewer hfewer, fun hl => (hstage.2 hl).imp_right fun hcame => ?_⟩
    exact hcame.imp_right fun hdue => ⟨hkept hstage.1.alive hdue.1, hdue.2⟩
  | probing c v u' s' wait => exact ⟨hstage.1.fewer hfewer, hstage.2⟩
  | storing c u' s' => exact ⟨hstage.1.fewer hfewer, hstage.2⟩
  | settling | blocked => exact hstage
  | returned ret =>
    exact ⟨hstage.answered, hstage.quiet.imp_right fun hno v hv => hno v (hfewer v hv), hstage.found,
      hstage.looked⟩

theorem Fit.passed [DecidableEq U] {w w' : Sweep K P} (h : Fit a q r sw) (hw : sw u = some w)
    (hs : w.next = s.val) (hnext : w'.next = w.next + 1) (htype : w'.type = w.type)
    (hslot : ∀ v, r v u s → v.1 ≠ w.type) : Fit a q r (update sw u (some w')) := by
  refine h.swept fun c v u' s' ret _ hdue => hdue.imp_right fun ⟨hr, w₀, hw₀, ht, hle⟩ => ⟨hr, ?_⟩
  by_cases hu : u' = u
  · subst hu
    cases hw.symm.trans hw₀
    refine ⟨w', update_self .., htype.trans ht, ?_⟩
    have hne : s ≠ s' := by
      rintro rfl
      exact hslot v hr ht.symm
    have hval : s.val ≠ s'.val := fun heq => hne (Fin.ext heq)
    omega
  · exact ⟨w₀, by rw [update_of_ne hu]; exact hw₀, ht, hle⟩

theorem Fit.begun [DecidableEq U] {w : Sweep K P} (h : Fit a q r sw) (hw : sw u = none) :
    Fit a q r (update sw u (some w)) := by
  refine h.swept fun c v u' s' ret _ hdue => hdue.imp_right fun ⟨hr, w₀, hw₀, ht, hle⟩ => ⟨hr, ?_⟩
  by_cases hu : u' = u
  · subst hu
    rw [hw] at hw₀
    cases hw₀
  · exact ⟨w₀, by rw [update_of_ne hu]; exact hw₀, ht, hle⟩

theorem Fit.ended [DecidableEq U] (h : Fit a q r sw)
    (hq : ∀ c v s ret, q ≠ .finishing c v u s ret) : Fit a q r (update sw u none) := by
  refine h.swept fun c v u' s' ret heq hdue => hdue.imp_right fun ⟨hr, w₀, hw₀, ht, hle⟩ => ⟨hr, ?_⟩
  by_cases hu : u' = u
  · subst hu
    exact absurd heq (hq c v s' ret)
  · exact ⟨w₀, by rw [update_of_ne hu]; exact hw₀, ht, hle⟩

theorem Registry.waits_plus {v' : Visit n} (hw : (r.plus v u s).Waits v') : r.Waits v' ∨ v' = v := by
  obtain ⟨u', s', h | ⟨h, -⟩⟩ := hw
  · exact .inl ⟨u', s', h⟩
  · exact .inr h

theorem Scans.signalled (h : Scans a r c cur) (hr : r v u s) (hmem : v ∈ a.selectedFds) :
    Scans (a.signal v).2 (r.without u s) c cur := by
  have hsignal : (a.signal v).2 = { a with
      told := insert v a.told
      signaledFds := insert v a.signaledFds
      countFoundFds := a.countFoundFds + 1
      state := .collecting
      acknowledged := insert v a.acknowledged } := by
    rw [signal]
    simp only [if_neg h.alive, hmem, not_true_eq_false, if_false]
  rw [hsignal]
  refine ⟨fun h => SelState.noConfusion h, h.unanswered, h.nodup, fun y hy => ?_, h.looked, h.covered,
    fun hl y hy => h.alone hl y (Registry.waits_without hy), fun hl hf y hy => ?_⟩
  · obtain ⟨hahead, hunsignaled, hfree, hcur⟩ := h.ahead y hy
    refine ⟨hahead, fun hmem => ?_, fun hw => hfree (Registry.waits_without hw), hcur⟩
    rcases Finset.mem_insert.mp hmem with rfl | hmem
    · exact hfree ⟨u, s, hr⟩
    · exact hunsignaled hmem
  · rcases Finset.mem_insert.mp hy with rfl | hy
    · exact h.alone hl y ⟨u, s, hr⟩
    · exact h.quiet hl hf y hy

theorem Fit.signalled [DecidableEq U] {w w' : Sweep K P} (h : Fit a q r sw) (hr : r v u s)
    (honly : ∀ v', r v' u s → v' = v) (hw : sw u = some w) (hs : w.next = s.val)
    (hnext : w'.next = w.next + 1) (htype : w'.type = w.type) :
    Fit (a.signal v).2 q (r.without u s) (update sw u (some w')) := by
  obtain ⟨hmem, hfresh⟩ := h.slots v ⟨u, s, hr⟩
  have hstage := h.stage
  by_cases hcompleted : a.state = .completed
  · have hsignal : (a.signal v).2 = { a with told := insert v a.told } := by
      rw [signal]
      simp only [if_pos hcompleted]
    have hgone : Fit a q (r.without u s) sw := h.evicted fun _ _ => hcompleted
    have hfit : Fit { a with told := insert v a.told } q (r.without u s) sw := by
      cases q with
      | unborn => exact absurd ⟨u, s, hr⟩ (hstage v)
      | scanning c => exact absurd hcompleted hstage.alive
      | completing _ _ _ _ _ _ | finishing _ _ _ _ _ | probing _ _ _ _ _ | storing _ _ _ =>
        exact absurd hcompleted hstage.1.alive
      | settling | blocked => exact absurd hcompleted hstage.alive
      | returned ret =>
        have hreturned := hgone.stage
        exact { hgone with
          told := fun y hy => Finset.mem_insert_of_mem (h.told hy)
          stage := ⟨hreturned.answered, hreturned.quiet, hreturned.found, hreturned.looked⟩ }
    rw [hsignal]
    refine hfit.swept fun c y u' s' ret heq hdue => ?_
    subst heq
    exact absurd hcompleted hstage.1.alive
  · have hunsignaled := hfresh hcompleted
    have hsignal : (a.signal v).2 = { a with
        told := insert v a.told
        signaledFds := insert v a.signaledFds
        countFoundFds := a.countFoundFds + 1
        state := .collecting
        acknowledged := insert v a.acknowledged } := by
      rw [signal]
      simp only [if_neg hcompleted, hmem, not_true_eq_false, if_false]
    have hscans {c : Scan n} {cur : Option (Visit n)} (hc : Scans a r c cur) :=
      hc.signalled hr hmem
    rw [hsignal] at hscans ⊢
    have hcame {y : Visit n} {u' : U} {s' : SlotIndex} (hy : r y u' s') :
        y ∈ insert v a.signaledFds ∨ r.without u s y u' s' := by
      by_cases hplace : u' = u ∧ s' = s
      · obtain ⟨rfl, rfl⟩ := hplace
        obtain rfl := honly y hy
        exact .inl (Finset.mem_insert_self y _)
      · exact .inr ⟨hy, hplace⟩
    refine ⟨?_, ?_, ?_, h.selected, ?_, h.bounded, fun y hy => ?_,
      fun y u₁ s₁ u₂ s₂ h₁ h₂ => h.unique y u₁ s₁ u₂ s₂ h₁.1 h₂.1, ?_⟩
    · rw [Finset.card_insert_of_notMem hunsignaled, h.counted]
    · exact congrArg (insert v) h.acknowledged
    · exact Finset.insert_subset_insert v h.told
    · exact Finset.insert_subset hmem h.signaled
    · obtain ⟨hsel, hnot⟩ := h.slots y (Registry.waits_without hy)
      refine ⟨hsel, fun _ hin => ?_⟩
      rcases Finset.mem_insert.mp hin with rfl | hin
      · obtain ⟨u', s', hy', hplace⟩ := hy
        exact hplace (h.unique y u' s' u s hy' hr)
      · exact hnot hcompleted hin
    · cases q with
      | unborn => exact absurd ⟨u, s, hr⟩ (hstage v)
      | scanning c => exact hscans hstage
      | completing c y u' s' ret prober =>
        refine ⟨hscans hstage.1, fun hl => (hstage.2 hl).imp_right fun hwas => ?_⟩
        rcases hwas with hin | hy
        · exact .inl (Finset.mem_insert_of_mem hin)
        · exact hcame hy
      | finishing c y u' s' ret =>
        refine ⟨hscans hstage.1, fun hl => (hstage.2 hl).imp_right fun hwas => ?_⟩
        rcases hwas with hin | ⟨hy, w₀, hw₀, ht, hle⟩
        · exact .inl (Finset.mem_insert_of_mem hin)
        · rcases hcame hy with hin | hkept
          · exact .inl hin
          · refine .inr ⟨hkept, ?_⟩
            by_cases hu : u' = u
            · subst hu
              cases hw.symm.trans hw₀
              refine ⟨w', update_self .., htype.trans ht, ?_⟩
              have hval : s.val ≠ s'.val := fun heq => hkept.2 ⟨rfl, (Fin.ext heq).symm⟩
              omega
            · exact ⟨w₀, by rw [update_of_ne hu]; exact hw₀, ht, hle⟩
      | probing c y u' s' wait => exact ⟨hscans hstage.1, hstage.2⟩
      | storing c u' s' => exact ⟨hscans hstage.1, hstage.2⟩
      | settling | blocked =>
        exact ⟨fun h => SelState.noConfusion h, hstage.unanswered, hstage.looked⟩
      | returned ret =>
        rcases hstage.quiet with hdone | hno
        · exact absurd hdone hcompleted
        · exact absurd ⟨u, s, hr⟩ (hno v)

section Visits

variable {localOnly found : Bool} {rest : List (Visit n)}

def Uxselect.visits (a : Uxselect n) (v : Visit n) : Uxselect n := { a with looked := insert v a.looked }

theorem Scans.visits (h : Scans a r ⟨localOnly, v :: rest, found⟩ none) :
    Scans (a.visits v) r ⟨localOnly, rest, found⟩ (some v) := by
  have hnodup := nodup_cons.mp h.nodup
  refine ⟨h.alive, h.unanswered, hnodup.2, fun y hy => ?_, fun y hy => ?_, fun y hy => ?_,
    fun hl y hy => ?_, fun hl hf y hy => ?_⟩
  · obtain ⟨hahead, hunsignaled, hfree, -⟩ := h.ahead y (mem_cons_of_mem v hy)
    refine ⟨hahead, hunsignaled, hfree, fun heq => ?_⟩
    exact hnodup.1 (Option.some.inj heq ▸ hy)
  · rcases Finset.mem_insert.mp hy with rfl | hy
    · exact (h.ahead y mem_cons_self).1
    · exact h.looked y hy
  · rcases h.covered y hy with hlooked | ⟨hl, hmem⟩
    · exact .inl (Finset.mem_insert_of_mem hlooked)
    · rcases mem_cons.mp hmem with rfl | hmem
      · exact .inl (Finset.mem_insert_self y _)
      · exact .inr ⟨hl, hmem⟩
  · cases h.alone hl y hy
  · cases h.quiet hl hf y hy

theorem Fit.visits (h : Fit a (.scanning ⟨localOnly, v :: rest, found⟩) r sw)
    (hstage : Stage (a.visits v) r sw q) : Fit (a.visits v) q r sw :=
  { h with stage := hstage }

theorem Scans.skips (h : Scans a r ⟨true, v :: rest, found⟩ none) :
    Scans (a.visits v) r ⟨true, rest, found⟩ none := by
  have hv := h.visits
  exact { hv with
    ahead := fun y hy => ⟨(hv.ahead y hy).1, (hv.ahead y hy).2.1, (hv.ahead y hy).2.2.1,
      fun heq => Option.some_ne_none y heq.symm⟩
    alone := fun hl y hy => h.alone hl y hy
    quiet := fun hl hf y hy => h.quiet hl hf y hy }

theorem Scans.remote (h : Scans a r c cur) (hremote : c.localOnly = false) : Scans a r c none :=
  { h with
    ahead := fun y hy => ⟨(h.ahead y hy).1, (h.ahead y hy).2.1, (h.ahead y hy).2.2.1,
      fun heq => Option.some_ne_none y heq.symm⟩
    alone := fun hl => Bool.noConfusion (hremote.symm.trans hl)
    quiet := fun hl => Bool.noConfusion (hremote.symm.trans hl) }

theorem Scans.occupied (h : Scans a r c (some v)) : Scans a (r.plus v u s) c (some v) := by
  refine { h with
    ahead := fun y hy => ⟨(h.ahead y hy).1, (h.ahead y hy).2.1, fun hw => ?_, (h.ahead y hy).2.2.2⟩
    alone := fun hl y hy => ?_ }
  · rcases Registry.waits_plus hw with hw | rfl
    · exact (h.ahead y hy).2.2.1 hw
    · exact (h.ahead y hy).2.2.2 rfl
  · rcases Registry.waits_plus hy with hy | rfl
    · exact h.alone hl y hy
    · rfl

theorem Fit.occupied (h : Fit a (.scanning ⟨localOnly, v :: rest, found⟩) r sw)
    (hstage : Stage (a.visits v) (r.plus v u s) sw q) : Fit (a.visits v) q (r.plus v u s) sw := by
  obtain ⟨hahead, hunsignaled, hfree, -⟩ := h.stage.ahead v mem_cons_self
  refine { h with
    slots := fun y hy => ?_
    unique := ?_
    stage := hstage }
  · rcases Registry.waits_plus hy with hy | rfl
    · exact h.slots y hy
    · exact ⟨mem_looks hahead, fun _ => hunsignaled⟩
  · rintro y u₁ s₁ u₂ s₂ (h₁ | ⟨rfl, rfl, rfl⟩) (h₂ | ⟨heq, rfl, rfl⟩)
    · exact h.unique y u₁ s₁ u₂ s₂ h₁ h₂
    · exact absurd ⟨u₁, s₁, h₁⟩ (heq ▸ hfree)
    · exact absurd ⟨u₂, s₂, h₂⟩ hfree
    · exact ⟨rfl, rfl⟩

end Visits

end Fitting

end MachUS.Ux
