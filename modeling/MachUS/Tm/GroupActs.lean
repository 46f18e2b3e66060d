import MachUS.Tm.GroupSteps

namespace MachUS.Tm.Groups

open Option Holding

variable {T : Type} {k g : ℕ} {p q : Phase} {next : Option ℕ} {c : Caller}

theorem Caller.goesOn_locks : (c.goesOn k).locks = none := by cases c <;> rfl

theorem Caller.goesOn_owes : (c.goesOn k).owes = c.own := by cases c <;> rfl

theorem Caller.goesOn_task {i : ℕ} (h : (c.goesOn k).task = some i) : i = k := by
  cases c with
  | client => cases h
  | constructor _ => exact (some.inj h).symm
  | death => exact (some.inj h).symm

namespace Master

section Standing

variable [DecidableEq T] {x y : Master T} {s : Ptr} {l : Option (ℕ × Bool)} {o : Option ℕ}

theorem Caller.goesOn_fits : x.Fits (c.goesOn k) := by cases c <;> trivial

theorem Stands.congr (h : x.Stands k s l o) {s' : Ptr} (htgrp : (y.task k).tgrp = s')
    (hname : y.nameOf k = x.nameOf k) (hgroup : y.group = x.group) : y.Stands k s' l o := by
  refine ⟨htgrp, fun g n b => ?_, fun g => ?_⟩
  · rw [hgroup, hname]
    exact h.sits g n b
  · rw [owners, hgroup]
    exact h.owns g

theorem Stands.renew (h : x.Stands k s none o) {s' : Ptr} (htgrp : (y.task k).tgrp = s')
    (hgroup : y.group = x.group) : y.Stands k s' none o := by
  refine ⟨htgrp, fun g n b => ?_, fun g => ?_⟩
  · rw [hgroup, h.sits]
    constructor <;> rintro ⟨hl, -⟩ <;> cases hl
  · rw [owners, hgroup]
    exact h.owns g

theorem Settled.congr (h : x.Settled k) (htgrp : (y.task k).tgrp = (x.task k).tgrp)
    (hname : y.nameOf k = x.nameOf k) (hgroup : y.group = x.group) : y.Settled k := by
  rw [Settled, htgrp]
  exact ⟨h.1, h.2.congr htgrp hname hgroup⟩

theorem Stands.settled_null (h : x.Stands k .null none none) : x.Settled k := by
  rw [Settled, h.tgrp]
  exact ⟨by simp, h⟩

theorem Stands.settled_group (h : x.Stands k (.group g) (some (g, true)) (some g)) :
    x.Settled k := by
  rw [Settled, h.tgrp]
  exact ⟨by simp, h⟩

theorem Settled.stands_null (h : x.Settled k) (hs : (x.task k).tgrp = .null) :
    x.Stands k .null none none := by
  have := h.2
  rw [hs] at this
  exact this

theorem Settled.stands_group (h : x.Settled k) (hs : (x.task k).tgrp = .group g) :
    x.Stands k (.group g) (some (g, true)) (some g) := by
  have := h.2
  rw [hs] at this
  exact this

theorem Stands.entry {b : Bool} (h : x.Stands k s (some (g, b)) o) :
    (x.group g).entry (x.nameOf k) = some ⟨k, b⟩ :=
  (h.sits g _ b).mpr ⟨rfl, rfl⟩

theorem Stands.mem (h : x.Stands k s l (some g)) : Owner.task k ∈ x.owners g := by
  have := h.owns g
  rw [if_pos rfl] at this
  exact List.count_pos_iff.mp (by omega)

theorem Stands.setEntry (h : x.Stands k s l o) (hl : ∀ g' b, l = some (g', b) → g' = g)
    (e : Option Bool) : (x.setEntry g (x.nameOf k) (e.map fun b => ⟨k, b⟩)).Stands k s
      (e.map fun b => (g, b)) o := by
  refine ⟨h.tgrp, fun g' n b => ?_, fun g' => ?_⟩
  · rw [entry_setEntry]
    split
    · rename_i hat
      obtain ⟨rfl, rfl⟩ := hat
      cases e with
      | none => simp
      | some b' =>
        constructor
        · intro hb
          cases hb
          exact ⟨rfl, rfl⟩
        · rintro ⟨hb, -⟩
          cases hb
          rfl
    · rename_i hat
      rw [h.sits]
      constructor
      · rintro ⟨hat', rfl⟩
        exact absurd ⟨hl g' b hat', rfl⟩ hat
      · rintro ⟨hat', rfl⟩
        refine absurd ⟨?_, rfl⟩ hat
        cases e with
        | none => cases hat'
        | some b' => exact ((Prod.mk.inj (some.inj hat')).1).symm
  · rw [owners_setEntry]
    exact h.owns g'

theorem Stands.held (h : x.Stands k s l o) {f : Holding (Owner T) → Holding (Owner T)}
    {o' : Option ℕ} (hsame : ∀ g', g' ≠ g → (o = some g' ↔ o' = some g'))
    (hf : (f (x.group g).holding).owners.count (.task k) = if o' = some g then 1 else 0) :
    (x.held g f).Stands k s l o' := by
  refine ⟨h.tgrp, fun g' n b => ?_, fun g' => ?_⟩
  · rw [entry_held]
    exact h.sits g' n b
  · rw [count_held]
    split
    · rename_i hg
      subst hg
      exact hf
    · rename_i hg
      rw [h.owns g']
      simp only [hsame g' hg]

end Standing

variable [DecidableEq T] {x y : Master T} {t : T}

section

variable (h : x.Inv)

include h

theorem Inv.owes (hold : x.phase t = q) (g : ℕ) : q.owes.count g ≤ (x.owners g).count (.thread t) :=
  hold ▸ h.owed t g

theorem Inv.owes_same (hold : x.phase t = q) (hpq : p.owes = q.owes) (g : ℕ) :
    p.owes.count g ≤ (x.owners g).count (.thread t) :=
  hpq ▸ h.owes hold g

theorem Inv.stands (hold : x.phase t = q) : x.Fits q := hold ▸ h.fits t

theorem Inv.thread_mem (hold : x.phase t = q) (hg : g ∈ q.owes) : Owner.thread t ∈ x.owners g := by
  have hpos := List.count_pos_iff.mpr hg
  exact List.count_pos_iff.mp (Nat.lt_of_lt_of_le hpos (h.owes hold g))

theorem Inv.locked (hphase : y.phase = Function.update x.phase t p)
    (hold : x.phase t = q) (hq : q.locks = some k) (hp : p.locks = some k)
    (hbeside : Beside t (· ≠ k) x y) (hkept : y.Kept)
    (hlock : (y.task k).lock = (x.task k).lock) (hfits : y.Fits p)
    (howed : ∀ g, p.owes.count g ≤ (y.owners g).count (.thread t)) : y.Inv := by
  have hhad : (x.phase t).locks = some k := hold ▸ hq
  refine h.move hphase hbeside hkept (fun i hi => some.inj (hi.symm.trans hhad))
    (fun i hi => some.inj (hi.symm.trans hp)) (.inr hhad) ?_ hfits
    (fun hn => absurd hp hn) howed fun i hi => ?_
  · rw [hlock, if_pos hp, (h.locks t k).mpr hhad]
  · cases (Phase.task_of_locks hp).symm.trans hi
    exact Nat.lt_of_lt_of_le (h.born t k (Phase.task_of_locks hhad)) hbeside.tasks

theorem Inv.unlocked (hphase : y.phase = Function.update x.phase t p)
    (hold : x.phase t = q) (hq : q.locks = some k) (hp : p.locks = none)
    (htask : ∀ i, p.task = some i → i = k)
    (hbeside : Beside t (· ≠ k) x y) (hkept : y.Kept) (hlock : (y.task k).lock = none)
    (hfits : y.Fits p) (hsettled : y.Settled k)
    (howed : ∀ g, p.owes.count g ≤ (y.owners g).count (.thread t)) : y.Inv := by
  have hhad : (x.phase t).locks = some k := hold ▸ hq
  have hnot : p.locks ≠ some k := by rw [hp]; simp
  refine h.move hphase hbeside hkept (fun i hi => some.inj (hi.symm.trans hhad))
    (fun i hi => by rw [hp] at hi; cases hi) (.inr hhad) ?_ hfits (fun _ => hsettled) howed
    fun i hi => ?_
  · rw [hlock, if_neg hnot]
  · obtain rfl := htask i hi
    exact Nat.lt_of_lt_of_le (h.born t i (Phase.task_of_locks hhad)) hbeside.tasks

theorem Inv.enter (hold : x.phase t = .entering k next c) (hnone : (x.task k).lock = none) :
    ((x.amend k fun o => { o with lock := some t }).goes t (.leaving k next c)).Inv := by
  have hk : k < x.tasks := h.born t k (by rw [hold]; rfl)
  refine h.move (k := k) rfl (.goes (.amend hk _ fun hn => absurd rfl hn))
    (h.kept.same rfl rfl rfl rfl) (fun i hi => ?_) (fun i hi => (some.inj hi).symm)
    (.inl hnone) ?_ ?_ (fun hn => absurd rfl hn) (h.owes_same hold rfl) fun i hi => ?_
  · rw [hold] at hi
    cases hi
  · rw [task_goes, task_amend]
    exact (if_pos rfl).symm
  · refine (h.settled k hnone).congr ?_ ?_ rfl
    · rw [task_goes, task_amend]
    · rw [nameOf, task_goes, task_amend, nameOf]
  · cases hi
    exact hk

theorem Inv.leave_null (hold : x.phase t = .leaving k next c)
    (hs : (x.task k).tgrp = .null) : (x.goes t (.joining k next false c)).Inv :=
  h.locked rfl hold rfl rfl (.same rfl rfl rfl) (h.kept.same rfl rfl rfl rfl) rfl
    ((Settled.stands_null (h.stands hold) hs).congr hs rfl rfl) (h.owes_same hold rfl)

theorem Inv.leave_group (hold : x.phase t = .leaving k next c) (hs : (x.task k).tgrp = .group g) :
    ((x.setEntry g (x.nameOf k) none).goes t (.dropping k g next c)).Inv := by
  have hx := Settled.stands_group (h.stands hold) hs
  refine h.locked rfl hold rfl rfl (.goes (.setEntry t (fun hn => hn rfl) (fun v hv => ?_)
    fun v hv => by cases hv)) ((h.kept.setEntry (h.kept.built hx.mem)).same rfl
      rfl rfl rfl) rfl ?_ fun g' => ?_
  · exact some.inj (hv.symm.trans hx.entry) ▸ rfl
  · exact (hx.setEntry (fun g' b hb => (Prod.mk.inj (some.inj hb)).1.symm) none).congr hs rfl rfl
  · exact (owners_setEntry x g _ none g').symm ▸ h.owes hold g'

theorem Inv.drop_group (hold : x.phase t = .dropping k g next c) :
    ((x.held g (·.dereference (.task k))).goes t (.clearing k next c)).Inv := by
  have hx : x.Stands k (.group g) none (some g) := h.stands hold
  refine h.locked rfl hold rfl rfl (.goes (.held fun o ho ht => ?_))
    ((h.kept.held (h.kept.built hx.mem) ((h.kept.balanced g).dereference hx.mem)).same (x := x.held g
      (·.dereference (.task k))) rfl rfl rfl rfl) rfl ⟨g, Stands.congr (x := x.held g (·.dereference (.task k)))
      (hx.held (fun g' hne => ?_) ?_) hx.tgrp rfl rfl⟩ fun g' => ?_
  · rw [count_dereference, if_neg fun he => ho k he.symm rfl]
    rfl
  · simp [hne.symm]
  · rw [count_dereference, if_pos rfl, if_neg (by simp)]
    have := hx.owns g
    rw [if_pos rfl] at this
    exact congrArg (· - 1) this
  · change _ ≤ ((x.held g (·.dereference (.task k))).owners g').count _
    rw [count_held]
    split
    · rename_i hg
      subst hg
      rw [count_dereference, if_neg (by simp)]
      exact h.owes hold g'
    · exact h.owes hold g'

theorem Inv.clear (hold : x.phase t = .clearing k next c) : (x.clear t k next c).Inv := by
  obtain ⟨g, hx⟩ := h.stands hold
  have hk : k < x.tasks := h.born t k (by rw [hold]; rfl)
  refine h.locked rfl hold rfl rfl (.goes (.amend hk _ fun hn => absurd rfl hn))
    (h.kept.same rfl rfl rfl rfl) ?_ (hx.congr ?_ ?_ rfl) (h.owes_same hold rfl)
  · rw [Master.clear, task_goes, task_amend]
  · rw [Master.clear, task_goes, task_amend]
  · rw [Master.clear, nameOf, task_goes, task_amend, nameOf]

theorem Inv.unlock (hold : x.phase t = q) (hq : q.locks = some k)
    (hsettled : x.Settled k) {r : Report} (hr : r.success = false → r.touched = false)
    (hp : p.locks = none) (htask : ∀ i, p.task = some i → i = k)
    (hfits : ∀ z : Master T, z.Fits p) (howes : p.owes = q.owes) :
    (((x.unlock k).report r).goes t p).Inv := by
  have hk : k < x.tasks := h.born t k (Phase.task_of_locks (hold ▸ hq))
  refine h.unlocked rfl hold hq hp htask (.goes (.report (.amend hk _ fun hn => absurd rfl hn)))
    ((h.kept.report hr).same rfl rfl rfl rfl) ?_ (hfits _)
    (hsettled.congr ?_ ?_ rfl) fun g => howes ▸ h.owes hold g
  · rw [task_goes, task_report, Master.unlock, task_amend]
  · rw [task_goes, task_report, Master.unlock, task_amend]
  · rw [nameOf, task_goes, task_report, Master.unlock, task_amend, nameOf]

theorem Inv.join {left : Bool} (hold : x.phase t = .joining k next left c)
    (hclear : ∀ g, next = some g → left = true → (x.group g).entry (x.nameOf k) = none) :
    (x.join t k left c next).Inv := by
  have hx : x.Stands k .null none none := h.stands hold
  cases next with
  | none =>
    exact h.unlock hold rfl hx.settled_null (fun hr => by cases hr) Caller.goesOn_locks
      (fun i => Caller.goesOn_task) (fun _ => Caller.goesOn_fits) Caller.goesOn_owes
  | some g =>
    have hmem : Owner.thread t ∈ x.owners g := h.thread_mem hold (List.mem_cons_self ..)
    rw [Master.join, if_neg (h.kept.not_freed hmem)]
    split
    · rename_i hentry
      refine h.unlock hold rfl hx.settled_null (fun _ => ?_) rfl (fun i hi => (some.inj hi).symm)
        (fun _ => trivial) rfl
      cases left with
      | false => rfl
      | true => cases (hclear g rfl rfl).symm.trans hentry
    · rename_i hentry
      refine h.locked rfl hold rfl rfl (.goes (.setEntry t (fun hn => hn rfl) (fun v hv => ?_)
        fun v hv => ?_)) ((h.kept.setEntry (h.kept.built hmem)).same rfl rfl rfl
          rfl) rfl ?_ fun g' => ?_
      · cases hv.symm.trans hentry
      · exact some.inj hv ▸ rfl
      · exact (hx.setEntry (fun g' b hb => by cases hb) (some false)).congr hx.tgrp rfl rfl
      · exact (owners_setEntry x g _ _ g').symm ▸ h.owes hold g'

theorem Inv.install (hold : x.phase t = .installing k g c) : (x.install t k g c).Inv := by
  have hx : x.Stands k .null (some (g, false)) none := h.stands hold
  have hk : k < x.tasks := h.born t k (by rw [hold]; rfl)
  have hmem : Owner.thread t ∈ x.owners g := h.thread_mem hold (List.mem_cons_self ..)
  have hbeside : Beside t (· ≠ k) x (x.setEntry g (x.nameOf k) (some ⟨k, true⟩)) := by
    refine .setEntry t (fun hn => hn rfl) (fun v hv => ?_) fun v hv => ?_
    · exact some.inj (hv.symm.trans hx.entry) ▸ rfl
    · exact some.inj hv ▸ rfl
  have hkept : (x.setEntry g (x.nameOf k) (some ⟨k, true⟩)).Kept := h.kept.setEntry (h.kept.built hmem)
  refine h.locked rfl hold rfl rfl (.goes (hbeside.trans (.amend (by exact hk) _ fun hn => absurd rfl hn)))
    (hkept.same rfl rfl rfl rfl) ?_ ?_ fun g' => ?_
  · rw [Master.install, task_goes, task_amend]
    rfl
  · refine (hx.setEntry (fun g' b hb => (Prod.mk.inj (some.inj hb)).1.symm) (some true)).congr
      ?_ ?_ rfl
    · rw [Master.install, task_goes, task_amend]
      exact hx.tgrp
    · rw [Master.install, nameOf, task_goes, task_amend]
      rfl
  · exact (owners_setEntry x g _ _ g').symm ▸ h.owes hold g'

theorem Inv.assign (hold : x.phase t = .assigning k g c) : (x.assign t k g c).Inv := by
  have hx : x.Stands k .null (some (g, true)) none := h.stands hold
  have hk : k < x.tasks := h.born t k (by rw [hold]; rfl)
  have hmem : Owner.thread t ∈ x.owners g := h.thread_mem hold (List.mem_cons_self ..)
  have hkept : (x.held g (·.handOver (.thread t) (.task k))).Kept :=
    h.kept.held (h.kept.built hmem) ((h.kept.balanced g).handOver hmem)
  have hreport : ((x.held g (·.handOver (.thread t) (.task k))).report ⟨k, true, true⟩).Kept :=
    hkept.report fun hr => by cases hr
  have hbeside : Beside t (· ≠ k) x (x.held g (·.handOver (.thread t) (.task k))) := by
    refine .held fun o ho ht => ?_
    rw [count_handOver, if_neg fun he => ht he.symm, if_neg fun he => ho k he.symm rfl]
    rfl
  refine h.unlocked rfl hold rfl Caller.goesOn_locks (fun i => Caller.goesOn_task)
    (.goes (.report (hbeside.trans (.amend (by exact hk) _ fun hn => absurd rfl hn))))
    (hreport.same rfl rfl rfl rfl) ?_ Caller.goesOn_fits (Stands.settled_group (g := g) ?_)
    fun g' => ?_
  · rw [Master.assign, returns, task_goes, task_report, task_amend]
  · refine Stands.congr (hx.held (g := g) (f := (·.handOver (.thread t) (.task k)))
      (fun g' hne => ?_) ?_) ?_ ?_ rfl
    · simp [hne.symm]
    · rw [count_handOver, if_neg (by simp), if_pos rfl, if_pos rfl]
      exact congrArg (· + 1) (hx.owns g)
    · rw [Master.assign, returns, task_goes, task_report, task_amend]
    · rw [Master.assign, returns, nameOf, task_goes, task_report, task_amend]
      rfl
  · have howes := h.owes hold g'
    change ((c.goesOn k).owes).count g' ≤
      ((x.held g (·.handOver (.thread t) (.task k))).owners g').count _
    rw [Caller.goesOn_owes, count_held]
    rw [Phase.owes, List.count_cons] at howes
    split
    · rename_i hg
      subst hg
      rw [count_handOver, if_pos rfl, if_neg (by simp)]
      rw [if_pos (by simp)] at howes
      change _ ≤ (x.owners g').count _ - 1
      omega
    · exact Nat.le_trans (Nat.le_add_right _ _) howes

end

end Master

end MachUS.Tm.Groups
