import MachUS.Tm.Groups

namespace MachUS.Tm.Groups

open Function

variable {T : Type} {k i g n : ℕ} {p : Phase}

namespace Master

section Views

theorem task_amend (x : Master T) (k : ℕ) (f : TmTask T → TmTask T) :
    (x.amend k f).task k = f (x.task k) :=
  update_self _ _ _

theorem group_newGroup_of_ne {x : Master T} {t : T} (hne : g ≠ x.groups) :
    (x.newGroup t).group g = x.group g :=
  update_of_ne hne _ _

theorem group_newGroup_self {x : Master T} {t : T} : (x.newGroup t).group x.groups =
    ⟨fun _ => none, 2, [.thread t, .outside]⟩ :=
  update_self _ _ _

theorem task_report (x : Master T) (r : Report) : (x.report r).task = x.task := rfl

theorem task_goes [DecidableEq T] (x : Master T) (t : T) (p : Phase) :
    (x.goes t p).task = x.task := rfl

theorem owners_setEntry (x : Master T) (g n : ℕ) (e : Option Entry) (g' : ℕ) :
    (x.setEntry g n e).owners g' = x.owners g' := by
  change (update x.group g _ g').holding.owners = _
  rcases eq_or_ne g' g with rfl | hne
  · rw [update_self]
    rfl
  · rw [update_of_ne hne]
    rfl

theorem entry_setEntry (x : Master T) (g n : ℕ) (e : Option Entry) (g' n' : ℕ) :
    ((x.setEntry g n e).group g').entry n' =
      if g' = g ∧ n' = n then e else (x.group g').entry n' := by
  change (update x.group g _ g').entry n' = _
  rcases eq_or_ne g' g with rfl | hne
  · rw [update_self]
    rcases eq_or_ne n' n with rfl | hn
    · rw [if_pos ⟨rfl, rfl⟩]
      exact update_self _ _ _
    · rw [if_neg fun h => hn h.2]
      exact update_of_ne hn _ _
  · rw [update_of_ne hne, if_neg fun h => hne h.1]

theorem entry_held (x : Master T) (g : ℕ) (f : Holding (Owner T) → Holding (Owner T)) (g' : ℕ) :
    ((x.held g f).group g').entry = (x.group g').entry := by
  change (update x.group g _ g').entry = _
  rcases eq_or_ne g' g with rfl | hne
  · rw [update_self]
  · rw [update_of_ne hne]

theorem holding_held (x : Master T) (g : ℕ) (f : Holding (Owner T) → Holding (Owner T)) (g' : ℕ) :
    ((x.held g f).group g').holding =
      if g' = g then f (x.group g).holding else (x.group g').holding := by
  change (update x.group g _ g').holding = _
  rcases eq_or_ne g' g with rfl | hne
  · rw [update_self, if_pos rfl]
  · rw [update_of_ne hne, if_neg hne]

end Views

section Frames

variable {x y z : Master T} {t : T}

structure Beside [DecidableEq T] (t : T) (P : ℕ → Prop) (x y : Master T) : Prop where
  task : ∀ i, P i → (y.task i).tgrp = (x.task i).tgrp ∧ (y.task i).lock = (x.task i).lock ∧
    y.nameOf i = x.nameOf i
  entry : ∀ i, P i → ∀ g n b, (y.group g).entry n = some ⟨i, b⟩ ↔
    (x.group g).entry n = some ⟨i, b⟩
  owns : ∀ i, P i → ∀ g, (y.owners g).count (.task i) = (x.owners g).count (.task i)
  threads : ∀ u, u ≠ t → ∀ g, (y.owners g).count (.thread u) = (x.owners g).count (.thread u)
  tasks : x.tasks ≤ y.tasks
  unborn : ∀ i, y.tasks ≤ i → y.task i = x.task i

variable [DecidableEq T] {P : ℕ → Prop}

theorem Beside.trans (h : Beside t P x y) (h' : Beside t P y z) : Beside t P x z :=
  ⟨fun i hi => ⟨(h'.task i hi).1.trans (h.task i hi).1, (h'.task i hi).2.1.trans (h.task i hi).2.1,
      (h'.task i hi).2.2.trans (h.task i hi).2.2⟩,
    fun i hi g n b => (h'.entry i hi g n b).trans (h.entry i hi g n b),
    fun i hi g => (h'.owns i hi g).trans (h.owns i hi g),
    fun u hu g => (h'.threads u hu g).trans (h.threads u hu g), Nat.le_trans h.tasks h'.tasks,
    fun i hi => (h'.unborn i hi).trans (h.unborn i (Nat.le_trans h'.tasks hi))⟩

theorem Beside.of_group (hgroup : y.group = x.group) (htasks : x.tasks ≤ y.tasks)
    (htask : ∀ i, P i → (y.task i).tgrp = (x.task i).tgrp ∧ (y.task i).lock = (x.task i).lock ∧
      y.nameOf i = x.nameOf i)
    (hunborn : ∀ i, y.tasks ≤ i → y.task i = x.task i) : Beside t P x y := by
  have howners (g : ℕ) : y.owners g = x.owners g := by rw [owners, hgroup, owners]
  exact ⟨htask, fun i _ g n b => by rw [hgroup], fun i _ g => by rw [howners],
    fun u _ g => by rw [howners], htasks, hunborn⟩

theorem Beside.same (hgroup : y.group = x.group) (htask : y.task = x.task)
    (htasks : y.tasks = x.tasks) : Beside t P x y :=
  .of_group hgroup (Nat.le_of_eq htasks.symm) (fun i _ => by rw [nameOf, htask, nameOf]; exact ⟨rfl, rfl, rfl⟩)
    fun i _ => by rw [htask]

theorem Beside.goes (h : Beside t P x y) {u : T} {q : Phase} : Beside t P x (y.goes u q) :=
  h.trans (.same rfl rfl rfl)

theorem Beside.report (h : Beside t P x y) {r : Report} : Beside t P x (y.report r) :=
  h.trans (.same rfl rfl rfl)

theorem Beside.amend (hk : k < x.tasks) (f : TmTask T → TmTask T)
    (hf : P k → (f (x.task k)).tgrp = (x.task k).tgrp ∧ (f (x.task k)).lock = (x.task k).lock ∧
      (f (x.task k)).taskId = (x.task k).taskId) : Beside t P x (x.amend k f) := by
  refine .of_group rfl (Nat.le_refl _) (fun i hi => ?_) fun i hi => ?_
  · change (update x.task k _ i).tgrp = _ ∧ (update x.task k _ i).lock = _ ∧
      (update x.task k _ i).taskId = _
    rcases eq_or_ne i k with rfl | hne
    · rw [update_self]
      exact hf hi
    · rw [update_of_ne hne]
      exact ⟨rfl, rfl, rfl⟩
  · exact update_of_ne (Nat.ne_of_gt (Nat.lt_of_lt_of_le hk hi)) _ _

theorem count_held (x : Master T) (g : ℕ) (f : Holding (Owner T) → Holding (Owner T)) (g' : ℕ)
    (o : Owner T) : ((x.held g f).owners g').count o =
      if g' = g then (f (x.group g).holding).owners.count o else (x.owners g').count o := by
  rw [owners, holding_held]
  split
  · rfl
  · rfl

theorem Beside.setEntry (t : T) {e : Option Entry} (hP : ¬P k)
    (hold : ∀ v, (x.group g).entry n = some v → v.task = k) (hnew : ∀ v, e = some v → v.task = k) :
    Beside t P x (x.setEntry g n e) := by
  refine ⟨fun _ _ => ⟨rfl, rfl, rfl⟩, fun i hi g' n' b => ?_, fun i _ g' => by rw [owners_setEntry],
    fun u _ g' => by rw [owners_setEntry], Nat.le_refl _, fun _ _ => rfl⟩
  have hne (v : Entry) (hv : v.task = k) : v ≠ ⟨i, b⟩ := by
    rintro rfl
    exact hP (hv ▸ hi)
  rw [entry_setEntry]
  split
  · rename_i hat
    obtain ⟨rfl, rfl⟩ := hat
    exact ⟨fun h => absurd rfl (hne _ (hnew _ h)), fun h => absurd rfl (hne _ (hold _ h))⟩
  · rfl

theorem Beside.held {f : Holding (Owner T) → Holding (Owner T)} (hf : ∀ o, (∀ i, o = .task i → P i) →
    o ≠ .thread t → (f (x.group g).holding).owners.count o = (x.owners g).count o) :
    Beside t P x (x.held g f) := by
  have hcount (o : Owner T) (hP : ∀ i, o = .task i → P i) (ht : o ≠ .thread t) (g' : ℕ) :
      ((x.held g f).owners g').count o = (x.owners g').count o := by
    rw [count_held]
    split
    · rename_i hg
      subst hg
      exact hf o hP ht
    · rfl
  exact ⟨fun _ _ => ⟨rfl, rfl, rfl⟩, fun i _ g' n b => by rw [entry_held],
    fun i hi g' => hcount _ (fun j hj => Owner.task.inj hj ▸ hi) (fun h => by cases h) g',
    fun u hu g' => hcount _ (fun j hj => by cases hj) (fun h => hu (Owner.thread.inj h)) g',
    Nat.le_refl _, fun _ _ => rfl⟩

theorem Beside.newGroup (h : x.Kept) : Beside t (fun _ => True) x (x.newGroup t) := by
  have hold := h.unbuilt x.groups (Nat.le_refl _)
  have howners (g : ℕ) (o : Owner T) (ho : o ≠ .thread t) (ho' : o ≠ .outside) :
      ((x.newGroup t).owners g).count o = (x.owners g).count o := by
    rcases eq_or_ne g x.groups with rfl | hne
    · rw [owners, group_newGroup_self, hold.1, List.count_nil, List.count_eq_zero]
      simp [ho, ho']
    · rw [owners, group_newGroup_of_ne hne, owners]
  refine ⟨fun _ _ => ⟨rfl, rfl, rfl⟩, fun i _ g n b => ?_, fun i _ g => howners g _ (by simp)
    (by simp), fun u hu g => howners g _ (by simpa using hu) (by simp), Nat.le_refl _,
    fun _ _ => rfl⟩
  rcases eq_or_ne g x.groups with rfl | hne
  · rw [group_newGroup_self, hold.2]
  · rw [group_newGroup_of_ne hne]

theorem Beside.stands (h : Beside t P x y) (hi : P i) {q : Ptr} {l : Option (ℕ × Bool)}
    {o : Option ℕ} (hx : x.Stands i q l o) : y.Stands i q l o := by
  refine ⟨(h.task i hi).1.trans hx.tgrp, fun g n b => ?_, fun g => ?_⟩
  · rw [h.entry i hi, (h.task i hi).2.2]
    exact hx.sits g n b
  · rw [h.owns i hi]
    exact hx.owns g

theorem Beside.settled (h : Beside t P x y) (hi : P i) (hx : x.Settled i) : y.Settled i := by
  rw [Settled, (h.task i hi).1]
  exact ⟨hx.1, h.stands hi hx.2⟩

theorem Beside.fits (h : Beside t P x y) {q : Phase} (hq : ∀ i, q.locks = some i → P i) (hx : x.Fits q) :
    y.Fits q := by
  cases q with
  | leaving i _ _ => exact h.settled (hq i rfl) hx
  | dropping i _ _ _ => exact h.stands (hq i rfl) hx
  | clearing i _ _ =>
    obtain ⟨g, hg⟩ := hx
    exact ⟨g, h.stands (hq i rfl) hg⟩
  | joining i _ _ _ => exact h.stands (hq i rfl) hx
  | installing i _ _ => exact h.stands (hq i rfl) hx
  | assigning i _ _ => exact h.stands (hq i rfl) hx
  | asking _ _ => exact hx
  | _ => trivial

end Frames

section Keeping

variable {x y : Master T}

theorem Kept.same (h : x.Kept) (hgroup : y.group = x.group) (hgroups : y.groups = x.groups)
    (hreports : y.reports = x.reports) (hfaulted : y.faulted = x.faulted) : y.Kept := by
  refine ⟨fun g => hgroup ▸ h.balanced g, fun g hg => ?_, hreports ▸ h.reports,
    hfaulted.trans h.faulted⟩
  rw [owners, hgroup]
  exact h.unbuilt g (hgroups ▸ hg)

theorem Kept.report (h : x.Kept) {r : Report} (hr : r.success = false → r.touched = false) :
    (x.report r).Kept :=
  ⟨h.balanced, h.unbuilt, fun _ hq => (List.mem_cons.mp hq).elim (fun hq => hq ▸ hr)
    (h.reports _), h.faulted⟩

theorem Kept.built (h : x.Kept) {o : Owner T} (ho : o ∈ x.owners g) : g < x.groups := by
  by_contra hg
  rw [(h.unbuilt g (Nat.le_of_not_lt hg)).1] at ho
  cases ho

theorem Kept.setEntry (h : x.Kept) (hg : g < x.groups) {e : Option Entry} :
    (x.setEntry g n e).Kept := by
  refine ⟨fun g' => ?_, fun g' hg' => ?_, h.reports, h.faulted⟩
  · change (update x.group g _ g').holding.Balanced
    rcases eq_or_ne g' g with rfl | hne
    · rw [update_self]
      exact h.balanced g'
    · rw [update_of_ne hne]
      exact h.balanced g'
  · have hne : g' ≠ g := fun hg'' => absurd hg (Nat.not_lt.mpr (hg'' ▸ hg'))
    rw [owners_setEntry]
    refine ⟨(h.unbuilt g' hg').1, fun n' => ?_⟩
    rw [entry_setEntry, if_neg fun hat => hne hat.1]
    exact (h.unbuilt g' hg').2 n'

theorem Kept.held (h : x.Kept) (hg : g < x.groups) {f : Holding (Owner T) → Holding (Owner T)}
    (hf : (f (x.group g).holding).Balanced) : (x.held g f).Kept := by
  refine ⟨fun g' => ?_, fun g' hg' => ?_, h.reports, h.faulted⟩
  · rw [holding_held]
    split
    · exact hf
    · exact h.balanced g'
  · have hne : g' ≠ g := fun hg'' => absurd hg (Nat.not_lt.mpr (hg'' ▸ hg'))
    rw [owners, holding_held, if_neg hne, entry_held]
    exact h.unbuilt g' hg'

theorem Kept.newGroup {t : T} (h : x.Kept) : (x.newGroup t).Kept := by
  refine ⟨fun g => ?_, fun g hg => ?_, h.reports, h.faulted⟩
  · rcases eq_or_ne g x.groups with rfl | hne
    · rw [group_newGroup_self]
      rfl
    · rw [group_newGroup_of_ne hne]
      exact h.balanced g
  · have hne : g ≠ x.groups := Nat.ne_of_gt hg
    rw [owners, group_newGroup_of_ne hne]
    exact h.unbuilt g (Nat.le_of_lt hg)

theorem Kept.not_freed (h : x.Kept) {o : Owner T} (ho : o ∈ x.owners g) : ¬x.Freed g :=
  (h.balanced g).refs_ne_zero ho

end Keeping

variable {x y : Master T} {t : T} [DecidableEq T]

theorem Inv.step {P : ℕ → Prop} (h : x.Inv) (hphase : y.phase = update x.phase t p)
    (hbeside : Beside t P x y) (hkept : y.Kept)
    (hothers : ∀ u, u ≠ t → ∀ i, (x.phase u).locks = some i → P i)
    (hlocks : ∀ u i, ¬P i ∨ u = t → ((y.task i).lock = some u ↔ (y.phase u).locks = some i))
    (hfits : y.Fits p) (hsettled : ∀ i, ¬P i → (y.task i).lock = none → y.Settled i)
    (howed : ∀ g, p.owes.count g ≤ (y.owners g).count (.thread t))
    (hborn : ∀ i, p.task = some i → i < y.tasks) : y.Inv := by
  have hself : y.phase t = p := by rw [hphase, update_self]
  have hother (u : T) (hu : u ≠ t) : y.phase u = x.phase u := by
    rw [hphase, update_of_ne hu]
  refine ⟨fun u i => ?_, fun u => ?_, fun i hi => ?_, fun u g => ?_, fun u i hi => ?_,
    fun i hi => ?_, hkept⟩
  · by_cases hi : ¬P i ∨ u = t
    · exact hlocks u i hi
    · rw [not_or, not_not] at hi
      rw [(hbeside.task i hi.1).2.1, hother u hi.2]
      exact h.locks u i
  · rcases eq_or_ne u t with rfl | hu
    · rw [hself]
      exact hfits
    · rw [hother u hu]
      exact hbeside.fits (hothers u hu) (h.fits u)
  · by_cases hP : P i
    · rw [(hbeside.task i hP).2.1] at hi
      exact hbeside.settled hP (h.settled i hi)
    · exact hsettled i hP hi
  · rcases eq_or_ne u t with rfl | hu
    · rw [hself]
      exact howed g
    · rw [hother u hu, hbeside.threads u hu]
      exact h.owed u g
  · rcases eq_or_ne u t with rfl | hu
    · rw [hself] at hi
      exact hborn i hi
    · rw [hother u hu] at hi
      exact Nat.lt_of_lt_of_le (h.born u i hi) hbeside.tasks
  · rw [hbeside.unborn i hi]
    exact h.unborn i (Nat.le_trans hbeside.tasks hi)

theorem Inv.move (h : x.Inv) (hphase : y.phase = update x.phase t p)
    (hbeside : Beside t (· ≠ k) x y) (hkept : y.Kept)
    (hhad : ∀ i, (x.phase t).locks = some i → i = k)
    (hhas : ∀ i, p.locks = some i → i = k)
    (hfree : (x.task k).lock = none ∨ (x.phase t).locks = some k)
    (hlock : (y.task k).lock = if p.locks = some k then some t else none)
    (hfits : y.Fits p) (hsettled : p.locks ≠ some k → y.Settled k)
    (howed : ∀ g, p.owes.count g ≤ (y.owners g).count (.thread t))
    (hborn : ∀ i, p.task = some i → i < y.tasks) : y.Inv := by
  have hself : y.phase t = p := by rw [hphase, update_self]
  have hothers (u : T) (hu : u ≠ t) (i : ℕ) (hi : (x.phase u).locks = some i) : i ≠ k := by
    rintro rfl
    have hlocked := (h.locks u i).mpr hi
    rcases hfree with hfree | hfree
    · cases hfree.symm.trans hlocked
    · exact hu (Option.some.inj (hlocked.symm.trans ((h.locks t i).mpr hfree)))
  refine h.step hphase hbeside hkept hothers (fun u i hi => ?_) hfits (fun i hi hnone => ?_) howed
    hborn
  · rcases eq_or_ne i k with rfl | hne
    · rw [hlock]
      rcases eq_or_ne u t with rfl | hu
      · rw [hself]
        split
        · simp only [*]
        · simp only [*, reduceCtorEq]
      · rw [hphase, update_of_ne hu]
        refine ⟨fun hl => ?_, fun hl => absurd rfl (hothers u hu i hl)⟩
        split at hl
        · exact absurd (Option.some.inj hl).symm hu
        · cases hl
    · obtain rfl := hi.resolve_left (not_not.mpr hne)
      rw [hself, (hbeside.task i hne).2.1, h.locks u i]
      exact ⟨fun hl => absurd (hhad i hl) hne, fun hl => absurd (hhas i hl) hne⟩
  · obtain rfl := not_not.mp hi
    refine hsettled fun hl => ?_
    rw [hlock, if_pos hl] at hnone
    cases hnone

theorem Inv.aside (h : x.Inv) (hphase : y.phase = update x.phase t p)
    (hbeside : Beside t (fun _ => True) x y) (hkept : y.Kept) (hhad : (x.phase t).locks = none)
    (hhas : p.locks = none) (hfits : y.Fits p)
    (howed : ∀ g, p.owes.count g ≤ (y.owners g).count (.thread t))
    (hborn : ∀ i, p.task = some i → i < y.tasks) : y.Inv := by
  refine h.step hphase hbeside hkept (fun _ _ _ _ => trivial) (fun u i hi => ?_) hfits
    (fun i hi => absurd trivial hi) howed hborn
  obtain rfl := hi.resolve_left (not_not.mpr trivial)
  rw [(hbeside.task i trivial).2.1, h.locks u i, hphase, update_self, hhad, hhas]

end Master

end MachUS.Tm.Groups
