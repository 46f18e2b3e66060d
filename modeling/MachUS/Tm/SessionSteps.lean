import MachUS.Tm.Sessions

namespace MachUS.Tm.Sessions

open Function

variable {T : Type} {maxuprc : ℕ} {o : TmTask} {p : Phase} {k i : ℕ}

theorem TmTask.Rests.congr {d d' : Prop} (h : o.Rests d) (hd : d' ↔ d) : o.Rests d' := by
  rwa [propext hd]

theorem TmTask.Rests.life {d : Prop} (h : o.Rests d) : o.life ≠ .made ∧ o.life ≠ .listed := by
  rw [TmTask.Rests] at h
  constructor <;> intro hl <;> rw [hl] at h <;> exact h

namespace Phase

theorem Fits.made (h : p.Fits o) (hp : p.moves = some k) :
    o.life = .made ∨ (o.life = .live ∨ o.life = .dead) ∧ p.Between k := by
  cases p <;> cases hp
  case inheriting | referencing | authenticating | joining | introducing => exact .inl h.1
  case dropping | rejoining => exact .inr ⟨h.1.1, rfl⟩
  case translating | renewing => exact .inr ⟨h.1, rfl⟩

theorem Fits.dead (h : p.Fits o) (hp : p.buries = some k) : o.life = .dead := by
  cases p <;> cases hp
  case dying => exact h
  case releasing => exact h.1

theorem Fits.buried (h : p.Fits o) (hp : p.moves = some k) (ho : o.life = .live) :
    p.Fits { o with life := .dead } := by
  cases p <;> cases hp
  case inheriting | referencing | authenticating | joining | introducing =>
    cases h.1.symm.trans ho
  case dropping => exact ⟨⟨.inr rfl, h.1.2⟩, h.2⟩
  case rejoining => exact ⟨⟨.inr rfl, h.1.2⟩, h.2.1, h.2.2⟩
  case translating | renewing => exact ⟨.inr rfl, h.2⟩

theorem Fits.introduces (h : p.Fits o) (hp : p.moves = some k) (ho : o.seated = true) :
    p = .introducing k := by
  cases p <;> cases hp
  case introducing => rfl
  case inheriting | referencing => exact absurd (ho.symm.trans h.2.1.1) (by simp)
  case authenticating | joining => exact absurd (ho.symm.trans h.2.1) (by simp)
  case dropping | rejoining => exact absurd (ho.symm.trans h.1.2) (by simp)
  case translating | renewing => exact absurd (ho.symm.trans h.2) (by simp)

theorem Between.moves (h : p.Between k) : p.moves = some k := by
  cases p <;> first | exact h.elim | exact congrArg some h

theorem buries_of_moves (h : p.moves = some k) : p.buries = none := by
  cases p <;> first | rfl | cases h

theorem moves_of_buries (h : p.buries = some k) : p.moves = none := by
  cases p <;> first | rfl | cases h

end Phase

namespace Master

variable {x y : Master T} {t : T} {o' : TmTask}

section Fields

variable (x : Master T) (k : ℕ)

theorem tasksIncrement_task :
    (x.tasksIncrement k).task = update x.task k { x.task k with seated := true } := rfl

theorem tasksDecrement_task :
    (x.tasksDecrement k).task = update x.task k { x.task k with seated := false } := rfl

theorem reference_task : (x.reference k).task =
    update x.task k { x.task k with held := (x.task k).held + 1 } := rfl

theorem dereference_task : (x.dereference k).task =
    update x.task k { x.task k with held := (x.task k).held - 1 } := rfl

@[simp] theorem goes_task [DecidableEq T] (t : T) (p : Phase) : (x.goes t p).task = x.task := rfl

end Fields

theorem Staged.unlisted (h : x.Staged) (k : ℕ) : (x.task k).life ≠ .listed := by
  rcases h.rests k with ⟨t, ht⟩ | ⟨t, ht⟩ | hr
  · rcases (h.fits t k (.inl ht)).made ht with hl | ⟨hl | hl, -⟩ <;> simp [hl]
  · have := h.fits t k (.inr (by rw [ht]; rfl))
    rw [ht] at this
    simp [this.1]
  · exact hr.life.2

theorem Staged.free (h : x.Staged) (hk : (x.task k).life = .live ∨ (x.task k).life = .dead)
    (hfree : x.Free k) (t : T) : (x.phase t).moves ≠ some k := by
  intro ht
  rcases (h.fits t k (.inl ht)).made ht with hl | ⟨-, hb⟩
  · rcases hk with hk | hk <;> exact absurd (hl.symm.trans hk) (by simp)
  · exact hfree t hb

theorem Staged.unburied (h : x.Staged) (hk : (x.task k).life ≠ .dead) (t : T) :
    (x.phase t).buries ≠ some k :=
  fun ht => hk ((h.fits t k (.inr ht)).dead ht)

variable [DecidableEq T]

section

variable (h : x.Staged) (hphase : y.phase = update x.phase t p)
  (htask : y.task = update x.task k o')

include h hphase htask

theorem Staged.move (hold : ∀ i, (x.phase t).moves = some i ∨ (x.phase t).buries = some i → i = k)
    (hnew : ∀ i, p.moves = some i ∨ p.buries = some i → i = k)
    (hothers : ∀ u, u ≠ t → (x.phase u).moves = some k ∨ (x.phase u).buries = some k →
      (x.phase u).Fits o')
    (hfits : p.moves = some k ∨ p.buries = some k → p.Fits o')
    (hmover : p.moves = some k → ∀ u, u ≠ t → (x.phase u).moves ≠ some k)
    (hburier : p.buries = some k → ∀ u, u ≠ t → (x.phase u).buries ≠ some k)
    (hmourned : o'.life = .dead → ∀ u, (y.phase u).moves = some k → y.Dying k)
    (hreleases : p = .releasing k → ∀ u, u ≠ t → (x.phase u).moves ≠ some k)
    (hreleased : p.moves = some k → ∀ u, u ≠ t → x.phase u ≠ .releasing k)
    (hrests : (∃ u, (y.phase u).moves = some k) ∨ (∃ u, y.phase u = .releasing k) ∨ y.Rests k) :
    y.Staged := by
  have hself : y.phase t = p := by rw [hphase, update_self]
  have hother (u : T) (hu : u ≠ t) : y.phase u = x.phase u := by
    rw [hphase, update_of_ne hu]
  have htask' (i : ℕ) (hi : i ≠ k) : y.task i = x.task i := by rw [htask, update_of_ne hi]
  have hkeep (i : ℕ) (hi : i ≠ k) (u : T) (q : Phase) (hq : q.moves = some i ∨ q.buries = some i)
      (hu : x.phase u = q) : y.phase u = q := by
    have hut : u ≠ t := by
      rintro rfl
      exact hi (hold i (hu ▸ hq))
    rw [hother u hut, hu]
  have hback (i : ℕ) (hi : i ≠ k) (u : T) (q : Phase) (hq : q.moves = some i ∨ q.buries = some i)
      (hu : y.phase u = q) : x.phase u = q := by
    have hut : u ≠ t := by
      rintro rfl
      exact hi (hnew i ((hself.symm.trans hu) ▸ hq))
    rw [← hother u hut, hu]
  constructor
  case fits =>
    intro u i hu
    rcases eq_or_ne u t with rfl | hut
    · rw [hself] at hu ⊢
      obtain rfl := hnew i hu
      rw [htask, update_self]
      exact hfits hu
    · rw [hother u hut] at hu ⊢
      rcases eq_or_ne i k with rfl | hi
      · rw [htask, update_self]
        exact hothers u hut hu
      · rw [htask' i hi]
        exact h.fits u i hu
  case mover =>
    intro u v i hu hv
    rcases eq_or_ne u t with rfl | hut <;> rcases eq_or_ne v u with rfl | hvu
    · rfl
    · rw [hself] at hu
      rw [hother v hvu] at hv
      obtain rfl := hnew i (.inl hu)
      exact absurd hv (hmover hu v hvu)
    · rfl
    · rw [hother u hut] at hu
      rcases eq_or_ne v t with rfl | hvt
      · rw [hself] at hv
        obtain rfl := hnew i (.inl hv)
        exact absurd hu (hmover hv u hut)
      · rw [hother v hvt] at hv
        exact h.mover u v i hu hv
  case burier =>
    intro u v i hu hv
    rcases eq_or_ne u t with rfl | hut <;> rcases eq_or_ne v u with rfl | hvu
    · rfl
    · rw [hself] at hu
      rw [hother v hvu] at hv
      obtain rfl := hnew i (.inr hu)
      exact absurd hv (hburier hu v hvu)
    · rfl
    · rw [hother u hut] at hu
      rcases eq_or_ne v t with rfl | hvt
      · rw [hself] at hv
        obtain rfl := hnew i (.inr hv)
        exact absurd hu (hburier hv u hut)
      · rw [hother v hvt] at hv
        exact h.burier u v i hu hv
  case mourned =>
    intro u i hu hdead
    rcases eq_or_ne i k with rfl | hi
    · rw [htask, update_self] at hdead
      exact hmourned hdead u hu
    · rw [htask' i hi] at hdead
      obtain ⟨v, hv⟩ := h.mourned u i (by rw [hback i hi u _ (.inl hu) rfl]; exact hu) hdead
      exact ⟨v, hkeep i hi v _ (.inr rfl) hv⟩
  case apart =>
    intro u v i hu hv
    rcases eq_or_ne u t with rfl | hut
    · rw [hself] at hu
      subst hu
      rcases eq_or_ne v u with rfl | hvu
      · rw [hself] at hv
        cases hv
      · rw [hother v hvu] at hv
        obtain rfl := hnew i (.inr rfl)
        exact hreleases rfl v hvu hv
    · rw [hother u hut] at hu
      rcases eq_or_ne v t with rfl | hvt
      · rw [hself] at hv
        obtain rfl := hnew i (.inl hv)
        exact hreleased hv u hut hu
      · rw [hother v hvt] at hv
        exact h.apart u v i hu hv
  case rests =>
    intro i
    rcases eq_or_ne i k with rfl | hi
    · exact hrests
    · rcases h.rests i with ⟨u, hu⟩ | ⟨u, hu⟩ | hr
      · exact .inl ⟨u, by rw [hkeep i hi u _ (.inl hu) rfl]; exact hu⟩
      · exact .inr (.inl ⟨u, hkeep i hi u _ (.inr rfl) hu⟩)
      · refine .inr (.inr ?_)
        rw [Rests, htask' i hi]
        refine hr.congr ⟨fun ⟨u, hu⟩ => ⟨u, hback i hi u _ (.inr rfl) hu⟩,
          fun ⟨u, hu⟩ => ⟨u, hkeep i hi u _ (.inr rfl) hu⟩⟩

theorem Staged.mover_step (hold : (x.phase t).moves = some k)
    (hlife : (x.task k).life = .dead ↔ o'.life = .dead)
    (hnew : ∀ i, p.moves = some i ∨ p.buries = some i → p.moves = some k ∧ i = k)
    (hfits : p.moves = some k → p.Fits o')
    (hrests : p.moves = some k ∨ o'.Rests (x.Dying k)) : y.Staged := by
  have halone (u : T) (hu : u ≠ t) : (x.phase u).moves ≠ some k := fun hk =>
    hu (h.mover u t k hk hold)
  have hdying : y.Dying k ↔ x.Dying k := by
    constructor <;> rintro ⟨u, hu⟩
    · rw [hphase] at hu
      rcases eq_or_ne u t with rfl | hne
      · rw [update_self] at hu
        subst hu
        cases (hnew k (.inr rfl)).1
      · rw [update_of_ne hne] at hu
        exact ⟨u, hu⟩
    · have hne : u ≠ t := by
        rintro rfl
        rw [hu] at hold
        cases hold
      exact ⟨u, by rw [hphase, update_of_ne hne, hu]⟩
  refine h.move hphase htask ?_ (fun i hi => (hnew i hi).2) ?_
    (fun hp => hfits (hnew k hp).1) (fun _ => halone) ?_
    (fun hd _ _ => hdying.mpr (h.mourned t k hold (hlife.mpr hd))) ?_
    (fun _ u _ hu => h.apart u t k hu hold) ?_
  · rintro i (hi | hi)
    · exact Option.some.inj (hi.symm.trans hold)
    · rw [Phase.buries_of_moves hold] at hi
      cases hi
  · rintro u hu (hk | hk)
    · exact absurd hk (halone u hu)
    · have hdead := (h.fits u k (.inr hk)).dead hk
      cases hq : x.phase u with
      | dying j => exact hlife.mp hdead
      | releasing j =>
        rw [hq] at hk
        obtain rfl : j = k := Option.some.inj hk
        exact absurd hold (h.apart u t j hq)
      | _ =>
        rw [hq] at hk
        cases hk
  · intro hp
    have := (hnew k (.inr hp)).1
    rw [Phase.moves_of_buries hp] at this
    cases this
  · rintro rfl
    cases (hnew k (.inr rfl)).1
  · rcases hrests with hp | hr
    · exact .inl ⟨t, by rw [hphase, update_self]; exact hp⟩
    · refine .inr (.inr ?_)
      rw [Rests, htask, update_self]
      exact hr.congr hdying

theorem Staged.goes_on (hold : (x.phase t).moves = some k)
    (hlife : (x.task k).life = .dead ↔ o'.life = .dead) (hp : p.moves = some k)
    (hfits : p.Fits o') : y.Staged := by
  refine h.mover_step hphase htask hold hlife ?_ (fun _ => hfits) (.inl hp)
  rintro i (hi | hi)
  · exact ⟨hp, Option.some.inj (hi.symm.trans hp)⟩
  · rw [Phase.buries_of_moves hp] at hi
    cases hi

end

theorem Staged.ends (h : x.Staged) (hphase : y.phase = update x.phase t .idle)
    (htask : y.task = update x.task k o') (hold : (x.phase t).moves = some k)
    (hlife : (x.task k).life = .dead ↔ o'.life = .dead) (hrests : o'.Rests (x.Dying k)) :
    y.Staged := by
  refine h.mover_step hphase htask hold hlife ?_ (fun hp => by cases hp) (.inr hrests)
  rintro i (hi | hi) <;> cases hi

omit [DecidableEq T] in
theorem Counted.amend (h : x.Counted maxuprc) (hk : k < x.tasks)
    (htask : y.task = update x.task k o') (htasks : y.tasks = x.tasks)
    (hsessions : x.sessions ≤ y.sessions)
    (hcount : ∀ s, (y.session s).numOfTasks + (x.task k).seatOn s =
      (x.session s).numOfTasks + o'.seatOn s)
    (hrefs : ∀ s, (x.session s).refs + o'.heldOn s ≤ (y.session s).refs + (x.task k).heldOn s)
    (hbound : ∀ s, (y.session s).numOfTasks ≤ maxuprc)
    (hborn : o'.life = .unborn → o'.Vacant)
    (hhoused : o'.seated = true ∨ 0 < o'.held → o'.session < y.sessions)
    (hunused : ∀ s, y.sessions ≤ s → y.session s = ⟨0, 0⟩) : y.Counted maxuprc := by
  constructor
  case count =>
    intro s
    have hupdate := Tally.tally_update (g := x.task) (f := (·.seatOn s)) (a := o') hk
    have := h.count s
    have := hcount s
    rw [htask, htasks]
    omega
  case refs =>
    intro s
    have hupdate := Tally.tally_update (g := x.task) (f := (·.heldOn s)) (a := o') hk
    have := h.refs s
    have := hrefs s
    rw [htask, htasks]
    omega
  case bound => exact hbound
  case unborn =>
    intro i hi
    rw [htasks] at hi
    have hne : i ≠ k := by omega
    rw [htask, update_of_ne hne]
    exact h.unborn i hi
  case born =>
    intro i hi
    rw [htask] at hi ⊢
    rcases eq_or_ne i k with rfl | hne
    · rw [update_self] at hi ⊢
      exact hborn hi
    · rw [update_of_ne hne] at hi ⊢
      exact h.born i hi
  case housed =>
    intro i hi
    rw [htask] at hi ⊢
    rcases eq_or_ne i k with rfl | hne
    · rw [update_self] at hi ⊢
      exact hhoused hi
    · rw [update_of_ne hne] at hi ⊢
      exact (h.housed i hi).trans_le hsessions
  case unused => exact hunused

end Master

end MachUS.Tm.Sessions
