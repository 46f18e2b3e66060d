import MachUS.Tm.SessionSteps

namespace MachUS.Tm.Sessions

open Function TmTask Option Master

variable {T : Type} {maxuprc : ℕ} {o' : TmTask} {p : Phase} {k : ℕ}

namespace Master

variable {x y : Master T} {t : T}

section

variable (h : x.Counted maxuprc) (hk : (x.task k).life ≠ .unborn)

include h hk

theorem Counted.lt_tasks : k < x.tasks :=
  Nat.lt_of_not_le fun hle => hk (h.unborn k hle)

theorem Counted.same (htask : y.task = update x.task k o') (htasks : y.tasks = x.tasks)
    (hsession : y.session = x.session) (hsessions : y.sessions = x.sessions)
    (hlife : o'.life ≠ .unborn) (hold : o'.session = (x.task k).session)
    (hseated : o'.seated = (x.task k).seated) (hheld : o'.held = (x.task k).held) :
    y.Counted maxuprc := by
  refine h.amend (h.lt_tasks hk) htask htasks (Nat.le_of_eq hsessions.symm) ?_ ?_ ?_
    (fun hu => absurd hu hlife) ?_ ?_
  · intro s
    simp only [hsession, seatOn, hold, hseated]
  · intro s
    simp only [hsession, heldOn, hold, hheld]
    omega
  · rw [hsession]
    exact h.bound
  · rw [hsessions, hold, hseated, hheld]
    exact h.housed k
  · rw [hsession, hsessions]
    exact h.unused

theorem Counted.own
    (htask : y.task = update x.task k o') (htasks : y.tasks = x.tasks) {v : TmSession}
    (hsession : y.session = update x.session (x.task k).session v)
    (hsessions : y.sessions = x.sessions) (hlife : o'.life ≠ .unborn)
    (hold : o'.session = (x.task k).session) (hlt : (x.task k).session < x.sessions)
    (hcount : v.numOfTasks + (if (x.task k).seated then 1 else 0) =
      (x.session (x.task k).session).numOfTasks + if o'.seated then 1 else 0)
    (hrefs : (x.session (x.task k).session).refs + o'.held ≤ v.refs + (x.task k).held)
    (hbound : v.numOfTasks ≤ maxuprc) : y.Counted maxuprc := by
  refine h.amend (h.lt_tasks hk) htask htasks (Nat.le_of_eq hsessions.symm) ?_ ?_ ?_
    (fun hu => absurd hu hlife) ?_ ?_
  · intro s
    rw [hsession]
    rcases eq_or_ne s (x.task k).session with rfl | hs
    · rw [update_self]
      simpa [seatOn, hold] using hcount
    · rw [update_of_ne hs]
      simp [seatOn, hold, hs.symm]
  · intro s
    rw [hsession]
    rcases eq_or_ne s (x.task k).session with rfl | hs
    · rw [update_self]
      simpa [heldOn, hold] using hrefs
    · rw [update_of_ne hs]
      simp [heldOn, hold, hs.symm]
  · intro s
    rw [hsession]
    rcases eq_or_ne s (x.task k).session with rfl | hs
    · rwa [update_self]
    · rw [update_of_ne hs]
      exact h.bound s
  · rw [hsessions, hold]
    exact fun _ => hlt
  · intro s hs
    rw [hsessions] at hs
    rw [hsession, update_of_ne (by omega)]
    exact h.unused s hs

theorem Counted.num_pos
    (hseated : (x.task k).seated = true) : 0 < (x.session (x.task k).session).numOfTasks := by
  have hle := Tally.le_tally (g := x.task) (f := (·.seatOn (x.task k).session)) (h.lt_tasks hk)
  have hone : (x.task k).seatOn (x.task k).session = 1 := by simp [seatOn, hseated]
  rw [h.count]
  omega

theorem Counted.held_le : (x.task k).held ≤ (x.session (x.task k).session).refs := by
  have hle := Tally.le_tally (g := x.task) (f := (·.heldOn (x.task k).session)) (h.lt_tasks hk)
  have hown : (x.task k).heldOn (x.task k).session = (x.task k).held := by simp [heldOn]
  have := h.refs (x.task k).session
  omega

end

theorem due_pos (o : TmTask) : 0 < o.due := by
  rw [due]
  split <;> omega

variable [DecidableEq T]

section

variable (h : x.Inv maxuprc)

include h

omit [DecidableEq T] in
theorem Inv.mover_fits {p : Phase} (hold : x.phase t = p) (hp : p.moves = some k) :
    (x.phase t).moves = some k ∧ p.Fits (x.task k) := by
  subst hold
  exact ⟨hp, h.staged.fits t k (.inl hp)⟩

theorem Inv.join {failed : Bool} (hold : x.phase t = .joining k failed) :
    (x.join maxuprc t k failed).Inv maxuprc := by
  obtain ⟨hmoves, hlife, hseated, hheld, rfl⟩ := h.mover_fits hold rfl
  have hborn : (x.task k).life ≠ .unborn := by simp [hlife]
  rw [Master.join]
  split
  · exact ⟨h.staged.ends rfl rfl hmoves (by simp [hlife]) hseated,
      h.counted.same hborn rfl rfl rfl rfl (by simp) rfl rfl rfl, h.reports, h.faulted⟩
  · rename_i hroom
    rw [if_neg Bool.false_ne_true]
    have hlt := h.counted.housed k (.inr (by rw [hheld]; exact due_pos _))
    have hbound := h.counted.bound (x.task k).session
    have htask := tasksIncrement_task x k
    refine ⟨h.staged.goes_on rfl htask hmoves (by simp [hlife]) rfl ⟨hlife, rfl, hheld⟩,
      h.counted.own hborn htask rfl rfl rfl hborn rfl hlt ?_ ?_ ?_, h.reports, h.faulted⟩
    · simp [hseated]
    · simp
    · have : (x.session (x.task k).session).numOfTasks ≠ maxuprc := hroom
      simp only
      omega

theorem Inv.introduce (hold : x.phase t = .introducing k) :
    (x.introduce t k .done).Inv maxuprc := by
  obtain ⟨hmoves, hlife, hseated, hheld⟩ := h.mover_fits hold rfl
  exact ⟨h.staged.ends rfl rfl hmoves (by simp [hlife]) ⟨hseated, hheld⟩,
    h.counted.same (by simp [hlife]) rfl rfl rfl rfl (by simp) rfl rfl rfl, h.reports, h.faulted⟩

theorem Inv.authenticate (hold : x.phase t = .authenticating k) {a : Answers}
    (ha : a.cred ≠ none) : (x.authenticate t k a).Inv maxuprc := by
  obtain ⟨hmoves, hlife, hseated, hheld⟩ := h.mover_fits hold rfl
  refine ⟨h.staged.goes_on rfl rfl hmoves (by simp [hlife]) rfl ⟨hlife, hseated, hheld, ?_⟩,
    h.counted.same (by simp [hlife]) rfl rfl rfl rfl (by simp [hlife]) rfl rfl rfl, h.reports,
    h.faulted⟩
  rwa [isNone_eq_false_iff, isSome_iff_ne_none]

theorem Inv.inherit {parent : ℕ} (hold : x.phase t = .inheriting k parent) :
    (x.inherit t k parent).Inv maxuprc := by
  obtain ⟨hmoves, hlife, ⟨hseated, hheld⟩, hfirst⟩ := h.mover_fits hold rfl
  have hborn : (x.task k).life ≠ .unborn := by simp [hlife]
  refine ⟨h.staged.goes_on rfl rfl hmoves (by simp [hlife]) rfl ⟨hlife, ⟨hseated, hheld⟩, hfirst⟩,
    h.counted.amend (h.counted.lt_tasks hborn) rfl rfl (le_refl _) ?_ ?_ h.counted.bound
      (by simp [hlife]) (by simp [hseated, hheld]) h.counted.unused, h.reports, h.faulted⟩
  · intro s
    simp [seatOn, hseated, Master.inherit, Master.goes, Master.amend]
  · intro s
    simp [heldOn, hheld, Master.inherit, Master.goes, Master.amend]

theorem Inv.referenceSession {parent : ℕ}
    (hold : x.phase t = .referencing k parent) (hrefs : (x.sessionOf k).refs ≠ 0) :
    (x.referenceSession t k parent).Inv maxuprc := by
  obtain ⟨hmoves, hlife, ⟨hseated, hheld⟩, hfirst⟩ := h.mover_fits hold rfl
  have hborn : (x.task k).life ≠ .unborn := by simp [hlife]
  have hlt : (x.task k).session < x.sessions := by
    refine Nat.lt_of_not_le fun hle => hrefs ?_
    rw [sessionOf, h.counted.unused _ hle]
  rw [Master.referenceSession, if_neg hrefs]
  have htask : ((((x.reference k).amend k fun o =>
      { o with prot := (x.task parent).prot }).goes t (.joining k false))).task =
      update x.task k
        { x.task k with held := (x.task k).held + 1, prot := (x.task parent).prot } := by
    simp [Master.goes, Master.amend, reference_task]
  refine ⟨h.staged.goes_on rfl htask hmoves (by simp [hlife]) rfl ⟨hlife, hseated, ?_, rfl⟩,
    h.counted.own hborn htask rfl rfl rfl (by simp [hlife]) rfl hlt (by simp) (by simp; omega)
      (h.counted.bound _), h.reports, h.faulted⟩
  simp [hheld, due, hfirst]

theorem Inv.translate (hold : x.phase t = .translating k) {a : Answers}
    (ha : a.cred ≠ none) : (x.translate t k a).Inv maxuprc := by
  obtain ⟨hmoves, hlife, hseated⟩ := h.mover_fits hold rfl
  obtain ⟨c, hc⟩ := ne_none_iff_exists'.mp ha
  have hborn : (x.task k).life ≠ .unborn := by rcases hlife with hl | hl <;> simp [hl]
  rw [Master.translate, hc]
  exact ⟨h.staged.goes_on rfl rfl hmoves Iff.rfl rfl ⟨hlife, hseated⟩,
    h.counted.same hborn rfl rfl rfl rfl hborn rfl rfl rfl, h.reports, h.faulted⟩

theorem Inv.dropping (hold : x.phase t = .dropping k) :
    (x.drop t k (.translating k)).Inv maxuprc := by
  obtain ⟨hmoves, ⟨hlife, hseated⟩, hheld⟩ := h.mover_fits hold rfl
  have hborn : (x.task k).life ≠ .unborn := by rcases hlife with hl | hl <;> simp [hl]
  have hpos : 0 < (x.task k).held := hheld ▸ due_pos _
  have hle := h.counted.held_le hborn
  rw [drop, if_neg (by rw [sessionOf]; omega)]
  have htask := dereference_task x k
  refine ⟨h.staged.goes_on rfl htask hmoves Iff.rfl rfl ⟨hlife, hseated⟩,
    h.counted.own hborn htask rfl rfl rfl hborn rfl (h.counted.housed k (.inr hpos)) (by simp) ?_
      (h.counted.bound _), h.reports, h.faulted⟩
  simp only
  omega

theorem Inv.rejoin (hold : x.phase t = .rejoining k)
    (hroom : (x.sessionOf k).numOfTasks ≠ maxuprc) : (x.rejoin maxuprc t k).Inv maxuprc := by
  obtain ⟨hmoves, ⟨hlife, hseated⟩, hheld, hfirst⟩ := h.mover_fits hold rfl
  have hborn : (x.task k).life ≠ .unborn := by rcases hlife with hl | hl <;> simp [hl]
  have hpos : 0 < (x.task k).held := hheld ▸ due_pos _
  have hbound := h.counted.bound (x.task k).session
  rw [Master.rejoin, if_neg hroom]
  have htask := tasksIncrement_task x k
  refine ⟨h.staged.ends rfl htask hmoves Iff.rfl ?_, h.counted.own hborn htask rfl rfl rfl hborn rfl
    (h.counted.housed k (.inr hpos)) (by simp [hseated]) (by simp) ?_, ?_, h.faulted⟩
  · rw [TmTask.Rests]
    rcases hlife with hl | hl
    · simp only [hl]
      exact ⟨trivial, hheld⟩
    · simp only [hl]
      exact ⟨fun _ => h.staged.mourned t k hmoves hl, fun _ => ⟨trivial, hheld⟩⟩
  · have : (x.session (x.task k).session).numOfTasks ≠ maxuprc := hroom
    simp only
    omega
  · intro r hr
    rcases List.mem_cons.mp hr with rfl | hr
    · exact ⟨by simp, by simp⟩
    · exact h.reports r hr

theorem Inv.renew (hold : x.phase t = .renewing k) :
    ((x.newSession k false).goes t (.rejoining k)).Inv maxuprc := by
  obtain ⟨hmoves, hlife, hseated⟩ := h.mover_fits hold rfl
  have hborn : (x.task k).life ≠ .unborn := by rcases hlife with hl | hl <;> simp [hl]
  refine ⟨h.staged.goes_on rfl rfl hmoves Iff.rfl rfl ⟨⟨hlife, hseated⟩, rfl, rfl⟩, ?_, h.reports,
    h.faulted⟩
  have hsession (s : ℕ) (hs : s ≠ x.sessions) :
      ((x.newSession k false).goes t (.rejoining k)).session s = x.session s :=
    update_of_ne hs _ _
  have hnew : ((x.newSession k false).goes t (.rejoining k)).session x.sessions = ⟨0, 1⟩ :=
    update_self ..
  refine h.counted.amend (h.counted.lt_tasks hborn) rfl rfl (Nat.le_succ _) ?_ ?_ ?_
    (fun hu => absurd hu hborn) (fun _ => Nat.lt_succ_self _) ?_
  · intro s
    rcases eq_or_ne s x.sessions with rfl | hs
    · rw [hnew, h.counted.unused _ (le_refl _)]
      simp [seatOn, hseated]
    · rw [hsession s hs]
      simp [seatOn, hseated]
  · intro s
    rcases eq_or_ne s x.sessions with rfl | hs
    · rw [hnew, h.counted.unused _ (le_refl _)]
      simp [heldOn]
    · rw [hsession s hs]
      simp [heldOn, hs.symm]
  · intro s
    rcases eq_or_ne s x.sessions with rfl | hs
    · rw [hnew]
      exact Nat.zero_le _
    · rw [hsession s hs]
      exact h.counted.bound s
  · intro s hs
    have hlt : x.sessions + 1 ≤ s := hs
    rw [hsession s (by omega)]
    exact h.counted.unused s (by omega)

end

omit [DecidableEq T] in
theorem Staged.rests_of (h : x.Staged) (hk : (x.task k).life = .live ∨ (x.task k).life = .dead)
    (hfree : x.Free k) (hreleasing : ∀ t, x.phase t ≠ .releasing k) : x.Rests k := by
  rcases h.rests k with ⟨t, ht⟩ | ⟨t, ht⟩ | hr
  · exact absurd ht (h.free hk hfree t)
  · exact absurd ht (hreleasing t)
  · exact hr

theorem Inv.depart (h : x.Inv maxuprc) (hold : x.phase t = .departing k)
    (hlive : (x.task k).life = .live) (hfree : x.Free k) :
    ((x.tasksDecrement k).goes t (.dropping k)).Inv maxuprc := by
  have hborn : (x.task k).life ≠ .unborn := by simp [hlive]
  have hmover := h.staged.free (.inl hlive) hfree
  have hunburied := h.staged.unburied (k := k) (by simp [hlive])
  have hrests := h.staged.rests_of (.inl hlive) hfree fun u hu => hunburied u (by rw [hu]; rfl)
  obtain ⟨hseated, hheld⟩ : (x.task k).seated = true ∧ (x.task k).held = (x.task k).due := by
    simpa only [Rests, TmTask.Rests, hlive] using hrests
  have hpos := h.counted.num_pos hborn hseated
  have htask := tasksDecrement_task x k
  refine ⟨h.staged.move (p := .dropping k) rfl htask ?_ ?_ ?_ (fun _ => ⟨⟨.inl hlive, rfl⟩, hheld⟩)
    (fun _ u _ => hmover u) (fun hb => by cases hb) (fun hd => absurd (hlive.symm.trans hd) (by simp))
    (fun hp => by cases hp) (fun _ u _ hu => hunburied u (by rw [hu]; rfl))
    (.inl ⟨t, by simp [Master.goes, Phase.moves]⟩),
    h.counted.own hborn htask rfl rfl rfl hborn rfl (h.counted.housed k (.inl hseated)) ?_ (by simp)
      ?_, h.reports, h.faulted⟩
  · rw [hold]
    rintro i (hi | hi) <;> cases hi
  · rintro i (hi | hi)
    · exact (some.inj hi).symm
    · cases hi
  · rintro u - (hu | hu)
    · exact absurd hu (hmover u)
    · exact absurd hu (hunburied u)
  · simp only [hseated]
    simp
    omega
  · exact (Nat.sub_le _ _).trans (h.counted.bound _)

theorem Inv.bury (h : x.Inv maxuprc) (hold : x.phase t = .dying k) (hfree : x.Free k) :
    ((x.tasksDecrement k).goes t (.releasing k)).Inv maxuprc := by
  have hburies : (x.phase t).buries = some k := by rw [hold]; rfl
  have hdead : (x.task k).life = .dead := (h.staged.fits t k (.inr hburies)).dead hburies
  have hborn : (x.task k).life ≠ .unborn := by simp [hdead]
  have hmover := h.staged.free (.inr hdead) hfree
  have hreleasing (u : T) : x.phase u ≠ .releasing k := by
    intro hu
    obtain rfl := h.staged.burier u t k (by rw [hu]; rfl) hburies
    cases hold.symm.trans hu
  have hrests := h.staged.rests_of (.inr hdead) hfree hreleasing
  rw [Rests, TmTask.Rests, hdead] at hrests
  obtain ⟨hseated, hheld⟩ := hrests.2 ⟨t, hold⟩
  have hpos := h.counted.num_pos hborn hseated
  have htask := tasksDecrement_task x k
  refine ⟨h.staged.move (p := .releasing k) rfl htask ?_ ?_ ?_ (fun _ => ⟨hdead, rfl, hheld⟩)
    (fun hp => by cases hp) (fun _ u hu hb => hu (h.staged.burier u t k hb hburies)) ?_
    (fun _ u _ => hmover u) (fun hp => by cases hp)
    (.inr (.inl ⟨t, update_self ..⟩)),
    h.counted.own hborn htask rfl rfl rfl hborn rfl (h.counted.housed k (.inl hseated)) ?_ (by simp)
      ?_, h.reports, h.faulted⟩
  · rw [hold]
    rintro i (hi | hi)
    · cases hi
    · exact (some.inj hi).symm
  · rintro i (hi | hi)
    · cases hi
    · exact (some.inj hi).symm
  · rintro u hu (hm | hb)
    · exact absurd hm (hmover u)
    · exact absurd (h.staged.burier u t k hb hburies) hu
  · intro _ u hu
    rcases eq_or_ne u t with rfl | hne
    · simp [Master.goes, Phase.moves] at hu
    · change (update x.phase t _ u).moves = _ at hu
      rw [update_of_ne hne] at hu
      exact absurd hu (hmover u)
  · simp only [hseated]
    simp
    omega
  · exact (Nat.sub_le _ _).trans (h.counted.bound _)

theorem Inv.release (h : x.Inv maxuprc) (hold : x.phase t = .releasing k) :
    (x.drop t k .idle).Inv maxuprc := by
  have hburies : (x.phase t).buries = some k := by rw [hold]; rfl
  have hfits := h.staged.fits t k (.inr hburies)
  rw [hold] at hfits
  obtain ⟨hdead, hseated, hheld⟩ := hfits
  have hborn : (x.task k).life ≠ .unborn := by simp [hdead]
  have hpos : 0 < (x.task k).held := hheld ▸ due_pos _
  have hle := h.counted.held_le hborn
  have hmover (u : T) : (x.phase u).moves ≠ some k := h.staged.apart t u k hold
  have htask := dereference_task x k
  rw [drop, if_neg (by rw [sessionOf]; omega)]
  have hundying : ¬((x.dereference k).goes t .idle).Dying k := by
    rintro ⟨u, hu⟩
    rcases eq_or_ne u t with rfl | hne
    · simp [Master.goes] at hu
    · change update x.phase t _ u = _ at hu
      rw [update_of_ne hne] at hu
      exact hne (h.staged.burier u t k (by rw [hu]; rfl) hburies)
  refine ⟨h.staged.move (p := .idle) rfl htask ?_ ?_ ?_ (fun hp => by rcases hp with hp | hp <;> cases hp)
    (fun hp => by cases hp) (fun hp => by cases hp) ?_ (fun hp => by cases hp)
    (fun hp => by cases hp) ?_,
    h.counted.own hborn htask rfl rfl rfl hborn rfl (h.counted.housed k (.inr hpos)) (by simp) ?_
      (h.counted.bound _), h.reports, h.faulted⟩
  · rw [hold]
    rintro i (hi | hi)
    · cases hi
    · exact (some.inj hi).symm
  · rintro i (hi | hi) <;> cases hi
  · rintro u hu (hm | hb)
    · exact absurd hm (hmover u)
    · exact absurd (h.staged.burier u t k hb hburies) hu
  · intro _ u hu
    rcases eq_or_ne u t with rfl | hne
    · simp [Master.goes, Phase.moves] at hu
    · change (update x.phase t _ u).moves = _ at hu
      rw [update_of_ne hne] at hu
      exact absurd hu (hmover u)
  · refine .inr (.inr ?_)
    have hrest : ({ x.task k with held := (x.task k).held - 1 } : TmTask).Rests
        (((x.dereference k).goes t .idle).Dying k) := by
      simp [TmTask.Rests, hdead, hseated, hundying]
    change (update x.task k _ k).Rests _
    rw [update_self]
    exact hrest
  · simp only
    omega

end Master

end MachUS.Tm.Sessions
