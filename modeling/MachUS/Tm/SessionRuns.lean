import MachUS.Tm.SessionActs

namespace MachUS.Tm.Sessions

open Relation Function Transition Master TmTask Option

variable {T : Type} {maxuprc : ℕ} {k : ℕ}

namespace Master

variable {x y : Master T} {t : T}

omit T in
theorem boot_inv (T : Type) (maxuprc : ℕ) : (boot : Master T).Inv maxuprc := by
  refine ⟨⟨?_, ?_, ?_, ?_, ?_, ?_⟩, ⟨?_, ?_, ?_, ?_, ?_, ?_, ?_⟩, ?_, rfl⟩
  · rintro _ _ (h | h) <;> cases h
  · intro _ _ _ h
    cases h
  · intro _ _ _ h
    cases h
  · intro _ _ h
    cases h
  · intro _ _ _ h
    cases h
  · exact fun _ => .inr (.inr ⟨rfl, rfl⟩)
  · exact fun _ => rfl
  · exact fun _ => Nat.le_refl 0
  · exact fun _ => Nat.zero_le _
  · exact fun _ _ => rfl
  · exact fun _ _ => ⟨rfl, rfl⟩
  · rintro _ (h | h) <;> cases h
  · exact fun _ _ => rfl
  · intro _ h
    cases h

variable [DecidableEq T]

omit [DecidableEq T] in
theorem Staged.unborn (h : x.Staged) (hk : (x.task k).life = .unborn) (t : T) :
    (x.phase t).moves ≠ some k ∧ (x.phase t).buries ≠ some k := by
  constructor
  · intro ht
    rcases (h.fits t k (.inl ht)).made ht with hl | ⟨hl | hl, -⟩ <;>
      cases hk.symm.trans hl
  · intro ht
    exact absurd (hk.symm.trans ((h.fits t k (.inr ht)).dead ht)) (by simp)

theorem Inv.stays (h : x.Inv maxuprc) {p : Phase} (hidle : x.phase t = .idle)
    (hmoves : p.moves = none) (hburies : p.buries = none) : (x.goes t p).Inv maxuprc := by
  have hunborn := h.counted.unborn x.tasks (le_refl _)
  have halone := h.staged.unborn hunborn
  refine ⟨h.staged.move (k := x.tasks) (p := p) rfl
    (update_eq_self _ _).symm ?_ ?_ ?_ ?_ ?_ ?_ ?_ ?_ ?_ ?_,
    ⟨h.counted.count, h.counted.refs, h.counted.bound, h.counted.unborn, h.counted.born,
      h.counted.housed, h.counted.unused⟩, h.reports, h.faulted⟩
  · rw [hidle]
    rintro i (hi | hi) <;> cases hi
  · intro i hi
    rw [hmoves, hburies] at hi
    rcases hi with hi | hi <;> cases hi
  · rintro u - (hu | hu)
    · exact absurd hu (halone u).1
    · exact absurd hu (halone u).2
  · intro hp
    rw [hmoves, hburies] at hp
    rcases hp with hp | hp <;> cases hp
  · exact fun _ u _ => (halone u).1
  · exact fun _ u _ => (halone u).2
  · exact fun hd => absurd (hunborn.symm.trans hd) (by simp)
  · exact fun _ u _ => (halone u).1
  · exact fun _ u _ hu => (halone u).2 (by rw [hu]; rfl)
  · refine .inr (.inr ?_)
    have hvacant := h.counted.born x.tasks hunborn
    rw [Rests, goes_task, TmTask.Rests, hunborn]
    exact hvacant

theorem Inv.taskDeath (h : x.Inv maxuprc) (hidle : x.phase t = .idle) (hknown : x.Known k) :
    (x.taskDeath t k).Inv maxuprc := by
  rw [Master.taskDeath]
  split
  · exact h
  · rename_i hdead
    have hlive : (x.task k).life = .live := by
      rcases hknown with hl | hl | hl
      · exact hl
      · exact absurd hl (h.staged.unlisted k)
      · exact absurd hl hdead
    have hunburied := h.staged.unburied hdead
    have hmine : ((x.amend k fun o => { o with life := .dead }).goes t (.dying k)).Dying k :=
      ⟨t, update_self ..⟩
    refine ⟨h.staged.move (p := .dying k) rfl rfl ?_ ?_ ?_ (fun _ => rfl) (fun hp => by cases hp)
      (fun _ u _ => hunburied u) (fun _ _ _ => hmine) (fun hp => by cases hp)
      (fun hp => by cases hp) ?_,
      h.counted.same (by simp [hlive]) rfl rfl rfl rfl (by simp) rfl rfl rfl, h.reports, h.faulted⟩
    · rw [hidle]
      rintro i (hi | hi) <;> cases hi
    · rintro i (hi | hi)
      · cases hi
      · exact (some.inj hi).symm
    · rintro u hu (hm | hb)
      · exact (h.staged.fits u k (.inl hm)).buried hm hlive
      · exact absurd hb (hunburied u)
    · rcases h.staged.rests k with ⟨u, hu⟩ | ⟨u, hu⟩ | hr
      · refine .inl ⟨u, ?_⟩
        have hne : u ≠ t := by
          rintro rfl
          rw [hidle] at hu
          cases hu
        change (update x.phase t _ u).moves = _
        rwa [update_of_ne hne]
      · exact absurd (by rw [hu]; rfl) (hunburied u)
      · refine .inr (.inr ?_)
        rw [Rests, TmTask.Rests, hlive] at hr
        change (update x.task k _ k).Rests _
        rw [update_self]
        exact ⟨fun _ => hmine, fun _ => hr⟩

theorem Staged.newborn (h : x.Staged) (hunborn : (x.task k).life = .unborn) {p : Phase}
    {o : TmTask} (hidle : x.phase t = .idle) (hphase : y.phase = update x.phase t p)
    (htask : y.task = update x.task k o) (hp : p.moves = some k) (hfits : p.Fits o)
    (hlife : o.life = .made) : y.Staged := by
  have halone := h.unborn hunborn
  refine h.move hphase htask ?_ ?_ ?_ (fun _ => hfits) (fun _ u _ => (halone u).1)
    (fun _ u _ => (halone u).2) (fun hd => absurd (hlife.symm.trans hd) (by simp))
    (fun _ u _ => (halone u).1) (fun _ u _ hu => (halone u).2 (by rw [hu]; rfl))
    (.inl ⟨t, by rw [hphase, update_self]; exact hp⟩)
  · rw [hidle]
    rintro i (hi | hi) <;> cases hi
  · rintro i (hi | hi)
    · exact some.inj (hi.symm.trans hp)
    · rw [Phase.buries_of_moves hp] at hi
      cases hi
  · rintro u - (hu | hu)
    · exact absurd hu (halone u).1
    · exact absurd hu (halone u).2

omit [DecidableEq T] in
theorem Counted.newborn (h : x.Counted maxuprc) {o : TmTask}
    (htask : y.task = update x.task x.tasks o) (htasks : y.tasks = x.tasks + 1)
    (hsessions : x.sessions ≤ y.sessions) (hseated : o.seated = false)
    (hcount : ∀ s, (y.session s).numOfTasks = (x.session s).numOfTasks)
    (hrefs : ∀ s, (x.session s).refs + o.heldOn s ≤ (y.session s).refs)
    (hlife : o.life = .made) (hhoused : 0 < o.held → o.session < y.sessions)
    (hunused : ∀ s, y.sessions ≤ s → y.session s = ⟨0, 0⟩) : y.Counted maxuprc := by
  have hseat (s : ℕ) : o.seatOn s = 0 := by simp [seatOn, hseated]
  have hold (i : ℕ) (hi : i ≠ x.tasks) : y.task i = x.task i := by
    rw [htask, update_of_ne hi]
  have hnew : y.task x.tasks = o := by rw [htask, update_self]
  constructor
  case count =>
    intro s
    rw [htask, htasks, Tally.tally_extend, hcount, h.count, hseat, Nat.add_zero]
  case refs =>
    intro s
    rw [htask, htasks, Tally.tally_extend]
    exact (Nat.add_le_add_right (h.refs s) _).trans (hrefs s)
  case bound => exact fun s => hcount s ▸ h.bound s
  case unborn =>
    intro i hi
    rw [htasks] at hi
    rw [hold i (by omega)]
    exact h.unborn i (by omega)
  case born =>
    intro i hi
    rcases eq_or_ne i x.tasks with rfl | hne
    · rw [hnew, hlife] at hi
      cases hi
    · rw [hold i hne] at hi ⊢
      exact h.born i hi
  case housed =>
    intro i hi
    rcases eq_or_ne i x.tasks with rfl | hne
    · rw [hnew] at hi ⊢
      rw [hseated] at hi
      exact hhoused (hi.resolve_left Bool.false_ne_true)
    · rw [hold i hne] at hi ⊢
      exact (h.housed i hi).trans_le hsessions
  case unused => exact hunused

section

variable (h : x.Inv maxuprc) (hidle : x.phase t = .idle)

include h hidle

theorem Inv.fork (parent : ℕ) (a : Answers) : (x.fork t parent a).Inv maxuprc := by
  rw [Master.fork]
  split
  · exact ⟨h.staged.newborn (h.counted.unborn _ (le_refl _)) hidle rfl rfl rfl
      ⟨rfl, ⟨rfl, rfl⟩, rfl⟩ rfl,
      h.counted.newborn rfl rfl (le_refl _) rfl (fun _ => rfl)
        (fun s => Nat.le_of_eq (by simp [heldOn, goes, newTask])) rfl
        (fun hpos => absurd hpos (Nat.lt_irrefl 0)) h.counted.unused, h.reports, h.faulted⟩
  · exact h

theorem Inv.registerInitial (prot : Prot)
    (a : Answers) : (x.registerInitial t prot a).Inv maxuprc := by
  rw [Master.registerInitial]
  split
  · have htask : ((((x.newTask ⟨.made, 0, none, prot, false, 0, false⟩).newSession x.tasks
        true).reference x.tasks).goes t (.authenticating x.tasks)).task =
        update x.task x.tasks ⟨.made, x.sessions, none, prot, true, 2, false⟩ := by
      simp [newTask, newSession, reference_task, amend]
    have hsession : ((((x.newTask ⟨.made, 0, none, prot, false, 0, false⟩).newSession x.tasks
        true).reference x.tasks).goes t (.authenticating x.tasks)).session =
        update x.session x.sessions ⟨0, 2⟩ := by
      simp [newTask, newSession, reference, amend, amendSession, goes]
    have hsame (s : ℕ) (hs : s ≠ x.sessions) : update x.session x.sessions ⟨0, 2⟩ s =
        x.session s := update_of_ne hs _ _
    refine ⟨h.staged.newborn (h.counted.unborn _ (le_refl _)) hidle rfl htask rfl
      ⟨rfl, rfl, rfl⟩ rfl,
      h.counted.newborn htask rfl (Nat.le_succ _) rfl ?_ ?_ rfl (fun _ => Nat.lt_succ_self _) ?_,
      h.reports, h.faulted⟩
    · intro s
      rw [hsession]
      rcases eq_or_ne s x.sessions with rfl | hs
      · rw [update_self, h.counted.unused _ (le_refl _)]
      · rw [hsame s hs]
    · intro s
      rw [hsession]
      rcases eq_or_ne s x.sessions with rfl | hs
      · rw [update_self, h.counted.unused _ (le_refl _)]
        simp [heldOn]
      · rw [hsame s hs]
        simp [heldOn, hs.symm]
    · intro s hs
      have hlt : x.sessions + 1 ≤ s := hs
      rw [hsession, hsame s (by omega)]
      exact h.counted.unused s (by omega)
  · exact h

theorem Inv.changeTaskAuth (k : ℕ) (a : Answers) : (x.changeTaskAuth t k a).Inv maxuprc := by
  rw [Master.changeTaskAuth]
  split
  · exact h.stays hidle rfl rfl
  · refine ⟨⟨h.staged.fits, h.staged.mover, h.staged.burier, h.staged.mourned, h.staged.apart,
      h.staged.rests⟩, ⟨h.counted.count, h.counted.refs, h.counted.bound, h.counted.unborn,
      h.counted.born, h.counted.housed, h.counted.unused⟩, fun r hr => ?_, h.faulted⟩
    rcases List.mem_cons.mp hr with rfl | hr
    · exact ⟨fun _ => rfl, fun _ => rfl⟩
    · exact h.reports r hr

end

theorem Inv.act (h : x.Inv maxuprc) {a : Answers} (he : x.Orderly maxuprc (.act t a))
    (hy : x.act maxuprc t a (x.phase t) = some y) : y.Inv maxuprc := by
  cases hold : x.phase t <;> rw [hold] at hy <;> cases hy <;> simp only [Orderly, hold] at he
  case inheriting k parent => exact h.inherit hold
  case referencing k parent => exact h.referenceSession hold he
  case authenticating k => exact h.authenticate hold he
  case joining k failed => exact h.join hold
  case introducing k =>
    rw [he]
    exact h.introduce hold
  case departing k => exact h.depart hold he.1 he.2
  case dropping k => exact h.dropping hold
  case translating k => exact h.translate hold he
  case renewing k => exact h.renew hold
  case rejoining k => exact h.rejoin hold he
  case dying k => exact h.bury hold he
  case releasing k => exact h.release hold

theorem Inv.next (h : x.Inv maxuprc) {e : Event T} (he : x.Orderly maxuprc e)
    (hy : x.next maxuprc e = some y) : y.Inv maxuprc := by
  cases e with
  | call t r a =>
    simp only [Master.next] at hy
    split at hy
    · rename_i hidle
      cases r with
      | registerInitial prot =>
        cases hy
        exact h.registerInitial hidle prot a
      | fork parent =>
        simp only [start, ite_none_right_eq_some] at hy
        obtain rfl := some.inj hy.2
        exact h.fork hidle parent a
      | changeTaskAuth k =>
        simp only [start, ite_none_right_eq_some] at hy
        obtain rfl := some.inj hy.2
        exact h.changeTaskAuth hidle k a
      | taskDeath k =>
        simp only [start, ite_none_right_eq_some] at hy
        obtain rfl := some.inj hy.2
        exact h.taskDeath hidle hy.1
    · cases hy
  | act t a =>
    simp only [Master.next, ite_none_left_eq_some] at hy
    exact h.act he hy.2

omit [DecidableEq T] in
theorem Inv.between (h : x.Inv maxuprc) (ht : (x.phase t).Between k) : (x.task k).seated = false := by
  have hfits := h.staged.fits t k (.inl ht.moves)
  cases hp : x.phase t <;> rw [hp] at ht hfits <;> first | exact ht.elim | skip
  case dropping | rejoining => exact hfits.1.2
  case translating | renewing => exact hfits.2

omit [DecidableEq T] in
theorem Inv.settled (h : x.Inv maxuprc) (hlive : (x.task k).life = .live) (hfree : x.Free k) :
    (x.task k).seated = true ∧ (x.task k).held = (x.task k).due := by
  have hunburied := h.staged.unburied (k := k) (by simp [hlive])
  have hr := h.staged.rests_of (.inl hlive) hfree fun u hu => hunburied u (by rw [hu]; rfl)
  simpa only [Rests, TmTask.Rests, hlive] using hr

omit [DecidableEq T] in
theorem Inv.dying (h : x.Inv maxuprc) (hfree : x.Free k) (hdying : x.Dying k) :
    (x.task k).seated = true := by
  obtain ⟨t, ht⟩ := hdying
  have hburies : (x.phase t).buries = some k := by rw [ht]; rfl
  have hdead := (h.staged.fits t k (.inr hburies)).dead hburies
  have hr := h.staged.rests_of (.inr hdead) hfree fun u hu => by
    obtain rfl := h.staged.burier u t k (by rw [hu]; rfl) hburies
    cases ht.symm.trans hu
  rw [Rests, TmTask.Rests, hdead] at hr
  exact (hr.2 ⟨t, ht⟩).1

omit [DecidableEq T] in
theorem Inv.seated_iff (h : x.Inv maxuprc) (k : ℕ) : (x.task k).seated = true ↔
    x.Free k ∧ ((x.task k).life = .live ∨ x.Dying k) ∨ ∃ t, x.phase t = .introducing k := by
  constructor
  · intro hseated
    have hfree : x.Free k := fun t ht => by
      rw [h.between ht] at hseated
      cases hseated
    rcases h.staged.rests k with ⟨t, ht⟩ | ⟨t, ht⟩ | hr
    · exact .inr ⟨t, (h.staged.fits t k (.inl ht)).introduces ht hseated⟩
    · have hfits := h.staged.fits t k (.inr (by rw [ht]; rfl))
      rw [ht] at hfits
      cases hseated.symm.trans hfits.2.1
    · refine .inl ⟨hfree, ?_⟩
      cases hl : (x.task k).life <;> rw [Rests, TmTask.Rests, hl] at hr
      case live => exact .inl rfl
      case dead => exact .inr (hr.1 hseated)
      case unborn => exact absurd (hseated.symm.trans hr.1) (by simp)
      case refused => exact absurd (hseated.symm.trans hr) (by simp)
      case made | listed => exact hr.elim
  · rintro (⟨hfree, hlive | hdying⟩ | ⟨t, ht⟩)
    · exact (h.settled hlive hfree).1
    · exact h.dying hfree hdying
    · have hfits := h.staged.fits t k (.inl (by rw [ht]; rfl))
      rw [ht] at hfits
      exact hfits.2.1

omit [DecidableEq T] in
theorem Inv.balanced (h : x.Inv maxuprc) : x.Balanced maxuprc fun k => (x.task k).first = false := by
  constructor
  case count =>
    intro s
    have hset : x.Members s = ((Finset.range x.tasks).filter fun k =>
        (x.task k).seated = true ∧ (x.task k).session = s : Finset ℕ) := by
      ext k
      simp only [Members, Set.mem_ofPred_eq, ← h.seated_iff k, Finset.coe_filter, Finset.mem_range]
      constructor
      · rintro ⟨hs, hseated⟩
        refine ⟨h.counted.lt_tasks fun hu => ?_, hseated, hs⟩
        cases hseated.symm.trans (h.counted.born k hu).1
      · exact fun hk => ⟨hk.2.2, hk.2.1⟩
    rw [h.counted.count, hset, Set.ncard_coe_finset]
    exact Tally.tally_eq_card _ fun k => rfl
  case bound => exact h.counted.bound
  case held =>
    intro k hlive hfree hfirst
    rw [(h.settled hlive hfree).2, due, hfirst]
    rfl
  case reports => exact h.reports
  case answered => exact h.faulted

instance decidableBetween (k : ℕ) : ∀ p : Phase, Decidable (p.Between k)
  | .dropping i | .translating i | .renewing i | .rejoining i => inferInstanceAs (Decidable (i = k))
  | .idle | .inheriting _ _ | .referencing _ _ | .authenticating _ | .joining _ _ | .introducing _
  | .departing _ | .dying _ | .releasing _ => .isFalse id

instance decidableFree [Fintype T] (x : Master T) (k : ℕ) : Decidable (x.Free k) :=
  inferInstanceAs (Decidable (∀ t, ¬(x.phase t).Between k))

instance decidableOrderly [Fintype T] (maxuprc : ℕ) (x : Master T) :
    ∀ e : Event T, Decidable (x.Orderly maxuprc e)
  | .call _ _ _ => .isTrue trivial
  | .act t a =>
    match h : x.phase t with
    | .referencing k _ =>
      decidable_of_iff ((x.session (x.task k).session).refs ≠ 0) (by simp only [Orderly, h])
    | .authenticating _ | .translating _ =>
      decidable_of_iff (a.cred ≠ none) (by simp only [Orderly, h])
    | .introducing _ => decidable_of_iff (a.introduced = .done) (by simp only [Orderly, h])
    | .departing k =>
      decidable_of_iff ((x.task k).life = .live ∧ x.Free k) (by simp only [Orderly, h])
    | .dying k => decidable_of_iff (x.Free k) (by simp only [Orderly, h])
    | .rejoining k =>
      decidable_of_iff ((x.session (x.task k).session).numOfTasks ≠ maxuprc)
        (by simp only [Orderly, h])
    | .idle | .inheriting _ _ | .joining _ _ | .dropping _ | .renewing _ | .releasing _ =>
      .isTrue (by simp only [Orderly, h])

end Master

theorem session_accounts_balanced {T : Type} [DecidableEq T] (maxuprc : ℕ) (x : Master T)
    (hrun : ReflTransGen (Under (Master.next maxuprc) (Orderly maxuprc)) boot x) :
    x.Balanced maxuprc (fun k => (x.task k).first = false) ∧
      ∀ k, (x.task k).life = .live → x.Free k → (x.task k).first = true → (x.task k).held = 2 := by
  have h : x.Inv maxuprc := invariant (fun _ _ _ hx he hy => hx.next he hy) hrun
    (boot_inv T maxuprc)
  refine ⟨h.balanced, fun k hlive hfree hfirst => ?_⟩
  rw [(h.settled hlive hfree).2, due, if_pos hfirst]

namespace Sample

def granted : Answers := ⟨true, some [7, 8], .done⟩

def refusedToken : Answers := ⟨true, none, .done⟩

def acts {T : Type} (t : T) (n : ℕ) : List (Event T) := List.replicate n (.act t granted)

def registers {T : Type} (t : T) : List (Event T) :=
  .call t (.registerInitial [(0, 1), (0, 2)]) granted :: acts t 3

def forks {T : Type} (t : T) (parent : ℕ) : List (Event T) :=
  .call t (.fork parent) granted :: acts t 4

def changes {T : Type} (t : T) (k : ℕ) : List (Event T) :=
  .call t (.changeTaskAuth k) granted :: acts t 5

def dies {T : Type} (t : T) (k : ℕ) : List (Event T) := .call t (.taskDeath k) granted :: acts t 2

def family : List (Event (Fin 2)) :=
  registers 0 ++ forks 1 0 ++ changes 0 0 ++ forks 1 0 ++ dies 0 0

def badToken : List (Event (Fin 2)) :=
  registers 0 ++ .call 0 (.changeTaskAuth 0) granted :: acts 0 2 ++ [.act 0 refusedToken]

end Sample

theorem session_accounts_balanced_family : ∃ x : Master (Fin 2),
    (x.session 0).numOfTasks = 1 ∧ (x.session 1).numOfTasks = 1 ∧ (x.task 1).session = 0 ∧
      (x.task 2).session = 1 ∧ x.Balanced 25 fun k => (x.task k).first = false := by
  have h : check (Master.next 25) boot Sample.family (fun x => decide
      ((x.session 0).numOfTasks = 1 ∧ (x.session 1).numOfTasks = 1 ∧ (x.task 1).session = 0 ∧
        (x.task 2).session = 1)) = true := by
    decide +kernel
  have hadmits : Admits (Master.next 25) (Orderly 25) boot Sample.family := by
    decide +kernel
  obtain ⟨x, hx, ht⟩ := exec_of_check h
  obtain ⟨hfirst, hsecond, hchild, hgrandchild⟩ := of_decide_eq_true ht
  exact ⟨x, hfirst, hsecond, hchild, hgrandchild,
    (session_accounts_balanced 25 x (run_of_exec hadmits hx)).1⟩

theorem invalid_token_faults : ∃ x : Master (Fin 2),
    ReflTransGen (Under (Master.next 25) Free) boot x ∧ ¬x.Balanced 25 fun _ => True := by
  have h : check (Master.next 25) boot Sample.badToken (fun x => x.faulted) = true := by
    decide +kernel
  obtain ⟨x, hx, ht⟩ := exec_of_check h
  refine ⟨x, run_of_exec (free_admits _ _) hx, fun hbalanced => ?_⟩
  cases ht.symm.trans hbalanced.answered

end MachUS.Tm.Sessions
