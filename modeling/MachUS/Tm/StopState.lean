import MachUS.Tm.Task

namespace MachUS.Tm

open Transition World Function Option RunState

structure TaskState.StopState (s : TaskState) : Prop where
  stopped : s.state ≠ .dead → (s.state = .stopped ↔ s.suspendCount = 1)
  running : s.state ≠ .dead → (s.state = .running ↔ s.suspendCount = 0)
  resumed : ∀ r ∈ s.resumes, r = .stopped
  dead : s.died = true → s.state = .dead

variable {Task Thread : Type}

namespace Act

section Effect

variable [DecidableEq Task] (f : Family Task) (o : Outside) (task : Task → TaskState)

def effect : Act Task → Task → TaskState
  | .event t ev code subcode =>
    update task t (tmEventToTaskThread f t (task t) o ev code subcode).1
  | .hurtme t ev status postId _ =>
    update task t (tmHurtme f t (task t) o ev status postId).1
  | .setEmulStatus t status mask =>
    update task t (tmSetTaskEmulStatus t (task t) status mask).1
  | .setTgrp t => update task t (tmSetTgrp t (task t)).1
  | .death t => update task t (tmTaskDeath t (task t)).1
  | .tellParent t => update task t (epitaph (task t))
  | .unlock _ => task
  | .post _ _ _ _ => task

end Effect

def Kept (o : Outside) (task : Task → TaskState) : Act Task → Prop
  | .event t .cont _ _ =>
    (task t).state ≠ .dead → (task t).state = .stopped ∧ o.kernelOk = true
  | .hurtme t .stop _ postId _ =>
    ¬(task t).Ignores postId → (task t).state = .running → o.kernelOk = true
  | _ => True

end Act

namespace World

variable [DecidableEq Task] [DecidableEq Thread] {f : Family Task} {x y : World Task Thread}

theorem perform_task {th : Thread} {o : Outside} {rest : List (Act Task)} {a : Act Task}
    (h : x.perform f th o rest a = some y) : y.task = a.effect f o x.task := by
  cases a with
  | unlock t =>
    cases h
    rfl
  | post t ev postId n =>
    simp only [perform] at h
    split_ifs at h <;> (obtain rfl := some.inj h; rfl)
  | tellParent t =>
    simp only [perform] at h
    split_ifs at h <;> (obtain rfl := some.inj h; rfl)
  | event t ev code subcode =>
    simp only [perform] at h
    split_ifs at h
    cases h
    rfl
  | hurtme t ev status postId attempt =>
    simp only [perform] at h
    split_ifs at h
    cases h
    rfl
  | setEmulStatus t status mask =>
    simp only [perform] at h
    split_ifs at h
    cases h
    rfl
  | setTgrp t =>
    simp only [perform] at h
    split_ifs at h
    cases h
    rfl
  | death t =>
    simp only [perform] at h
    split_ifs at h
    cases h
    rfl

end World

namespace TaskState.StopState

variable {f : Family Task} {t : Task} {s : TaskState} {o : Outside}

section

variable (h : s.StopState)

include h

theorem congr {s' : TaskState} (hstate : s'.state = s.state)
    (hcount : s'.suspendCount = s.suspendCount) (hresumes : s'.resumes = s.resumes)
    (hdied : s'.died = s.died) : s'.StopState := by
  refine ⟨?_, ?_, ?_, ?_⟩
  · rw [hstate, hcount]
    exact h.stopped
  · rw [hstate, hcount]
    exact h.running
  · rw [hresumes]
    exact h.resumed
  · rw [hstate, hdied]
    exact h.dead

theorem cont (hdead : s.state ≠ .dead) :
    ({ s.taskResume o.kernelOk with emulStatus := 0, state := .running } : TaskState).StopState ↔
      s.state = .stopped ∧ o.kernelOk = true := by
  constructor
  · intro hs
    have hstate : s.state = .stopped := hs.resumed s.state (by simp [taskResume])
    have hone : s.suspendCount = 1 := (h.stopped hdead).mp hstate
    have hzero := (hs.running noConfusion).mp rfl
    refine ⟨hstate, ?_⟩
    by_contra hok
    simp only [taskResume, if_neg hok] at hzero
    omega
  · rintro ⟨hstate, hok⟩
    have hone : s.suspendCount = 1 := (h.stopped hdead).mp hstate
    have hcount : (s.taskResume o.kernelOk).suspendCount = 0 := by
      simp [taskResume, hok, hone]
    refine ⟨fun _ => ?_, fun _ => ?_, ?_, ?_⟩
    · simp [hcount]
    · simp [hcount]
    · intro r hr
      rcases List.mem_append.mp hr with hr | hr
      · exact h.resumed r hr
      · exact (List.mem_singleton.mp hr).trans hstate
    · intro hd
      exact absurd (h.dead hd) hdead

theorem event (ev : Signal) (code : ℤ) (subcode : WaitStatus) :
    (tmEventToTaskThread f t s o ev code subcode).1.StopState ↔
      (ev = .cont → s.state ≠ .dead → s.state = .stopped ∧ o.kernelOk = true) := by
  by_cases hdead : s.state = .dead
  · simp [tmEventToTaskThread, hdead, h]
  · simp only [tmEventToTaskThread, if_neg hdead]
    cases ev with
    | cont => simpa only [forall_const, ne_eq, hdead, not_false_eq_true] using h.cont hdead
    | kill =>
      refine iff_of_true ?_ fun he => nomatch he
      split_ifs <;> exact h.congr rfl rfl rfl rfl
    | stop =>
      refine iff_of_true ?_ fun he => nomatch he
      split_ifs <;> exact h.congr rfl rfl rfl rfl
    | chld =>
      refine iff_of_true ?_ fun he => nomatch he
      cases child f o code subcode <;> exact h
    | other n => exact iff_of_true h fun he => nomatch he

theorem hurtme (ev : Signal) (status : WaitStatus) (postId : ℤ) :
    (tmHurtme f t s o ev status postId).1.StopState ↔
      (ev = .stop → ¬s.Ignores postId → s.state = .running → o.kernelOk = true) := by
  simp only [tmHurtme]
  split_ifs with hign hev hrun
  · exact iff_of_true h fun _ hn => absurd hign hn
  · have hdead : s.state ≠ .dead := by
      rw [hrun]
      exact noConfusion
    have hzero : s.suspendCount = 0 := (h.running hdead).mp hrun
    constructor
    · intro hs _ _ _
      have hone := (hs.stopped noConfusion).mp rfl
      by_contra hok
      simp only [taskSuspend, noted, if_neg hok] at hone
      omega
    · intro hok
      have hcount : ((s.noted status postId).taskSuspend o.kernelOk).suspendCount = 1 := by
        simp [taskSuspend, noted, hok hev hign hrun, hzero]
      refine ⟨fun _ => ?_, fun _ => ?_, h.resumed, fun hd => absurd (h.dead hd) hdead⟩
      · simp [hcount]
      · simp [hcount]
  · exact iff_of_true (h.congr rfl rfl rfl rfl) fun _ _ hr => absurd hr hrun
  · exact iff_of_true (h.congr rfl rfl rfl rfl) fun he => absurd he hev

theorem death : (tmTaskDeath t s).1.StopState := by
  simp only [tmTaskDeath]
  split_ifs
  · exact h
  · exact ⟨fun hd => absurd rfl hd, fun hd => absurd rfl hd, h.resumed, fun _ => rfl⟩

theorem buried : (epitaph s).StopState := by
  rw [epitaph]
  split_ifs
  · exact h.congr rfl rfl rfl rfl
  · exact h

end

end TaskState.StopState

namespace Act

variable {f : Family Task} {o : Outside} {task : Task → TaskState}

instance (a : Act Task) : Decidable (a.Kept o task) :=
  match a with
  | .event t .cont _ _ =>
    inferInstanceAs (Decidable ((task t).state ≠ .dead → _ ∧ o.kernelOk = true))
  | .hurtme t .stop _ postId _ =>
    inferInstanceAs (Decidable (¬(task t).Ignores postId → _ → o.kernelOk = true))
  | .event _ .kill _ _ | .event _ .stop _ _ | .event _ .chld _ _ | .event _ (.other _) _ _
  | .hurtme _ .kill _ _ _ | .hurtme _ .cont _ _ _ | .hurtme _ .chld _ _ _
  | .hurtme _ (.other _) _ _ _ | .setEmulStatus _ _ _ | .setTgrp _ | .death _ | .unlock _
  | .post _ _ _ _ | .tellParent _ => .isTrue trivial

variable [DecidableEq Task]

theorem stopState_update (h : ∀ u, (task u).StopState) {t : Task} {s : TaskState} :
    (∀ u, (update task t s u).StopState) ↔ s.StopState := by
  constructor
  · intro hu
    simpa using hu t
  · intro hs u
    by_cases hut : u = t
    · rw [hut, update_self]
      exact hs
    · rw [update_of_ne hut]
      exact h u

theorem effect_iff (h : ∀ u, (task u).StopState) (a : Act Task) :
    (∀ u, (a.effect f o task u).StopState) ↔ a.Kept o task := by
  cases a with
  | event t ev code subcode =>
    rw [effect, stopState_update h, (h t).event]
    cases ev with
    | cont => exact ⟨fun hc => hc rfl, fun hc _ => hc⟩
    | _ => exact iff_of_true (fun he => nomatch he) trivial
  | hurtme t ev status postId attempt =>
    rw [effect, stopState_update h, (h t).hurtme]
    cases ev with
    | stop => exact ⟨fun hc => hc rfl, fun hc _ => hc⟩
    | _ => exact iff_of_true (fun he => nomatch he) trivial
  | setEmulStatus t status mask =>
    exact iff_of_true ((stopState_update h).mpr ((h t).congr rfl rfl rfl rfl)) trivial
  | setTgrp t => exact iff_of_true ((stopState_update h).mpr (h t)) trivial
  | death t => exact iff_of_true ((stopState_update h).mpr (h t).death) trivial
  | tellParent t => exact iff_of_true ((stopState_update h).mpr (h t).buried) trivial
  | unlock t => exact iff_of_true h trivial
  | post t ev postId n => exact iff_of_true h trivial

end Act

namespace World

def Kept (x : World Task Thread) : Event Task Thread → Prop
  | .call _ _ => True
  | .step th o => ∀ a ∈ (x.todo th).head?, a.Kept o x.task

theorem init_stopState (t : Task) : ((init : World Task Thread).task t).StopState :=
  ⟨fun _ => ⟨noConfusion, Nat.noConfusion⟩, fun _ => iff_of_true rfl rfl, nofun, nofun⟩

instance (x : World Task Thread) : ∀ e, Decidable (x.Kept e)
  | .call _ _ => .isTrue trivial
  | .step th o => inferInstanceAs (Decidable (∀ a ∈ (x.todo th).head?, a.Kept o x.task))

variable [DecidableEq Task] [DecidableEq Thread] {f : Family Task}

theorem kept_iff {x y : World Task Thread} {e : Event Task Thread}
    (hx : ∀ t, (x.task t).StopState) (hy : x.next f e = some y) :
    (∀ t, (y.task t).StopState) ↔ x.Kept e := by
  cases e with
  | call th a =>
    simp only [next] at hy
    split_ifs at hy
    cases hy
    exact iff_of_true hx trivial
  | step th o =>
    simp only [next] at hy
    split at hy
    next => cases hy
    next a rest htodo =>
      rw [perform_task hy, Act.effect_iff hx]
      simp [Kept, htodo]

end World

theorem stop_state_iff [DecidableEq Task] [DecidableEq Thread] (f : Family Task)
    (es : List (Event Task Thread)) (y : World Task Thread)
    (hrun : exec (next f) .init es = some y) :
    Throughout (next f) (fun x => ∀ t, (x.task t).StopState) .init es ↔
      Admits (next f) Kept .init es :=
  throughout_iff (fun _ h => h) (fun _ _ _ hx he hy => (kept_iff hx hy).mpr he)
    (fun _ _ _ hx hy hq => (kept_iff hx hy).mp hq) init_stopState hrun

namespace Sample

def stopCont : List (Event (Fin 2) (Fin 2)) :=
  [.call 0 (.event 1 .stop 0 0)] ++ steps 7 ++ [.call 0 (.event 1 .cont 0 0)] ++ steps 2

end Sample

theorem stop_state_iff_stopCont : ∃ y, exec (next Sample.family) .init Sample.stopCont = some y ∧
    (y.task 1).resumes = [.stopped] ∧
    Throughout (next Sample.family) (fun x => ∀ t, (x.task t).StopState) .init Sample.stopCont := by
  have h : check (next Sample.family) .init Sample.stopCont
      (fun y => decide ((y.task 1).resumes = [.stopped])) = true := by
    decide +kernel
  obtain ⟨y, hy, ht⟩ := exec_of_check h
  rw [decide_eq_true_eq] at ht
  exact ⟨y, hy, ht, (stop_state_iff Sample.family _ y hy).mpr (by decide +kernel)⟩

theorem running_task_resumed : ∃ (es : List (Event (Fin 2) (Fin 2)))
    (y : World (Fin 2) (Fin 2)), exec (next Sample.family) .init es = some y ∧
    ¬(y.task 1).StopState := by
  have h : check (next Sample.family) .init
      ([.call 0 (.event 1 .cont 0 0)] ++ Sample.steps 2)
      (fun y => decide ((y.task 1).resumes = [.running])) = true := by
    decide +kernel
  obtain ⟨y, hy, ht⟩ := exec_of_check h
  rw [decide_eq_true_eq] at ht
  refine ⟨_, y, hy, fun hs => ?_⟩
  exact absurd (hs.resumed .running (by simp [ht])) noConfusion

end MachUS.Tm

namespace MachUS.Tm

open Transition

structure Report.Sound (r : Report) : Prop where
  kill : r.signal = .kill → r.posted = true ∨ r.terminated = true
  stop : r.signal = .stop → r.posted = true ∨ r.suspended = true ∨ r.terminated = true
  forced : r.forced = true → r.running = false ∨ r.posted = false

variable {Task Thread : Type}

namespace Act

def Heard (o : Outside) (task : Task → TaskState) : Act Task → Prop
  | .post t ev _ n => o.posted = false →
    (ev = .kill → (task t).terminated = true) ∧
    (ev = .stop → n < (task t).suspends ∨ (task t).terminated = true)
  | .hurtme t ev _ postId (some a) =>
    if a.running then ¬Forces (task t) ev postId
    else ev = .kill → (task t).Ignores postId → (task t).terminated = true
  | _ => True

instance (o : Outside) (task : Task → TaskState) (a : Act Task) : Decidable (a.Heard o task) :=
  match a with
  | .post t ev _ n =>
    inferInstanceAs (Decidable (o.posted = false → (ev = .kill → (task t).terminated = true) ∧
      (ev = .stop → n < (task t).suspends ∨ (task t).terminated = true)))
  | .hurtme t ev _ postId (some a) =>
    inferInstanceAs (Decidable (if a.running = true then ¬Forces (task t) ev postId
      else ev = .kill → (task t).Ignores postId → (task t).terminated = true))
  | .hurtme _ _ _ _ none | .event _ _ _ _ | .setEmulStatus _ _ _ | .setTgrp _ | .death _
  | .unlock _ | .tellParent _ => .isTrue trivial

end Act

theorem terminated_of_hurtme {f : Family Task} {t : Task} {s : TaskState} {o : Outside}
    {status : WaitStatus} {postId : ℤ} :
    (tmHurtme f t s o .kill status postId).1.terminated = true ↔
      (s.Ignores postId → s.terminated = true) := by
  simp only [tmHurtme, reduceCtorEq, if_false]
  split_ifs with hign
  · exact ⟨fun h _ => h, fun h => h hign⟩
  · exact iff_of_true rfl fun h => absurd h hign

namespace World

section Forcing

variable {f : Family Task} {x : World Task Thread}

theorem forcing_sound {t : Task} {o : Outside} {ev : Signal} {status : WaitStatus} {postId : ℤ}
    {a : Attempt} :
    (x.forcing t ev postId a (tmHurtme f t (x.task t) o ev status postId).1).Sound ↔
      (Act.hurtme t ev status postId (some a)).Heard o x.task := by
  cases hrun : a.running with
  | true =>
    simp only [Act.Heard, hrun, if_true]
    constructor
    · intro h hforces
      have := h.forced (decide_eq_true hforces)
      simp [forcing, hrun] at this
    · intro h
      refine ⟨fun _ => .inl hrun, fun _ => .inl hrun, fun hf => ?_⟩
      exact absurd (of_decide_eq_true hf) h
  | false =>
    simp only [Act.Heard, hrun, Bool.false_eq_true, if_false]
    constructor
    · rintro h rfl
      exact terminated_of_hurtme.mp ((h.kill rfl).resolve_left (by simp [forcing, hrun]))
    · intro h
      refine ⟨fun hev => .inr ?_, fun _ => .inr (.inl ?_), fun _ => .inl hrun⟩
      · obtain rfl : ev = .kill := hev
        exact terminated_of_hurtme.mpr (h rfl)
      · simp [forcing, hrun]

end Forcing

def Heard (x : World Task Thread) : Event Task Thread → Prop
  | .call _ _ => True
  | .step th o => ∀ a ∈ (x.todo th).head?, a.Heard o x.task

instance (x : World Task Thread) : ∀ e, Decidable (x.Heard e)
  | .call _ _ => .isTrue trivial
  | .step th o => inferInstanceAs (Decidable (∀ a ∈ (x.todo th).head?, a.Heard o x.task))

def Answered (x : World Task Thread) : Prop := ∀ r ∈ x.reports, r.Sound

variable {f : Family Task} {x y : World Task Thread}

theorem answered_append (h : x.Answered) {r : Report} (hy : y.reports = x.reports ++ [r]) :
    y.Answered ↔ r.Sound := by
  simp only [Answered, hy, List.mem_append, List.mem_singleton]
  constructor
  · exact fun hr => hr r (.inr rfl)
  · rintro hr s (hs | rfl)
    · exact h s hs
    · exact hr

variable [DecidableEq Task] [DecidableEq Thread]

theorem perform_answered {th : Thread} {o : Outside} {rest : List (Act Task)} {a : Act Task}
    (h : x.Answered) (hy : x.perform f th o rest a = some y) : y.Answered ↔ a.Heard o x.task := by
  cases a with
  | post t ev postId n =>
    simp only [perform] at hy
    split_ifs at hy with hposted
    · cases hy
      exact iff_of_true h fun hn => absurd (hposted.symm.trans hn) Bool.noConfusion
    · cases hy
      rw [Bool.not_eq_true] at hposted
      rw [answered_append h rfl]
      constructor
      · intro hs _
        refine ⟨fun hev => (hs.kill hev).resolve_left Bool.noConfusion, fun hev => ?_⟩
        exact ((hs.stop hev).resolve_left Bool.noConfusion).imp_left of_decide_eq_true
      · intro hh
        obtain ⟨hkill, hstop⟩ := hh hposted
        exact ⟨fun hev => .inr (hkill hev), fun hev => .inr ((hstop hev).imp_left decide_eq_true),
          fun hf => nomatch hf⟩
  | hurtme t ev status postId attempt =>
    simp only [perform] at hy
    split_ifs at hy
    cases hy
    cases attempt with
    | none =>
      refine iff_of_true ?_ trivial
      simpa [Answered] using h
    | some a => rw [answered_append h rfl, forcing_sound]
  | unlock t =>
    cases hy
    exact iff_of_true h trivial
  | tellParent t =>
    simp only [perform] at hy
    split_ifs at hy <;> (obtain rfl := Option.some.inj hy; exact iff_of_true h trivial)
  | event t ev code subcode =>
    simp only [perform] at hy
    split_ifs at hy
    cases hy
    exact iff_of_true h trivial
  | setEmulStatus t status mask =>
    simp only [perform] at hy
    split_ifs at hy
    cases hy
    exact iff_of_true h trivial
  | setTgrp t =>
    simp only [perform] at hy
    split_ifs at hy
    cases hy
    exact iff_of_true h trivial
  | death t =>
    simp only [perform] at hy
    split_ifs at hy
    cases hy
    exact iff_of_true h trivial

theorem answered_iff {e : Event Task Thread} (hx : x.Answered) (hy : x.next f e = some y) :
    y.Answered ↔ x.Heard e := by
  cases e with
  | call th a =>
    simp only [next] at hy
    split_ifs at hy
    cases hy
    exact iff_of_true hx trivial
  | step th o =>
    simp only [next] at hy
    split at hy
    next => cases hy
    next a rest htodo =>
      rw [perform_answered hx hy]
      simp [Heard, htodo]

end World

theorem uncatchable_iff [DecidableEq Task] [DecidableEq Thread] (f : Family Task)
    (es : List (World.Event Task Thread)) (y : World Task Thread)
    (hrun : exec (World.next f) .init es = some y) :
    Throughout (World.next f) World.Answered .init es ↔
      Admits (World.next f) World.Heard .init es :=
  throughout_iff (fun _ h => h) (fun _ _ _ hx he hy => (World.answered_iff hx hy).mpr he)
    (fun _ _ _ hx hy hq => (World.answered_iff hx hy).mp hq) (fun _ hr => nomatch hr) hrun

namespace Sample

def obeyed : List (World.Event (Fin 2) (Fin 2)) :=
  [.call 0 (.event 1 .kill 0 0), .step 0 fine, .step 0 fine, .call 1 (.hurtme 1 .kill 9 1 none),
    .step 1 fine, .step 1 fine, .step 0 fine, .step 0 fine]

def unheard : List (World.Event (Fin 2) (Fin 2)) :=
  [.call 0 (.event 1 .kill 0 0), .step 0 fine, .step 0 fine, .step 0 ⟨true, false, true⟩]

end Sample

theorem uncatchable_iff_obeyed : ∃ y, exec (World.next Sample.family) .init Sample.obeyed = some y ∧
    y.reports.length = 1 ∧ Throughout (World.next Sample.family) World.Answered .init Sample.obeyed := by
  have h : check (World.next Sample.family) .init Sample.obeyed
      (fun y => decide (y.reports.length = 1)) = true := by
    decide +kernel
  obtain ⟨y, hy, ht⟩ := exec_of_check h
  rw [decide_eq_true_eq] at ht
  exact ⟨y, hy, ht, (uncatchable_iff Sample.family _ y hy).mpr (by decide +kernel)⟩

theorem failed_post_loses_kill : ∃ y,
    exec (World.next Sample.family) .init Sample.unheard = some y ∧ ¬y.Answered := by
  have h : check (World.next Sample.family) .init Sample.unheard
      (fun y => y.reports.any fun r => decide (r.signal = .kill) && !r.posted && !r.terminated) =
      true := by
    decide +kernel
  obtain ⟨y, hy, ht⟩ := exec_of_check h
  refine ⟨y, hy, fun ha => ?_⟩
  obtain ⟨r, hr, hbad⟩ := List.any_eq_true.mp ht
  rw [Bool.and_eq_true, Bool.and_eq_true, decide_eq_true_eq, Bool.not_eq_true',
    Bool.not_eq_true'] at hbad
  rcases (ha r hr).kill hbad.1.1 with hp | hp
  · exact absurd (hbad.1.2.symm.trans hp) Bool.noConfusion
  · exact absurd (hbad.2.symm.trans hp) Bool.noConfusion

end MachUS.Tm
