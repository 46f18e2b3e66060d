import MachUS.Tm.GroupCalls

namespace MachUS.Tm.Groups

open Relation Transition Master

variable {T : Type} {k g : ℕ}

namespace Master

theorem boot_inv (T : Type) [DecidableEq T] : (boot : Master T).Inv := by
  have hstands (k : ℕ) : (boot : Master T).Stands k .null none none := by
    refine ⟨rfl, fun g n b => ?_, fun g => by simp [owners, boot]⟩
    constructor
    · intro h
      cases h
    · rintro ⟨h, -⟩
      cases h
  refine ⟨fun t k => ?_, fun t => trivial, fun k _ => (hstands k).settled_null,
    fun t g => Nat.zero_le _, fun t k h => ?_, fun k _ => ⟨rfl, rfl⟩, ⟨fun g => rfl,
      fun g _ => ⟨rfl, fun n => rfl⟩, fun r hr => ?_, rfl⟩⟩
  · constructor <;> intro h <;> cases h
  · cases h
  · cases hr

variable [DecidableEq T] {x y : Master T} {t : T}

theorem Inv.tgrp_ne_wild (h : x.Inv) (k : ℕ) : (x.task k).tgrp ≠ .wild := by
  cases hlock : (x.task k).lock with
  | none => exact (h.settled k hlock).1
  | some t =>
    have hlocks := (h.locks t k).mp hlock
    have hfits := h.fits t
    cases hp : x.phase t with
    | leaving i _ _ =>
      rw [hp] at hlocks hfits
      cases hlocks
      exact hfits.1
    | dropping i _ _ _ =>
      rw [hp] at hlocks hfits
      cases hlocks
      rw [hfits.tgrp]
      simp
    | clearing i _ _ =>
      rw [hp] at hlocks hfits
      cases hlocks
      obtain ⟨g, hg⟩ := hfits
      rw [hg.tgrp]
      simp
    | joining i _ _ _ =>
      rw [hp] at hlocks hfits
      cases hlocks
      rw [hfits.tgrp]
      simp
    | installing i _ _ =>
      rw [hp] at hlocks hfits
      cases hlocks
      rw [hfits.tgrp]
      simp
    | assigning i _ _ =>
      rw [hp] at hlocks hfits
      cases hlocks
      rw [hfits.tgrp]
      simp
    | _ =>
      rw [hp] at hlocks
      cases hlocks

theorem Inv.sits (h : x.Inv) (k : ℕ) : ∃ l, x.Sits k l := by
  cases hlock : (x.task k).lock with
  | none => exact ⟨_, (h.settled k hlock).2.sits⟩
  | some t =>
    have hlocks := (h.locks t k).mp hlock
    have hfits := h.fits t
    cases hp : x.phase t with
    | leaving i _ _ =>
      rw [hp] at hlocks hfits
      cases hlocks
      exact ⟨_, hfits.2.sits⟩
    | clearing i _ _ =>
      rw [hp] at hlocks hfits
      cases hlocks
      obtain ⟨g, hg⟩ := hfits
      exact ⟨_, hg.sits⟩
    | dropping i _ _ _ | joining i _ _ _ | installing i _ _ | assigning i _ _ =>
      rw [hp] at hlocks hfits
      cases hlocks
      exact ⟨_, hfits.sits⟩
    | _ =>
      rw [hp] at hlocks
      cases hlocks

theorem Inv.leave (h : x.Inv) {next : Option ℕ} {c : Caller} (hold : x.phase t = .leaving k next c)
    {ok : Bool} (hy : x.leave t k ok next c (x.task k).tgrp = some y) : y.Inv := by
  have hx : x.Settled k := h.stands hold
  cases hs : (x.task k).tgrp with
  | wild => exact absurd hs hx.1
  | null =>
    rw [hs] at hy
    cases hy
    exact h.leave_null hold hs
  | group g =>
    have hstands := hx.stands_group hs
    rw [hs, Master.leave, if_neg (h.kept.not_freed hstands.mem), hstands.entry] at hy
    cases hy
    exact h.leave_group hold hs

theorem Inv.act (h : x.Inv) {a : Answers} (horderly : x.Orderly (.act t a))
    (hy : x.act t a (x.phase t) = some y) : y.Inv := by
  cases hold : x.phase t with
  | idle =>
    rw [hold] at hy
    cases hy
  | finding k =>
    rw [hold] at hy
    exact h.find hold hy
  | reading k parent =>
    rw [hold] at hy
    cases hy
    refine h.goes hold rfl rfl (h.tgrp_ne_wild parent) rfl fun i hi => ?_
    exact h.born t i (by rw [hold]; exact hi)
  | asking k s =>
    rw [hold] at hy
    cases hy
    refine h.ask hold fun g hg => ?_
    simp only [Orderly, hold, hg] at horderly
    exact horderly
  | entering k next c =>
    rw [hold] at hy
    rw [Master.act, Master.enter] at hy
    split at hy
    · rename_i hnone
      cases hy
      exact h.enter hold hnone
    · cases hy
  | leaving k next c =>
    rw [hold] at hy
    exact h.leave hold hy
  | dropping k g next c =>
    rw [hold] at hy
    cases hy
    have hx : x.Stands k (.group g) none (some g) := h.stands hold
    rw [drop, if_neg (h.kept.not_freed hx.mem)]
    exact h.drop_group hold
  | clearing k next c =>
    rw [hold] at hy
    cases hy
    exact h.clear hold
  | joining k next left c =>
    rw [hold] at hy
    cases hy
    refine h.join hold fun g hg hleft => ?_
    simp only [Orderly, hold, hg, hleft] at horderly
    exact horderly
  | installing k g c =>
    rw [hold] at hy
    cases hy
    exact h.install hold
  | assigning k g c =>
    rw [hold] at hy
    cases hy
    exact h.assign hold
  | refusing k next c =>
    rw [hold] at hy
    cases hy
    refine h.dropNext hold rfl Caller.goesOn_locks ?_ (fun _ => Caller.goesOn_fits) fun i hi => ?_
    · rw [Caller.goesOn_owes]
      rfl
    · obtain rfl := Caller.goesOn_task hi
      exact h.born t i (by rw [hold]; rfl)
  | constructed k own =>
    rw [hold] at hy
    cases hy
    exact h.construct hold a.ok
  | introducing k own =>
    rw [hold] at hy
    cases hy
    refine h.introduce hold fun hown => ?_
    cases own with
    | none => exact absurd rfl hown
    | some g =>
      simp only [Orderly, hold] at horderly
      exact horderly
  | closing own again =>
    rw [hold] at hy
    cases hy
    exact h.close hold
  | burying k =>
    rw [hold] at hy
    cases hy
    refine h.unreserve (p := .idle) hold rfl rfl (fun _ => trivial) (fun g => Nat.le_refl _)
      fun i hi => ?_
    cases hi

theorem Inv.next (h : x.Inv) {e : Event T} (horderly : x.Orderly e)
    (hy : x.next e = some y) : y.Inv := by
  cases e with
  | call t r =>
    rw [Master.next, h.kept.faulted] at hy
    cases hold : x.phase t with
    | idle =>
      rw [hold] at hy
      exact h.start hold horderly hy
    | _ =>
      rw [hold] at hy
      cases hy
  | act t a =>
    rw [Master.next, h.kept.faulted] at hy
    exact h.act horderly hy
  | share g =>
    rw [Master.next] at hy
    split at hy
    · cases hy
    · rename_i hsome
      cases hy
      obtain ⟨o, ho⟩ := List.exists_mem_of_ne_nil _ hsome
      refine h.client (fun i hi => ?_) (h.kept.built ho) (h.kept.balanced g).reference
      rw [Holding.count_reference, if_neg hi.symm]
      rfl
  | release g =>
    rw [Master.next] at hy
    split at hy
    · rename_i hmem
      cases hy
      rw [drop, if_neg (h.kept.not_freed hmem)]
      refine h.client (fun i hi => ?_) (h.kept.built hmem) ((h.kept.balanced g).dereference hmem)
      rw [Holding.count_dereference, if_neg hi.symm]
      rfl
    · cases hy

theorem asGroup_eq_some {s : Ptr} : s.asGroup = some g ↔ s = .group g := by
  cases s <;> simp [Ptr.asGroup]

theorem Inv.grouped (h : x.Inv) : x.Grouped := by
  refine ⟨fun k g hk => ?_, fun k g g' n n' hn hn' => ?_, fun k g hk => ?_, h.kept.balanced,
    h.kept.reports, h.kept.faulted⟩
  · have hx := (h.settled k hk).2
    have hseat : ((x.task k).tgrp.asGroup.map (·, true)) = some (g, true) ↔
        (x.task k).tgrp = .group g := by
      rw [← asGroup_eq_some]
      simp
    constructor
    · rintro ⟨n, hn⟩
      exact hseat.mp ((hx.sits g n true).mp hn).1
    · intro hg
      exact ⟨x.nameOf k, (hx.sits g _ true).mpr ⟨hseat.mpr hg, rfl⟩⟩
  · obtain ⟨l, hl⟩ := h.sits k
    obtain ⟨hg, hname⟩ := (hl g n true).mp hn
    obtain ⟨hg', hname'⟩ := (hl g' n' true).mp hn'
    exact ⟨(Prod.mk.inj (Option.some.inj (hg.symm.trans hg'))).1, hname.trans hname'.symm⟩
  · rw [(h.settled k hk).2.owns g]
    simp only [asGroup_eq_some]

instance decidableOrderly (x : Master T) : ∀ e : Event T, Decidable (x.Orderly e)
  | .call _ (.registerInitial _ stale) => inferInstanceAs (Decidable (stale = .null))
  | .call _ (.fork _ _) | .call _ (.setTgrp _ _) | .call _ (.taskDeath _) | .share _
  | .release _ => .isTrue trivial
  | .act t a =>
    match h : x.phase t with
    | .asking _ (.group g) => decidable_of_iff (¬x.Freed g) (by simp only [Orderly, h])
    | .joining k (some g) true _ =>
      decidable_of_iff ((x.group g).entry (x.nameOf k) = none) (by simp only [Orderly, h])
    | .introducing _ (some _) =>
      decidable_of_iff (a.introduced = .done) (by simp only [Orderly, h])
    | .asking _ .null | .asking _ .wild | .joining _ none _ _ | .joining _ (some _) false _
    | .introducing _ none | .idle | .finding _ | .reading _ _ | .entering _ _ _ | .leaving _ _ _
    | .dropping _ _ _ _ | .clearing _ _ _ | .installing _ _ _ | .assigning _ _ _
    | .refusing _ _ _ | .constructed _ _ | .closing _ _ | .burying _ =>
      .isTrue (by simp only [Orderly, h])

end Master

theorem membership_sound {T : Type} [DecidableEq T] (x : Master T)
    (hrun : ReflTransGen (Under Master.next Orderly) boot x) :
    x.Grouped :=
  (invariant (fun _ _ _ hx he hy => Inv.next hx he hy) hrun (boot_inv T)).grouped

namespace Sample

def acts {T : Type} (t : T) (found : Found) (n : ℕ) : List (Event T) :=
  List.replicate n (.act t ⟨true, found, .done⟩)

def registers {T : Type} (t : T) (id : ℕ) : List (Event T) :=
  .call t (.registerInitial id .null) :: acts t .made 9

def forks {T : Type} (t : T) (parent id : ℕ) : List (Event T) :=
  .call t (.fork parent id) :: acts t .failed 10

def moves {T : Type} (t : T) (k g : ℕ) : List (Event T) :=
  .call t (.setTgrp k (.group g)) :: acts t .failed 7

def joins {T : Type} (t : T) (k g : ℕ) : List (Event T) :=
  .call t (.setTgrp k (.group g)) :: acts t .failed 5

def dies {T : Type} (t : T) (k : ℕ) : List (Event T) := .call t (.taskDeath k) :: acts t .failed 6

def family : List (Event (Fin 2)) :=
  registers 0 5 ++ registers 1 6 ++ forks 1 0 7 ++ moves 0 2 1 ++ dies 1 0

def comeback : List (Event (Fin 2)) :=
  registers 0 5 ++ dies 0 0 ++ joins 0 0 0 ++
    (.call 0 (.registerInitial 5 .null) :: acts 0 (.existing 0) 8) ++ registers 0 6 ++ joins 0 1 1 ++
    (.call 0 (.setTgrp 1 (.group 0)) :: acts 0 .failed 6)

end Sample

theorem membership_sound_family : ∃ x : Master (Fin 2),
    (x.task 0).tgrp = .null ∧ (x.task 2).tgrp = .group 1 ∧
      (x.group 1).entry 7 = some ⟨2, true⟩ ∧ x.Grouped := by
  have h : check Master.next boot Sample.family (fun x => decide
      ((x.task 0).tgrp = .null ∧ (x.task 2).tgrp = .group 1 ∧
        (x.group 1).entry 7 = some ⟨2, true⟩)) = true := by
    decide +kernel
  have hadmits : Admits Master.next Orderly boot Sample.family := by
    decide +kernel
  obtain ⟨x, hx, ht⟩ := exec_of_check h
  obtain ⟨hparent, hchild, hentry⟩ := of_decide_eq_true ht
  exact ⟨x, hparent, hchild, hentry, membership_sound x (run_of_exec hadmits hx)⟩

theorem failed_join_leaves_group : ∃ x : Master (Fin 2),
    ReflTransGen (Under Master.next Free) boot x ∧ ¬x.Grouped := by
  have h : check Master.next boot Sample.comeback (fun x =>
      x.reports.any fun r => !r.success && r.touched) = true := by
    decide +kernel
  obtain ⟨x, hx, ht⟩ := exec_of_check h
  refine ⟨x, run_of_exec (free_admits _ _) hx, fun hgrouped => ?_⟩
  obtain ⟨r, hr, hfailed⟩ := List.any_eq_true.mp ht
  rw [Bool.and_eq_true, Bool.not_eq_true'] at hfailed
  cases hfailed.2.symm.trans (hgrouped.reports r hr hfailed.1)

end MachUS.Tm.Groups
