import MachUS.Tm.GroupActs

namespace MachUS.Tm.Groups

open Nat Holding List

variable {T : Type} {k g : ℕ} {p q : Phase} {next : Option ℕ} {c : Caller}

namespace Master

theorem Known.born {x : Master T} (hk : x.Known k) : (x.task k).life ≠ .unborn := by
  rcases hk with hk | hk | hk <;> rw [hk] <;> simp

variable [DecidableEq T] {x y : Master T} {t : T}

theorem Inv.goes (h : x.Inv) (hold : x.phase t = q) (hq : q.locks = none) (hp : p.locks = none)
    (hfits : x.Fits p) (howes : p.owes = q.owes) (hborn : ∀ i, p.task = some i → i < x.tasks) :
    (x.goes t p).Inv := by
  refine h.aside rfl (.same rfl rfl rfl) (h.kept.same rfl rfl rfl rfl) (hold ▸ hq) hp ?_
    (h.owes_same hold howes) hborn
  have hbeside : Beside t (fun _ => True) x (x.goes t p) := .same rfl rfl rfl
  exact hbeside.fits (fun _ _ => trivial) hfits

theorem count_task_thread (o : Holding (Owner T)) (t : T) {i : Owner T} (hi : i ≠ .thread t) :
    (o.reference (.thread t)).owners.count i = o.owners.count i := by
  rw [count_reference, if_neg hi.symm]
  rfl

section

variable (h : x.Inv)

include h

theorem Inv.handles (hold : x.phase t = q) (hq : q.locks = none)
    (hp : p.locks = none) {f : Holding (Owner T) → Holding (Owner T)}
    (hf : ∀ o, o ≠ .thread t → (f (x.group g).holding).owners.count o = (x.owners g).count o)
    (hg : g < x.groups) (hbalanced : (f (x.group g).holding).Balanced)
    (hfits : ∀ z : Master T, z.Fits p)
    (howed : ∀ g', p.owes.count g' ≤
      if g' = g then (f (x.group g).holding).owners.count (.thread t)
      else (x.owners g').count (.thread t))
    (hborn : ∀ i, p.task = some i → i < x.tasks) : ((x.held g f).goes t p).Inv := by
  have hkept : (x.held g f).Kept := h.kept.held hg hbalanced
  refine h.aside rfl (.goes (.held fun o _ ho => hf o ho)) (hkept.same rfl rfl rfl rfl)
    (hold ▸ hq) hp (hfits _) (fun g' => ?_) hborn
  change _ ≤ ((x.held g f).owners g').count _
  rw [count_held]
  exact howed g'

theorem Inv.dropNext (hold : x.phase t = q) (hq : q.locks = none)
    (hp : p.locks = none) (howes : q.owes = next.toList ++ p.owes)
    (hfits : ∀ z : Master T, z.Fits p) (hborn : ∀ i, p.task = some i → i < x.tasks) :
    ((x.dropNext t next).goes t p).Inv := by
  cases next with
  | none => exact h.goes hold hq hp (hfits _) howes.symm hborn
  | some g =>
    have hmem : Owner.thread t ∈ x.owners g := by
      refine h.thread_mem hold ?_
      rw [howes]
      exact mem_cons_self ..
    rw [Master.dropNext, drop, if_neg (h.kept.not_freed hmem)]
    refine h.handles hold hq hp (fun o ho => ?_) (h.kept.built hmem)
      ((h.kept.balanced g).dereference hmem) hfits (fun g' => ?_) hborn
    · rw [count_dereference, if_neg ho.symm]
      rfl
    · have hold' := h.owes hold g'
      rw [howes, Option.toList_some, singleton_append, count_cons] at hold'
      split
      · rename_i hg
        subst hg
        rw [if_pos (by simp)] at hold'
        rw [count_dereference, if_pos rfl]
        change _ ≤ (x.owners g').count _ - 1
        omega
      · exact Nat.le_trans (Nat.le_add_right _ _) hold'

theorem Inv.find (hold : x.phase t = .finding k) {found : Found}
    (hy : x.find t k found = some y) : y.Inv := by
  have hk : k < x.tasks := h.born t k (by rw [hold]; rfl)
  have hborn (next : Option ℕ) (c : Caller) (i : ℕ)
      (hi : (Phase.entering k next c).task = some i) : i < x.tasks := by
    cases hi
    exact hk
  cases found with
  | failed =>
    cases hy
    exact h.goes hold rfl rfl trivial rfl (hborn _ _)
  | made =>
    cases hy
    have hkept : (x.newGroup t).Kept := h.kept.newGroup
    have hmine : ((x.newGroup t).held x.groups (·.reference (.thread t))).Kept :=
      hkept.held (lt_succ_self _) (hkept.balanced _).reference
    refine h.aside rfl (.goes (.trans (.newGroup h.kept) (.held fun o _ ho => ?_)))
      (hmine.same rfl rfl rfl rfl) (hold ▸ rfl) rfl trivial (fun g' => ?_) (hborn _ _)
    · exact count_task_thread _ t ho
    · change [x.groups, x.groups].count g' ≤
        (((x.newGroup t).held x.groups (·.reference (.thread t))).owners g').count _
      rw [count_held]
      split
      · rw [group_newGroup_self, count_reference, if_pos rfl]
        refine Nat.le_trans count_le_length ?_
        simp
      · rename_i hne
        rw [count_eq_zero_of_not_mem (by simpa using hne)]
        exact zero_le _
  | existing g =>
    rw [Master.find] at hy
    split at hy
    · rename_i hmem
      cases hy
      refine h.handles hold rfl rfl (f := fun o => (o.reference (.thread t)).reference (.thread t))
        (fun o ho => ?_) (h.kept.built hmem)
        (Balanced.reference (h.kept.balanced g).reference) (fun _ => trivial) (fun g' => ?_)
        (hborn _ _)
      · rw [count_task_thread _ t ho, count_task_thread _ t ho]
        rfl
      · change [g, g].count g' ≤ _
        rw [count_reference, count_reference, if_pos rfl]
        split
        · exact Nat.le_trans count_le_length (Nat.le_add_left 2 _)
        · rename_i hne
          rw [count_eq_zero_of_not_mem (by simpa using hne)]
          exact zero_le _
    · cases hy

theorem Inv.ask {s : Ptr} (hold : x.phase t = .asking k s)
    (hfreed : ∀ g, s = .group g → ¬x.Freed g) : (x.ask t k s).Inv := by
  have hk : k < x.tasks := h.born t k (by rw [hold]; rfl)
  have hborn (next : Option ℕ) (c : Caller) (i : ℕ)
      (hi : (Phase.entering k next c).task = some i) : i < x.tasks := by
    cases hi
    exact hk
  cases s with
  | null => exact h.goes hold rfl rfl trivial rfl (hborn _ _)
  | wild => exact absurd rfl (h.stands hold)
  | group g =>
    rw [Master.ask, if_neg (hfreed g rfl)]
    have hg : g < x.groups := by
      by_contra hg
      have hnone := (h.kept.unbuilt g (Nat.le_of_not_lt hg)).1
      have hbalanced := h.kept.balanced g
      rw [Holding.Balanced, show (x.group g).holding.owners = [] from hnone] at hbalanced
      exact hfreed g rfl hbalanced
    refine h.handles hold rfl rfl (f := (·.reference (.thread t)))
      (fun o ho => count_task_thread _ t ho) hg (h.kept.balanced g).reference (fun _ => trivial)
      (fun g' => ?_) (hborn _ _)
    change [g].count g' ≤ _
    split
    · rw [count_reference, if_pos rfl]
      exact Nat.le_trans count_le_length (Nat.le_add_left 1 _)
    · rename_i hne
      rw [count_eq_zero_of_not_mem (by simpa using hne)]
      exact zero_le _

theorem Inv.lives (hk : k < x.tasks) {l : Life} (hold : x.phase t = q)
    (hq : q.locks = none) (hp : p.locks = none) (hfits : ∀ z : Master T, z.Fits p)
    (howes : p.owes = q.owes) (hborn : ∀ i, p.task = some i → i < x.tasks) :
    ((x.amend k fun o => { o with life := l }).goes t p).Inv :=
  h.aside rfl (.goes (.amend hk _ fun _ => ⟨rfl, rfl, rfl⟩)) (h.kept.same rfl rfl rfl rfl)
    (hold ▸ hq) hp (hfits _) (h.owes_same hold howes) hborn

theorem Inv.unreserve {id : ℕ} (hold : x.phase t = q) (hq : q.locks = none)
    (hp : p.locks = none) (hfits : ∀ z : Master T, z.Fits p)
    (howes : ∀ g, p.owes.count g ≤ q.owes.count g) (hborn : ∀ i, p.task = some i → i < x.tasks) :
    ((x.unreserve id).goes t p).Inv :=
  h.aside rfl (.same rfl rfl rfl) (h.kept.same rfl rfl rfl rfl) (hold ▸ hq) hp (hfits _)
    (fun g => Nat.le_trans (howes g) (h.owes hold g)) hborn

theorem Inv.construct {own : Option ℕ} (hold : x.phase t = .constructed k own)
    (ok : Bool) : (x.construct t k own ok).Inv := by
  have hk : k < x.tasks := h.born t k (by rw [hold]; rfl)
  cases ok with
  | true =>
    refine h.goes hold rfl rfl trivial rfl fun i hi => ?_
    cases hi
    exact hk
  | false =>
    refine h.unreserve (p := .idle) hold rfl rfl (fun _ => trivial) (fun g => zero_le _)
      fun i hi => ?_
    cases hi

theorem Inv.introduce {own : Option ℕ} (hold : x.phase t = .introducing k own)
    {i : Introduced} (hi : own ≠ none → i = .done) : (x.introduce t k own i).Inv := by
  have hk : k < x.tasks := h.born t k (by rw [hold]; rfl)
  cases own with
  | some g =>
    obtain rfl := hi (by simp)
    exact h.lives hk hold rfl rfl (fun _ => trivial) rfl fun i hi => by cases hi
  | none =>
    cases i with
    | done | listed =>
      exact h.lives hk hold rfl rfl (fun _ => trivial) rfl fun i hi => by cases hi
    | failed =>
      refine h.unreserve (p := .closing none true) hold rfl rfl (fun _ => trivial)
        (fun g => Nat.le_refl _) fun i hi => ?_
      cases hi

theorem Inv.close {own : Option ℕ} {again : Bool} (hold : x.phase t = .closing own again) :
    ((x.dropNext t own).goes t (if again then .closing own false else .idle)).Inv := by
  cases again with
  | true =>
    refine h.dropNext (p := .closing own false) hold rfl rfl rfl (fun _ => trivial) fun i hi => ?_
    cases hi
  | false =>
    refine h.dropNext (p := .idle) hold rfl rfl (append_nil _).symm (fun _ => trivial)
      fun i hi => ?_
    cases hi

theorem Inv.newTask {id : ℕ} (hold : x.phase t = .idle) (hp : p.locks = none)
    (hfits : ∀ z : Master T, z.Fits p) (howes : p.owes = [])
    (htask : ∀ i, p.task = some i → i = x.tasks) : ((x.newTask id .null).goes t p).Inv := by
  have hnone : (x.task x.tasks).lock = none := by
    rw [Option.eq_none_iff_forall_not_mem]
    intro u hu
    exact absurd (h.born u x.tasks (Phase.task_of_locks ((h.locks u _).mp hu))) (Nat.lt_irrefl _)
  have hx := (h.settled x.tasks hnone).stands_null (h.unborn x.tasks (Nat.le_refl _)).2
  have htasks (i : ℕ) (hi : i ≠ x.tasks) : (x.newTask id .null).task i = x.task i :=
    Function.update_of_ne hi _ _
  have hself : (x.newTask id .null).task x.tasks = ⟨id, .made, .null, none⟩ :=
    Function.update_self _ _ _
  have hidle : (x.phase t).locks = none := by
    rw [hold]
    rfl
  have hbeside : Beside t (· ≠ x.tasks) x (x.newTask id .null) := by
    refine .of_group rfl (Nat.le_succ _) (fun i hi => ?_) fun i hi => htasks i (Nat.ne_of_gt hi)
    rw [nameOf, htasks i hi]
    exact ⟨rfl, rfl, rfl⟩
  refine h.move (k := x.tasks) rfl hbeside.goes (h.kept.same rfl rfl rfl rfl) (fun i hi => ?_)
    (fun i hi => ?_) (.inl hnone) ?_ (hfits _) (fun _ => ?_) (fun g => ?_) fun i hi => ?_
  · rw [hidle] at hi
    cases hi
  · rw [hp] at hi
    cases hi
  · rw [hp, task_goes, hself]
    rfl
  · refine Stands.settled_null (hx.renew ?_ rfl)
    rw [task_goes, hself]
  · rw [howes]
    exact zero_le _
  · obtain rfl := htask i hi
    exact lt_succ_self _

theorem Inv.known (hk : (x.task k).life ≠ .unborn) : k < x.tasks := by
  by_contra hle
  exact hk (h.unborn k (Nat.le_of_not_lt hle)).1

theorem Inv.report {r : Report} (hr : r.success = false → r.touched = false) :
    (x.report r).Inv := by
  have hbeside (t : T) : Beside t (fun _ => True) x (x.report r) := .same rfl rfl rfl
  exact ⟨h.locks, fun t => (hbeside t).fits (fun _ _ => trivial) (h.fits t),
    fun k hk => (h.settled k hk).congr rfl rfl rfl, h.owed, h.born, h.unborn, h.kept.report hr⟩

theorem Inv.setTgrp (hold : x.phase t = .idle) (hk : k < x.tasks) {a : TgrpAgent}
    (hy : x.setTgrp t k a = some y) : y.Inv := by
  have hborn (next : Option ℕ) (i : ℕ) (hi : (Phase.entering k next .client).task = some i) :
      i < x.tasks := by
    cases hi
    exact hk
  cases a with
  | null =>
    cases hy
    exact h.goes hold rfl rfl trivial rfl (hborn none)
  | other =>
    cases hy
    exact h.report fun _ => rfl
  | group g =>
    rw [Master.setTgrp] at hy
    split at hy
    · rename_i hmem
      cases hy
      refine h.handles hold rfl rfl (f := (·.reference (.thread t)))
        (fun o ho => count_task_thread _ t ho) (h.kept.built hmem) (h.kept.balanced g).reference
        (fun _ => trivial) (fun g' => ?_) (hborn _)
      change [g].count g' ≤ _
      split
      · rw [count_reference, if_pos rfl]
        exact Nat.le_trans count_le_length (Nat.le_add_left 1 _)
      · rename_i hne
        rw [count_eq_zero_of_not_mem (by simpa using hne)]
        exact zero_le _
    · cases hy

theorem Inv.taskDeath (hold : x.phase t = .idle) (hk : k < x.tasks)
    (hy : x.taskDeath t k = some y) : y.Inv := by
  rw [Master.taskDeath] at hy
  split at hy
  · split at hy
    · cases hy
      exact h
    · cases hy
      refine h.lives hk hold rfl rfl (fun _ => trivial) rfl fun i hi => ?_
      cases hi
      exact hk
  · cases hy

theorem Inv.start (hold : x.phase t = .idle) {r : Request}
    (horderly : x.Orderly (.call t r)) (hy : x.start t r = some y) : y.Inv := by
  cases r with
  | registerInitial id stale =>
    obtain rfl : stale = .null := horderly
    cases hy
    rw [registerInitial]
    split
    · exact h
    · exact h.newTask hold rfl (fun _ => trivial) rfl fun i hi => (Option.some.inj hi).symm
  | fork parent id =>
    rw [Master.start] at hy
    split at hy
    · cases hy
      rw [Master.fork]
      split
      · exact h
      · exact h.newTask hold rfl (fun _ => trivial) rfl fun i hi => (Option.some.inj hi).symm
    · cases hy
  | setTgrp k a =>
    rw [Master.start] at hy
    split at hy
    · rename_i hknown
      exact h.setTgrp hold (h.known hknown.born) hy
    · cases hy
  | taskDeath k =>
    rw [Master.start] at hy
    split at hy
    · rename_i hlife
      refine h.taskDeath hold (h.known ?_) hy
      rcases hlife with hlife | hlife <;> rw [hlife] <;> simp
    · cases hy

theorem Inv.client {f : Holding (Owner T) → Holding (Owner T)}
    (hf : ∀ o, o ≠ .outside → (f (x.group g).holding).owners.count o = (x.owners g).count o)
    (hg : g < x.groups) (hbalanced : (f (x.group g).holding).Balanced) : (x.held g f).Inv := by
  have hcount (o : Owner T) (ho : o ≠ .outside) (g' : ℕ) :
      ((x.held g f).owners g').count o = (x.owners g').count o := by
    rw [count_held]
    split
    · rename_i hg'
      subst hg'
      exact hf o ho
    · rfl
  have hbeside (t : T) : Beside t (fun _ => True) x (x.held g f) :=
    ⟨fun _ _ => ⟨rfl, rfl, rfl⟩, fun i _ g' n b => by rw [entry_held],
      fun i _ g' => hcount _ (by simp) g', fun u _ g' => hcount _ (by simp) g', Nat.le_refl _,
      fun _ _ => rfl⟩
  refine ⟨h.locks, fun t => (hbeside t).fits (fun _ _ => trivial) (h.fits t), fun k hk => ?_,
    fun t g' => ?_, h.born, h.unborn, h.kept.held hg hbalanced⟩
  · have hx := h.settled k hk
    refine ⟨hx.1, hx.2.tgrp, fun g' n b => ?_, fun g' => ?_⟩
    · rw [entry_held]
      exact hx.2.sits g' n b
    · rw [hcount _ (by simp)]
      exact hx.2.owns g'
  · rw [hcount _ (by simp)]
    exact h.owed t g'

end

end Master

end MachUS.Tm.Groups
