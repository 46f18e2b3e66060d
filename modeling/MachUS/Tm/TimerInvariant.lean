import MachUS.Tm.TimerThreads
import Mathlib.Data.List.Perm.Subperm

namespace MachUS.Tm

open List TimerQueue

namespace TimeValue

theorem later_asymm {t u : TimeValue} (h : t.later u = true) : ¬u.later t = true := by
  simp only [later, cmp, Bool.or_eq_true, Bool.and_eq_true, decide_eq_true_eq] at h ⊢
  omega

theorem not_later_of_later {t u v : TimeValue} (htu : t.later u = true)
    (htv : ¬t.later v = true) : ¬u.later v = true := by
  simp only [later, cmp, Bool.or_eq_true, Bool.and_eq_true, decide_eq_true_eq] at htu htv ⊢
  omega

end TimeValue

namespace TimerQueue

variable {Task : Type}

structure Sorted (q : TimerQueue Task) (l : List ℕ) : Prop where
  ring : q.ring.Holds none (l.map some)
  times : l.Pairwise fun a b => ¬(q.timer a).value.time.later (q.timer b).value.time = true

def Usable (q : TimerQueue Task) (r : ℕ) : Prop := r < q.made ∧ q.freed r = false

structure Well (q : TimerQueue Task) (l : List ℕ) : Prop extends q.Sorted l where
  usable : ∀ r ∈ l, q.Usable r

variable {q : TimerQueue Task} {l l₁ l₂ : List ℕ} {r : ℕ}

theorem access_eq {nodes : List (Option ℕ)} (h : ∀ n ∈ nodes, q.isFreed n = false) :
    q.access nodes = q := by
  have hany : nodes.any q.isFreed = false := by simpa using h
  simp [access, hany]

namespace Well

theorem nodup (h : q.Well l) : l.Nodup := h.ring.nodup.of_map _

theorem length_le (h : q.Well l) : l.length ≤ q.made := by
  have hsub : l ⊆ range q.made := fun r hr => mem_range.mpr (h.usable r hr).1
  simpa using (subperm_of_subset h.nodup hsub).length_le

theorem isFreed (h : q.Well l) {n : Option ℕ} (hn : ∀ r, n = some r → r ∈ l) :
    q.isFreed n = false := by
  cases n with
  | none => rfl
  | some r => exact (h.usable r (hn r rfl)).2

theorem access (h : q.Well l) {nodes : List (Option ℕ)} (hn : ∀ r, some r ∈ nodes → r ∈ l) :
    q.access nodes = q :=
  access_eq fun _ hmem => h.isFreed fun r hr => hn r (hr ▸ hmem)

theorem first (h : q.Well l) : q.first = l.head? := by
  have := h.ring.first
  cases l <;> simpa [first] using this

theorem next_eq (h : q.Well (l₁ ++ r :: l₂)) : q.ring.next (some r) = l₂.head? := by
  have hring := h.ring
  rw [map_append, map_cons] at hring
  have := hring.next_eq
  cases l₂ <;> simpa using this

theorem prev_eq (h : q.Well (l₁ ++ r :: l₂)) : q.ring.prev (some r) = l₁.getLast? := by
  have hring := h.ring
  rw [map_append, map_cons] at hring
  have := hring.prev_eq
  cases hlast : l₁.getLast? <;> simpa [hlast] using this

end Well

def queuedFrom (q : TimerQueue Task) : ℕ → Option ℕ → List ℕ
  | 0, _ => []
  | _, none => []
  | fuel + 1, some r => r :: queuedFrom q fuel (q.ring.next (some r))

def queued (q : TimerQueue Task) : List ℕ := q.queuedFrom q.made q.first

theorem Well.queuedFrom (h : q.Well l) (hl : l = l₁ ++ l₂) {fuel : ℕ} (hfuel : l₂.length ≤ fuel) :
    q.queuedFrom fuel l₂.head? = l₂ := by
  induction l₂ generalizing l₁ fuel with
  | nil => cases fuel <;> rfl
  | cons r l₂ ih =>
    cases fuel with
    | zero => simp at hfuel
    | succ fuel =>
      have htail := ih (append_cons l₁ r l₂ ▸ hl) (Nat.le_of_succ_le_succ hfuel)
      subst hl
      simp only [head?_cons, queuedFrom, h.next_eq, htail]

theorem Well.queued (h : q.Well l) : q.queued = l := by
  rw [TimerQueue.queued, h.first]
  exact h.queuedFrom (nil_append l).symm h.length_le

theorem Well.findFrom [DecidableEq Task] (h : q.Well l) (hl : l = l₁ ++ l₂) (t : Task) (id : ℤ) {fuel : ℕ}
    (hfuel : l₂.length ≤ fuel) : findFrom t id fuel l₂.head? q =
      some (q, l₂.find? fun r => (q.timer r).task = t ∧ (q.timer r).id = id) := by
  induction l₂ generalizing l₁ fuel with
  | nil => cases fuel <;> rfl
  | cons r l₂ ih =>
    cases fuel with
    | zero => simp at hfuel
    | succ fuel =>
      have htail := ih (append_cons l₁ r l₂ ▸ hl) (Nat.le_of_succ_le_succ hfuel)
      subst hl
      have hacc : q.access [some r] = q := h.access (by simp)
      simp only [head?_cons, findFrom, hacc, h.next_eq, htail, find?_cons]
      by_cases hr : (q.timer r).task = t ∧ (q.timer r).id = id
      · simp [hr]
      · rw [if_neg hr, decide_eq_false hr]

theorem Well.find [DecidableEq Task] (h : q.Well l) (t : Task) (id : ℤ) : q.find t id =
    some (q, l.find? fun r => (q.timer r).task = t ∧ (q.timer r).id = id) := by
  rw [TimerQueue.find, h.first]
  exact h.findFrom (nil_append l).symm t id h.length_le

theorem Well.sweepFrom (h : q.Well l) (hl : l = l₁ ++ l₂) {p : Timer Task → Bool} {fuel : ℕ}
    (hp : ∀ r ∈ l₂, p (q.timer r) = false) (hfuel : l₂.length ≤ fuel) :
    sweepFrom p fuel l₂.head? q = some q := by
  induction l₂ generalizing l₁ fuel with
  | nil => cases fuel <;> rfl
  | cons r l₂ ih =>
    cases fuel with
    | zero => simp at hfuel
    | succ fuel =>
      have htail := ih (append_cons l₁ r l₂ ▸ hl)
        (fun r hr => hp r (mem_cons_of_mem _ hr)) (Nat.le_of_succ_le_succ hfuel)
      subst hl
      have hacc : q.access [some r] = q := h.access (by simp)
      have hpr : p (q.timer r) = false := hp r (by simp)
      simp only [head?_cons, sweepFrom, hacc, hpr, Bool.false_eq_true, if_false, h.next_eq, htail]

theorem Well.sweep (h : q.Well l) {p : Timer Task → Bool} (hp : ∀ r ∈ l, p (q.timer r) = false) :
    q.sweep p = some q := by
  rw [TimerQueue.sweep, h.first]
  exact h.sweepFrom (nil_append l).symm hp h.length_le

theorem Well.dllRemove (h : q.Well (l₁ ++ r :: l₂)) :
    q.dllRemove r = { q with ring := q.ring.remove (some r) } := by
  have hacc : q.access [some r, q.ring.next (some r), q.ring.prev (some r)] = q := by
    apply h.access
    intro x hx
    rw [h.next_eq, h.prev_eq] at hx
    simp only [mem_cons, Option.some.injEq, not_mem_nil, or_false] at hx
    rcases hx with rfl | hx | hx
    · simp
    · simp [mem_of_mem_head? hx.symm]
    · simp [mem_of_mem_getLast? hx.symm]
  rw [TimerQueue.dllRemove, hacc]

theorem Well.removed (h : q.Well (l₁ ++ r :: l₂)) : (q.dllRemove r).Well (l₁ ++ l₂) := by
  rw [h.dllRemove]
  have hring := h.ring
  rw [map_append, map_cons] at hring
  have hsub : (l₁ ++ l₂).Sublist (l₁ ++ r :: l₂) := (sublist_cons_self r l₂).append_left l₁
  refine ⟨⟨?_, h.times.sublist hsub⟩, fun x hx => h.usable x (hsub.subset hx)⟩
  rw [map_append]
  exact hring.remove

theorem map_some_gap (l₁ l₂ : List ℕ) :
    LinkRing.Gap none (l₁.map some) (l₂.map some) l₁.getLast? l₂.head? := by
  constructor
  · obtain rfl | ⟨l, a, rfl⟩ := eq_nil_or_concat l₁
    · exact ⟨[], rfl⟩
    · exact ⟨none :: l.map some, by simp⟩
  · cases l₂ with
    | nil => exact ⟨[], rfl⟩
    | cons a l => exact ⟨l.map some ++ [none], rfl⟩

section Insertion

variable (h : q.Well (l₁ ++ l₂)) (hr : r ∉ l₁ ++ l₂) (hu : q.Usable r)

include h hr hu

theorem Well.entered {ring : LinkRing (Option ℕ)}
    (hring : ring.Holds none (l₁.map some ++ some r :: l₂.map some))
    (hleft : ∀ a ∈ l₁, ¬(q.timer a).value.time.later (q.timer r).value.time = true)
    (hright : ∀ b ∈ l₂, ¬(q.timer r).value.time.later (q.timer b).value.time = true) :
    TimerQueue.Well { q with ring := ring } (l₁ ++ r :: l₂) := by
  have htimes := pairwise_append.mp h.times
  refine ⟨⟨by simpa using hring, ?_⟩, ?_⟩
  · refine pairwise_append.mpr ⟨htimes.1, pairwise_cons.mpr ⟨hright, htimes.2.1⟩, ?_⟩
    intro a ha b hb
    rcases mem_cons.mp hb with rfl | hb
    · exact hleft a ha
    · exact htimes.2.2 a ha b hb
  · intro x hx
    rcases mem_append.mp hx with hx | hx
    · exact h.usable x (mem_append_left _ hx)
    · rcases mem_cons.mp hx with rfl | hx
      · exact hu
      · exact h.usable x (mem_append_right _ hx)

theorem Well.dllEnter : q.dllEnter l₂.head? r = { q with ring := q.ring.enter l₂.head? (some r) } ∧
    (q.ring.enter l₂.head? (some r)).Holds none (l₁.map some ++ some r :: l₂.map some) := by
  have hring := h.ring
  rw [map_append] at hring
  have hgap := map_some_gap l₁ l₂
  have hlink := hring.link hgap
  have hacc : q.access [l₂.head?, some r,
      if q.ring.next l₂.head? = l₂.head? then l₂.head? else q.ring.prev l₂.head?] = q := by
    apply access_eq
    intro n hn
    have hhead : q.isFreed l₂.head? = false :=
      h.isFreed fun x hx => mem_append_right _ (mem_of_mem_head? hx)
    have hlast : q.isFreed l₁.getLast? = false :=
      h.isFreed fun x hx => mem_append_left _ (mem_of_mem_getLast? hx)
    simp only [mem_cons, not_mem_nil, or_false] at hn
    rcases hn with rfl | rfl | rfl
    · exact hhead
    · exact hu.2
    · split
      · exact hhead
      · exact hlink.2 ▸ hlast
  refine ⟨by rw [TimerQueue.dllEnter, hacc], hring.enter hgap ?_⟩
  simpa using hr

end Insertion

theorem Well.dllEnterFirst (h : q.Well l) (hr : r ∉ l) (hu : q.Usable r) :
    q.dllEnterFirst r = { q with ring := q.ring.enterFirst none (some r) } ∧
      (q.ring.enterFirst none (some r)).Holds none (some r :: l.map some) := by
  have hacc : q.access [some r, q.first] = q := by
    apply access_eq
    intro n hn
    simp only [mem_cons, not_mem_nil, or_false] at hn
    rcases hn with rfl | rfl
    · exact hu.2
    · exact h.isFreed fun x hx => mem_of_mem_head? (h.first ▸ hx)
  refine ⟨by rw [TimerQueue.dllEnterFirst, hacc], h.ring.enterFirst ?_⟩
  simpa using hr

theorem Well.insertFrom (h : q.Well l) (hl : l = l₁ ++ l₂) (hr : r ∉ l) (hu : q.Usable r)
    (hleft : ∀ a ∈ l₁, ¬(q.timer a).value.time.later (q.timer r).value.time = true) {fuel : ℕ}
    (hfuel : l₂.length ≤ fuel) : ∃ m₁ m₂ ring, l = m₁ ++ m₂ ∧
      insertFrom r fuel l₂.head? q = some { q with ring := ring } ∧
      TimerQueue.Well { q with ring := ring } (m₁ ++ r :: m₂) := by
  induction l₂ generalizing l₁ fuel with
  | nil =>
    subst hl
    obtain ⟨heq, hring⟩ := h.dllEnter hr hu
    refine ⟨l₁, [], _, rfl, ?_, h.entered hr hu hring hleft (by simp)⟩
    cases fuel <;> exact congrArg some heq
  | cons c l₂ ih =>
    cases fuel with
    | zero => simp at hfuel
    | succ fuel =>
      have hacc : q.access [some c, some r] = q := by
        apply access_eq
        subst hl
        simpa [isFreed] using ⟨(h.usable c (by simp)).2, hu.2⟩
      simp only [head?_cons, insertFrom, hacc]
      by_cases hlater : (q.timer c).value.time.later (q.timer r).value.time = true
      · subst hl
        have hright : ∀ b ∈ c :: l₂, ¬(q.timer r).value.time.later (q.timer b).value.time = true := by
          intro b hb
          rcases mem_cons.mp hb with rfl | hb
          · exact TimeValue.later_asymm hlater
          · have htimes := (pairwise_append.mp h.times).2.1
            exact TimeValue.not_later_of_later hlater ((pairwise_cons.mp htimes).1 b hb)
        rw [if_pos hlater, h.prev_eq]
        by_cases hnil : l₁.getLast? = none
        · obtain rfl := getLast?_eq_none_iff.mp hnil
          obtain ⟨heq, hring⟩ := h.dllEnterFirst hr hu
          rw [if_pos hnil, heq]
          exact ⟨[], c :: l₂, _, rfl, rfl, h.entered hr hu hring hleft hright⟩
        · obtain ⟨heq, hring⟩ := h.dllEnter hr hu
          rw [if_neg hnil]
          exact ⟨l₁, c :: l₂, _, rfl, congrArg some heq, h.entered hr hu hring hleft hright⟩
      · rw [if_neg hlater]
        have hnext : q.ring.next (some c) = l₂.head? := by
          subst hl
          exact h.next_eq
        rw [hnext]
        refine ih (append_cons l₁ c l₂ ▸ hl) ?_ (Nat.le_of_succ_le_succ hfuel)
        intro a ha
        rcases mem_append.mp ha with ha | ha
        · exact hleft a ha
        · obtain rfl := mem_singleton.mp ha
          exact hlater

theorem Well.insert (h : q.Well l) (hr : r ∉ l) (hu : q.Usable r) : ∃ l₁ l₂ ring, l = l₁ ++ l₂ ∧
    q.insert r = some { q with ring := ring } ∧
    TimerQueue.Well { q with ring := ring } (l₁ ++ r :: l₂) := by
  rw [TimerQueue.insert, h.first]
  exact h.insertFrom (nil_append l).symm hr hu (by simp) h.length_le

end TimerQueue

end MachUS.Tm

namespace MachUS.Tm

open Function Or

variable {Task Holder : Type}

def ClientPhase.held : ClientPhase Task → Option ℕ
  | .setHolds r _ => some r
  | .setFilled r _ => some r
  | .deleteHolds r => some r
  | _ => none

def ServerPhase.held : ServerPhase → Option ℕ
  | .expired r => some r
  | .requeue r => some r
  | _ => none

structure Custody (q : TimerQueue Task) (held : Holder → Option ℕ) (l : List ℕ) : Prop where
  well : q.Well l
  usable : ∀ h r, held h = some r → q.Usable r
  unlinked : ∀ h r, held h = some r → r ∉ l
  alone : ∀ h h' r, held h = some r → held h' = some r → h = h'
  single : ∀ r r', (r ∈ l ∨ ∃ h, held h = some r) → (r' ∈ l ∨ ∃ h, held h = some r') →
    (q.timer r).task = (q.timer r').task → (q.timer r).id = (q.timer r').id → r = r'
  made : ∀ r, q.freed r = true → r < q.made
  good : q.bad = false

namespace Custody

variable {q : TimerQueue Task} {held : Holder → Option ℕ} {l l₁ l₂ : List ℕ} {h : Holder} {r : ℕ}

theorem usable_of_live (c : Custody q held l) (hr : r ∈ l ∨ ∃ h, held h = some r) : q.Usable r := by
  rcases hr with hr | ⟨h, hr⟩
  · exact c.well.usable r hr
  · exact c.usable h r hr

theorem access_of_not_freed (hr : q.freed r = false) : q.access [some r] = q :=
  TimerQueue.access_eq (by simpa [TimerQueue.isFreed] using hr)

theorem access_held (c : Custody q held l) (hh : held h = some r) : q.access [some r] = q :=
  access_of_not_freed (c.usable h r hh).2

variable [DecidableEq Holder]

theorem take (c : Custody q held (l₁ ++ r :: l₂)) (h : Holder) :
    Custody (q.dllRemove r) (update held h (some r)) (l₁ ++ l₂) := by
  have hwell := c.well.removed
  have hmem (x : ℕ) (hx : x ∈ l₁ ++ l₂) : x ∈ l₁ ++ r :: l₂ := by
    grind
  have hnot : r ∉ l₁ ++ l₂ := by
    have := c.well.nodup
    grind
  have hcases (g : Holder) (x : ℕ) (hx : update held h (some r) g = some x) :
      (g = h ∧ x = r) ∨ (g ≠ h ∧ held g = some x) := by
    grind
  have hlive (x : ℕ) (hx : x ∈ l₁ ++ l₂ ∨ ∃ g, update held h (some r) g = some x) :
      x ∈ l₁ ++ r :: l₂ ∨ ∃ g, held g = some x := by
    rcases hx with hx | ⟨g, hx⟩
    · exact inl (hmem x hx)
    · rcases hcases g x hx with ⟨-, rfl⟩ | ⟨-, hx⟩
      · exact inl (by simp)
      · exact inr ⟨g, hx⟩
  rw [c.well.dllRemove] at hwell ⊢
  refine ⟨hwell, ?_, ?_, ?_, ?_, c.made, c.good⟩
  · intro g x hx
    exact c.usable_of_live (hlive x (inr ⟨g, hx⟩))
  · intro g x hx
    rcases hcases g x hx with ⟨-, rfl⟩ | ⟨-, hx⟩
    · exact hnot
    · exact fun hl => c.unlinked g x hx (hmem x hl)
  · intro g g' x hx hx'
    rcases hcases g x hx with ⟨hg, hxr⟩ | ⟨-, hgx⟩ <;>
      rcases hcases g' x hx' with ⟨hg', hxr'⟩ | ⟨-, hgx'⟩
    · exact hg.trans hg'.symm
    · exact absurd (by simp [hxr]) (c.unlinked g' x hgx')
    · exact absurd (by simp [hxr']) (c.unlinked g x hgx)
    · exact c.alone g g' x hgx hgx'
  · intro x x' hx hx'
    exact c.single x x' (hlive x hx) (hlive x' hx')

section

variable (c : Custody q held l) (hh : held h = some r)

include c hh

theorem drop (x : ℕ) (g : Holder)
    (hx : update held h none g = some x) : held g = some x ∧ x ≠ r := by
  have hg : g ≠ h := by
    rintro rfl
    simp at hx
  rw [update_of_ne hg] at hx
  refine ⟨hx, ?_⟩
  rintro rfl
  exact hg (c.alone g h x hx hh)

theorem put : ∃ l' ring, q.insert r = some { q with ring := ring } ∧ (∀ x, x ∈ l' ↔ x = r ∨ x ∈ l) ∧
    Custody { q with ring := ring } (update held h none) l' := by
  obtain ⟨l₁, l₂, ring, rfl, heq, hwell⟩ := c.well.insert (c.unlinked h r hh) (c.usable h r hh)
  have hmem (x : ℕ) : x ∈ l₁ ++ r :: l₂ ↔ x = r ∨ x ∈ l₁ ++ l₂ := by
    grind
  have hlive (x : ℕ)
      (hx : x ∈ l₁ ++ r :: l₂ ∨ ∃ g, update held h none g = some x) :
      x ∈ l₁ ++ l₂ ∨ ∃ g, held g = some x := by
    rcases hx with hx | ⟨g, hx⟩
    · rcases (hmem x).mp hx with rfl | hx
      · exact inr ⟨h, hh⟩
      · exact inl hx
    · exact inr ⟨g, (c.drop hh x g hx).1⟩
  refine ⟨_, ring, heq, hmem, hwell, ?_, ?_, ?_, ?_, c.made, c.good⟩
  · exact fun g x hx => c.usable g x (c.drop hh x g hx).1
  · intro g x hx hl
    obtain ⟨hg, hne⟩ := c.drop hh x g hx
    rcases (hmem x).mp hl with rfl | hl
    · exact hne rfl
    · exact c.unlinked g x hg hl
  · exact fun g g' x hx hx' => c.alone g g' x (c.drop hh x g hx).1 (c.drop hh x g' hx').1
  · exact fun x x' hx hx' => c.single x x' (hlive x hx) (hlive x' hx')

theorem release : Custody (q.release r) (update held h none) l := by
  have hfreed (x : ℕ) (hx : x ≠ r) : update q.freed r true x = q.freed x :=
    update_of_ne hx _ _
  have hlinked (x : ℕ) (hx : x ∈ l) : x ≠ r := by
    rintro rfl
    exact c.unlinked h x hh hx
  rw [TimerQueue.release, c.access_held hh]
  refine ⟨⟨⟨c.well.ring, c.well.times⟩, ?_⟩, ?_, ?_, ?_, ?_, ?_, c.good⟩
  · intro x hx
    exact ⟨(c.well.usable x hx).1, (hfreed x (hlinked x hx)).trans (c.well.usable x hx).2⟩
  · intro g x hx
    obtain ⟨hg, hne⟩ := c.drop hh x g hx
    exact ⟨(c.usable g x hg).1, (hfreed x hne).trans (c.usable g x hg).2⟩
  · exact fun g x hx => c.unlinked g x (c.drop hh x g hx).1
  · exact fun g g' x hx hx' => c.alone g g' x (c.drop hh x g hx).1 (c.drop hh x g' hx').1
  · intro x x' hx hx'
    refine c.single x x' (hx.imp_right ?_) (hx'.imp_right ?_)
    · exact fun ⟨g, hx⟩ => ⟨g, (c.drop hh x g hx).1⟩
    · exact fun ⟨g, hx⟩ => ⟨g, (c.drop hh x' g hx).1⟩
  · intro x hx
    by_cases hxr : x = r
    · exact hxr ▸ (c.usable h r hh).1
    · exact c.made x ((hfreed x hxr).symm.trans hx)

end

omit [DecidableEq Holder] in
theorem write (c : Custody q held l) (hh : held h = some r) {x : Timer Task}
    (htask : x.task = (q.timer r).task) (hid : x.id = (q.timer r).id) :
    Custody (q.write r x) held l := by
  have hkey (y : ℕ) : (update q.timer r x y).task = (q.timer y).task ∧
      (update q.timer r x y).id = (q.timer y).id := by
    by_cases hy : y = r
    · subst hy
      simp [htask, hid]
    · simp [hy]
  have htimes : l.Pairwise fun a b =>
      ¬(update q.timer r x a).value.time.later (update q.timer r x b).value.time = true := by
    refine c.well.times.imp_of_mem ?_
    intro a b ha hb hab
    have hne (y : ℕ) (hy : y ∈ l) : y ≠ r := by
      rintro rfl
      exact c.unlinked h y hh hy
    simpa [hne a ha, hne b hb] using hab
  rw [TimerQueue.write, c.access_held hh]
  refine ⟨⟨⟨c.well.ring, htimes⟩, c.well.usable⟩, c.usable, c.unlinked, c.alone, ?_, c.made, c.good⟩
  intro y y' hy hy' ht hi
  simp only [hkey] at ht hi
  exact c.single y y' hy hy' ht hi

theorem malloc (c : Custody q held l) (h : Holder) {t : Task}
    (hid : ∀ r < q.made, q.freed r = false → (q.timer r).task = t → (q.timer r).id ≠ q.newId) :
    Custody (q.malloc t) (update held h (some q.made)) l := by
  have hne (x : ℕ) (hx : q.Usable x) : x ≠ q.made := hx.1.ne
  have hold (x : ℕ) (hx : q.Usable x) : (q.malloc t).timer x = q.timer x :=
    update_of_ne (hne x hx) _ _
  have hnew : (q.malloc t).timer q.made = { q.timer q.made with task := t, id := q.newId } :=
    update_self _ _ _
  have hcases (g : Holder) (x : ℕ) (hx : update held h (some q.made) g = some x) :
      (g = h ∧ x = q.made) ∨ held g = some x := by
    grind
  have hfresh : q.freed q.made = false := by
    by_contra hf
    exact lt_irrefl _ (c.made q.made (by simpa using hf))
  have hlive (x : ℕ) (hx : x ∈ l ∨ ∃ g, update held h (some q.made) g = some x) :
      x = q.made ∨ (x ∈ l ∨ ∃ g, held g = some x) := by
    rcases hx with hx | ⟨g, hx⟩
    · exact inr (inl hx)
    · rcases hcases g x hx with ⟨-, hx⟩ | hx
      · exact inl hx
      · exact inr (inr ⟨g, hx⟩)
  have hclash (x : ℕ) (hx : x ∈ l ∨ ∃ g, held g = some x)
      (ht : (q.timer x).task = t) (hi : (q.timer x).id = q.newId) : False :=
    hid x (c.usable_of_live hx).1 (c.usable_of_live hx).2 ht hi
  have husable (x : ℕ) (hx : q.Usable x) : (q.malloc t).Usable x :=
    ⟨Nat.lt_succ_of_lt hx.1, hx.2⟩
  refine ⟨⟨⟨c.well.ring, ?_⟩, ?_⟩, ?_, ?_, ?_, ?_, ?_, c.good⟩
  · refine c.well.times.imp_of_mem ?_
    intro a b ha hb hab
    rw [hold a (c.well.usable a ha), hold b (c.well.usable b hb)]
    exact hab
  · exact fun x hx => husable x (c.well.usable x hx)
  · intro g x hx
    rcases hcases g x hx with ⟨-, rfl⟩ | hx
    · exact ⟨Nat.lt_succ_self _, hfresh⟩
    · exact husable x (c.usable g x hx)
  · intro g x hx hl
    rcases hcases g x hx with ⟨-, rfl⟩ | hx
    · exact hne _ (c.well.usable _ hl) rfl
    · exact c.unlinked g x hx hl
  · intro g g' x hx hx'
    rcases hcases g x hx with ⟨hg, hxr⟩ | hgx <;> rcases hcases g' x hx' with ⟨hg', hxr'⟩ | hgx'
    · exact hg.trans hg'.symm
    · exact absurd hxr (hne x (c.usable g' x hgx'))
    · exact absurd hxr' (hne x (c.usable g x hgx))
    · exact c.alone g g' x hgx hgx'
  · intro x x' hx hx' ht hi
    rcases hlive x hx with rfl | hx <;> rcases hlive x' hx' with rfl | hx'
    · rfl
    · rw [hnew, hold x' (c.usable_of_live hx')] at ht hi
      exact (hclash x' hx' ht.symm hi.symm).elim
    · rw [hnew, hold x (c.usable_of_live hx)] at ht hi
      exact (hclash x hx ht hi).elim
    · rw [hold x (c.usable_of_live hx), hold x' (c.usable_of_live hx')] at ht hi
      exact c.single x x' hx hx' ht hi
  · exact fun x hx => Nat.lt_succ_of_lt (c.made x hx)

end Custody

end MachUS.Tm
