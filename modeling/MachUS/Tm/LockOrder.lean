import MachUS.Tm.Task

namespace MachUS.Tm

open Option

variable {Task : Type}

namespace Act

def Loose (l : List (Act Task)) : Prop := ∀ t, .unlock t ∉ l

def told : List (Act Task) → Option Task
  | .event _ .chld _ _ :: .unlock t :: _ => some t
  | _ => none

def updated : List (Act Task) → Option Task
  | .setEmulStatus t _ _ :: .unlock _ :: _ => some t
  | _ => none

def Signals (c : Task) (l : List (Act Task)) : Prop := told l = some c

def Updates (c : Task) (l : List (Act Task)) : Prop := updated l = some c

instance [DecidableEq Task] (c : Task) (l : List (Act Task)) : Decidable (Signals c l) :=
  inferInstanceAs (Decidable (_ = _))

instance [DecidableEq Task] (c : Task) (l : List (Act Task)) : Decidable (Updates c l) :=
  inferInstanceAs (Decidable (_ = _))

inductive Shape (f : Family Task) : List (Act Task) → Prop where
  | loose {l} (h : Loose l) : Shape f l
  | one {l} (t : Task) (h : Loose l) : Shape f (.unlock t :: l)
  | two {l} (t u : Task) (h : Loose l) : Shape f (.unlock t :: .unlock u :: l)
  | signals {l} (c : Task) (subcode : WaitStatus) (hc : f.parent c ≠ c) (h : Loose l) :
    Shape f (.event (f.parent c) .chld (f.taskId c) subcode :: .unlock c :: l)
  | updates {l} (c : Task) (status mask : WaitStatus) (hc : f.parent c ≠ c) (h : Loose l) :
    Shape f (.setEmulStatus c status mask :: .unlock (f.parent c) :: l)

variable {f : Family Task} {l : List (Act Task)} {c : Task} {a : Act Task}

theorem Loose.tail (h : Loose (a :: l)) : Loose l :=
  fun t ht => h t (List.mem_cons_of_mem _ ht)

theorem Loose.cons (h : Loose l) (ha : ∀ t, a ≠ .unlock t) : Loose (a :: l) := by
  intro t ht
  rcases List.mem_cons.mp ht with ht | ht
  · exact ha t ht.symm
  · exact h t ht

theorem Signals.mem (h : Signals c l) : .unlock c ∈ l := by
  simp only [Signals, told] at h
  split at h
  · cases h
    simp
  · cases h

theorem Updates.eq (h : Updates c l) : ∃ status mask u rest,
    l = .setEmulStatus c status mask :: .unlock u :: rest := by
  simp only [Updates, updated] at h
  split at h
  · cases h
    exact ⟨_, _, _, _, rfl⟩
  · cases h

theorem Updates.unique {d : Task} (h : Updates c l) (h' : Updates d l) : c = d :=
  some.inj (h.symm.trans h')

theorem Signals.unique {d : Task} (h : Signals c l) (h' : Signals d l) : c = d :=
  some.inj (h.symm.trans h')

theorem Loose.not_signals (h : Loose l) : ¬Signals c l := fun hs => h c hs.mem

theorem Loose.not_updates (h : Loose l) : ¬Updates c l := by
  intro hu
  obtain ⟨status, mask, u, rest, rfl⟩ := hu.eq
  exact h u (by simp)

theorem Updates.not_signals {d : Task} (h : Updates c l) : ¬Signals d l := by
  obtain ⟨status, mask, u, rest, rfl⟩ := h.eq
  exact nofun

theorem Shape.holder (h : Shape f l) {t u : Task} (ht : .unlock t ∈ l)
    (ha : a ∈ l.head?) (hu : a.wants = some u) :
    (Signals t l ∧ f.parent t ≠ t ∧ u = f.parent t) ∨
      (Updates u l ∧ f.parent u ≠ u ∧ t = f.parent u) := by
  cases h with
  | loose h => exact absurd ht (h t)
  | one v h =>
    cases ha
    cases hu
  | two v w h =>
    cases ha
    cases hu
  | signals c subcode hc h =>
    cases ha
    obtain rfl : t = c := by
      simpa [h t] using ht
    exact .inl ⟨rfl, hc, (some.inj hu).symm⟩
  | updates c status mask hc h =>
    cases ha
    obtain rfl : c = u := some.inj hu
    refine .inr ⟨rfl, hc, ?_⟩
    simpa [h t] using ht

theorem Loose.nil : Loose ([] : List (Act Task)) := fun _ ht => nomatch ht

namespace Shape

theorem after_event {p : Task} {ev : Signal} {code : ℤ} {subcode : WaitStatus}
    (h : Shape f (.event p ev code subcode :: l)) : Loose l ∨ ∃ c l', ev = .chld ∧
      p = f.parent c ∧ code = f.taskId c ∧ l = .unlock c :: l' ∧ Loose l' := by
  cases h with
  | loose h => exact .inl h.tail
  | signals c subcode hc h => exact .inr ⟨c, _, rfl, rfl, rfl, rfl, h⟩

variable {t : Task}

theorem after_setEmulStatus {status mask : WaitStatus}
    (h : Shape f (.setEmulStatus t status mask :: l)) :
    Loose l ∨ ∃ l', l = .unlock (f.parent t) :: l' ∧ Loose l' := by
  cases h with
  | loose h => exact .inl h.tail
  | updates c status mask hc h => exact .inr ⟨_, rfl, h⟩

theorem after_hurtme {ev : Signal} {status : WaitStatus} {postId : ℤ}
    {attempt : Option Attempt} (h : Shape f (.hurtme t ev status postId attempt :: l)) :
    Loose l := by
  cases h with
  | loose h => exact h.tail

theorem after_setTgrp (h : Shape f (.setTgrp t :: l)) : Loose l := by
  cases h with
  | loose h => exact h.tail

theorem after_death (h : Shape f (.death t :: l)) : Loose l := by
  cases h with
  | loose h => exact h.tail

theorem after_post {ev : Signal} {postId : ℤ} {n : ℕ}
    (h : Shape f (.post t ev postId n :: l)) : Loose l := by
  cases h with
  | loose h => exact h.tail

theorem after_tellParent (h : Shape f (.tellParent t :: l)) : Loose l := by
  cases h with
  | loose h => exact h.tail

theorem after_unlock (h : Shape f (.unlock t :: l)) :
    Shape f l ∧ (∀ c, ¬Signals c l) ∧ ∀ c, ¬Updates c l := by
  cases h with
  | loose h => exact ⟨.loose h.tail, fun _ => h.tail.not_signals, fun _ => h.tail.not_updates⟩
  | one t h => exact ⟨.loose h, fun _ => h.not_signals, fun _ => h.not_updates⟩
  | two t u h => exact ⟨.one u h, fun _ => nofun, fun _ => nofun⟩

end Shape

theorem Shape.wants_parent (h : Shape f l) (hs : Signals c l) {u : Task}
    (ha : a ∈ l.head?) (hu : a.wants = some u) : f.parent c ≠ c ∧ u = f.parent c := by
  have hmem := hs.mem
  rcases h.holder hmem ha hu with ⟨-, hc⟩ | ⟨hup, -⟩
  · exact hc
  · exact absurd hs hup.not_signals

end Act

end MachUS.Tm

namespace MachUS.Tm

open Relation Function Transition World

variable {Task Thread : Type}

open Act

namespace World

variable (f : Family Task) (x : World Task Thread)

def Wants (th : Thread) (t : Task) : Prop := ∃ a ∈ (x.todo th).head?, a.wants = some t

def WaitsFor (th th' : Thread) : Prop := ∃ t, x.Wants th t ∧ x.lock t = some th'

def Deadlocked : Prop := ∃ th, TransGen x.WaitsFor th th

def Orderly : Event Task Thread → Prop
  | .call _ _ => True
  | .step th o =>
    match x.todo th with
    | .event p .chld code subcode :: _ => (x.task p).state ≠ .dead →
      ∀ c ∈ child f o code subcode, f.parent c = p ∧ c ≠ p ∧ ∀ th', ¬Signals c (x.todo th')
    | .hurtme t .stop _ postId _ :: _ =>
      Forces (x.task t) .stop postId → f.parent t ≠ t ∧ ∀ th', ¬Updates t (x.todo th')
    | _ => True

instance [DecidableEq Task] (th : Thread) (t : Task) : Decidable (x.Wants th t) :=
  inferInstanceAs (Decidable (∃ a ∈ (x.todo th).head?, a.wants = some t))

instance [DecidableEq Task] [DecidableEq Thread] [Fintype Task] (th th' : Thread) :
    Decidable (x.WaitsFor th th') :=
  inferInstanceAs (Decidable (∃ t, x.Wants th t ∧ x.lock t = some th'))

instance [DecidableEq Task] [Fintype Thread] : ∀ e, Decidable (x.Orderly f e)
  | .call _ _ => .isTrue trivial
  | .step th o =>
    match h : x.todo th with
    | .event p .chld code subcode :: _ =>
      decidable_of_iff ((x.task p).state ≠ .dead → ∀ c ∈ child f o code subcode,
        f.parent c = p ∧ c ≠ p ∧ ∀ th', ¬Signals c (x.todo th')) (by simp only [Orderly, h])
    | .hurtme t .stop _ postId _ :: _ =>
      decidable_of_iff (Forces (x.task t) .stop postId → f.parent t ≠ t ∧
        ∀ th', ¬Updates t (x.todo th')) (by simp only [Orderly, h])
    | [] | .event _ .kill _ _ :: _ | .event _ .stop _ _ :: _ | .event _ .cont _ _ :: _
    | .event _ (.other _) _ _ :: _ | .hurtme _ .kill _ _ _ :: _ | .hurtme _ .cont _ _ _ :: _
    | .hurtme _ .chld _ _ _ :: _ | .hurtme _ (.other _) _ _ _ :: _ | .setEmulStatus _ _ _ :: _
    | .setTgrp _ :: _ | .death _ :: _ | .unlock _ :: _ | .post _ _ _ _ :: _ | .tellParent _ :: _ =>
      .isTrue (by simp only [Orderly, h])

structure Ordered : Prop where
  shape : ∀ th, Shape f (x.todo th)
  owned : ∀ t th, x.lock t = some th → .unlock t ∈ x.todo th
  apart : ∀ c th th', Signals c (x.todo th) → ¬Updates c (x.todo th')

theorem init_ordered : (init : World Task Thread).Ordered f where
  shape := fun _ => .loose fun _ ht => nomatch ht
  owned := fun _ _ ht => nomatch ht
  apart := fun _ _ _ hs => nomatch hs

variable {f x}

namespace Ordered

section

variable (h : x.Ordered f)

include h

theorem holder {th : Thread} {t u : Task} (hlock : x.lock t = some th) (hwants : x.Wants th u) :
    (Signals t (x.todo th) ∧ f.parent t ≠ t ∧ u = f.parent t) ∨
      (Updates u (x.todo th) ∧ f.parent u ≠ u ∧ t = f.parent u) := by
  obtain ⟨a, ha, hu⟩ := hwants
  exact (h.shape th).holder (h.owned t th hlock) ha hu

theorem after_updates {th th' : Thread} {c : Task}
    (hc : Updates c (x.todo th)) (hw : x.WaitsFor th th') {u : Task} (hwants : x.Wants th' u) :
    ∃ d, Updates d (x.todo th') ∧ f.born c < f.born d := by
  obtain ⟨t, ⟨a, ha, ht⟩, hlock⟩ := hw
  obtain ⟨status, mask, v, rest, htodo⟩ := hc.eq
  obtain rfl : c = t := by
    rw [htodo] at ha
    cases ha
    exact Option.some.inj ht
  rcases h.holder hlock hwants with ⟨hs, -⟩ | ⟨hu, hne, rfl⟩
  · exact absurd hc (h.apart c th' th hs)
  · exact ⟨u, hu, (f.older u).resolve_left hne⟩

theorem after_signals {th th' : Thread} {c : Task}
    (hc : Signals c (x.todo th)) (hw : x.WaitsFor th th') {u : Task} (hwants : x.Wants th' u) :
    (∃ d, Updates d (x.todo th')) ∨ ∃ d, Signals d (x.todo th') ∧ f.born d < f.born c := by
  obtain ⟨t, ⟨a, ha, ht⟩, hlock⟩ := hw
  obtain ⟨hne, rfl⟩ := (h.shape th).wants_parent hc ha ht
  rcases h.holder hlock hwants with ⟨hs, -⟩ | ⟨hu, -⟩
  · exact .inr ⟨f.parent c, hs, (f.older c).resolve_left hne⟩
  · exact .inl ⟨u, hu⟩

theorem follow_updates {th th' : Thread} {c : Task}
    (hc : Updates c (x.todo th)) (hpath : TransGen x.WaitsFor th th') :
    ∀ u, x.Wants th' u → ∃ d, Updates d (x.todo th') ∧ f.born c < f.born d := by
  induction hpath with
  | single hw => exact fun u hu => h.after_updates hc hw hu
  | tail hpath hw ih =>
    intro u hu
    have hstep := hw
    obtain ⟨t, ht, -⟩ := hstep
    obtain ⟨d, hd, hlt⟩ := ih t ht
    obtain ⟨e, he, hlt'⟩ := h.after_updates hd hw hu
    exact ⟨e, he, hlt.trans hlt'⟩

theorem follow_signals {th th' : Thread} {c : Task}
    (hc : Signals c (x.todo th)) (hpath : TransGen x.WaitsFor th th') :
    ∀ u, x.Wants th' u →
      (∃ d, Updates d (x.todo th')) ∨ ∃ d, Signals d (x.todo th') ∧ f.born d < f.born c := by
  induction hpath with
  | single hw => exact fun u hu => h.after_signals hc hw hu
  | tail hpath hw ih =>
    intro u hu
    have hstep := hw
    obtain ⟨t, ht, -⟩ := hstep
    rcases ih t ht with ⟨d, hd⟩ | ⟨d, hd, hlt⟩
    · obtain ⟨e, he, -⟩ := h.after_updates hd hw hu
      exact .inl ⟨e, he⟩
    · rcases h.after_signals hd hw hu with he | ⟨e, he, hlt'⟩
      · exact .inl he
      · exact .inr ⟨e, he, hlt'.trans hlt⟩

theorem not_deadlocked : ¬x.Deadlocked := by
  rintro ⟨th, hpath⟩
  obtain ⟨th', hw, -⟩ := TransGen.head'_iff.mp hpath
  obtain ⟨last, -, hlast⟩ := TransGen.tail'_iff.mp hpath
  obtain ⟨u, hu, -⟩ := hw
  obtain ⟨t, -, hlock⟩ := hlast
  rcases h.holder hlock hu with ⟨hs, -⟩ | ⟨hup, -⟩
  · rcases h.follow_signals hs hpath u hu with ⟨d, hd⟩ | ⟨d, hd, hlt⟩
    · exact hd.not_signals hs
    · exact absurd (hd.unique hs ▸ hlt) (lt_irrefl _)
  · obtain ⟨d, hd, hlt⟩ := h.follow_updates hup hpath u hu
    exact absurd (hd.unique hup ▸ hlt) (lt_irrefl _)

theorem named {th : Thread} {rest : List (Act Task)} {o : Outside} {p c : Task} {code : ℤ} {subcode : WaitStatus}
    (htodo : x.todo th = .event p .chld code subcode :: rest) (hc : child f o code subcode = some c)
    (hfree : ∀ u, ¬Signals c (x.todo u)) : Loose rest := by
  rcases (htodo ▸ h.shape th : Shape f _).after_event with hl | ⟨d, l, -, -, rfl, rfl, -⟩
  · exact hl
  · have hid : f.taskId c = f.taskId d := by
      simp only [child] at hc
      split_ifs at hc
      exact f.named _ _ hc
    obtain rfl := f.unique hid
    refine absurd ?_ (hfree th)
    rw [htodo]
    rfl

end

variable [DecidableEq Thread] {y : World Task Thread} {th : Thread} {rest L : List (Act Task)}

theorem moves (h : x.Ordered f) (htodo : y.todo = update x.todo th L)
    (hshape : Shape f L) (howned : ∀ t u, y.lock t = some u → .unlock t ∈ y.todo u)
    (hs : ∀ c, Signals c L → ∀ u, ¬Updates c (x.todo u))
    (hu : ∀ c, Updates c L → ∀ u, ¬Signals c (x.todo u)) : y.Ordered f where
  shape := by
    intro u
    rw [htodo]
    by_cases hut : u = th
    · rw [hut, update_self]
      exact hshape
    · rw [update_of_ne hut]
      exact h.shape u
  owned := howned
  apart := by
    intro c a b ha hb
    rw [htodo] at ha hb
    by_cases hat : a = th
    · rw [hat, update_self] at ha
      by_cases hbt : b = th
      · rw [hbt, update_self] at hb
        exact hb.not_signals ha
      · rw [update_of_ne hbt] at hb
        exact hs c ha b hb
    · rw [update_of_ne hat] at ha
      by_cases hbt : b = th
      · rw [hbt, update_self] at hb
        exact hu c hb a ha
      · rw [update_of_ne hbt] at hb
        exact h.apart c a b ha hb

theorem owned_goes (h : x.Ordered f) {a : Act Task} (htodo : x.todo th = a :: rest)
    (ha : ∀ t, a ≠ .unlock t) (hL : ∀ t, .unlock t ∈ rest → .unlock t ∈ L) (u : Task)
    (th' : Thread) (hlock : x.lock u = some th') : .unlock u ∈ update x.todo th L th' := by
  have hmem := h.owned u th' hlock
  by_cases htt : th' = th
  · subst htt
    rw [htodo] at hmem
    rw [update_self]
    exact hL u ((List.mem_cons.mp hmem).resolve_left fun he => ha u he.symm)
  · rw [update_of_ne htt]
    exact hmem

theorem drifts (h : x.Ordered f) {a : Act Task} (htodo : x.todo th = a :: rest)
    (ha : ∀ t, a ≠ .unlock t) (hrest : Loose rest) (hL : Loose L) {task : Task → TaskState}
    {reports : List Report} :
    (⟨task, x.lock, update x.todo th L, reports⟩ : World Task Thread).Ordered f :=
  h.moves rfl (.loose hL) (h.owned_goes htodo ha fun t ht => absurd ht (hrest t))
    (fun _ hs => absurd hs hL.not_signals) (fun _ hu => absurd hu hL.not_updates)

variable [DecidableEq Task] {o : Outside} {t : Task}

section

variable (h : x.Ordered f)

include h

theorem owned_enters {a : Act Task} (htodo : x.todo th = a :: rest)
    (ha : ∀ t, a ≠ .unlock t) {r : TaskState × List (Act Task)}
    (hr : .unlock t ∈ r.2) (u : Task) (th' : Thread)
    (hlock : (x.enters th t rest r).lock u = some th') :
    .unlock u ∈ (x.enters th t rest r).todo th' := by
  simp only [enters] at hlock ⊢
  by_cases hut : u = t
  · subst hut
    rw [update_self] at hlock
    cases hlock
    rw [update_self]
    exact List.mem_append_left _ hr
  · rw [update_of_ne hut] at hlock
    have hmem := h.owned u th' hlock
    by_cases htt : th' = th
    · subst htt
      rw [htodo] at hmem
      rw [update_self]
      exact List.mem_append_right _ ((List.mem_cons.mp hmem).resolve_left fun he => ha u he.symm)
    · rw [update_of_ne htt]
      exact hmem

theorem releases {a : Act Task} (htodo : x.todo th = a :: rest)
    (ha : ∀ t, a ≠ .unlock t) {s : TaskState} {r : List (Act Task)} (hr : Loose r)
    (hrest : Loose rest ∨ r = [] ∧ ∃ u l, rest = .unlock u :: l ∧ Loose l) :
    (x.enters th t rest (s, .unlock t :: r)).Ordered f := by
  refine h.moves rfl ?_ (h.owned_enters htodo ha (List.mem_cons_self)) (fun _ hs => nomatch hs)
    (fun _ hu => nomatch hu)
  rcases hrest with hrest | ⟨rfl, u, l, rfl, hl⟩
  · refine .one t fun v hv => ?_
    rcases List.mem_append.mp hv with hv | hv
    · exact hr v hv
    · exact hrest v hv
  · exact .two t u hl

theorem event {p : Task} {ev : Signal} {code : ℤ} {subcode : WaitStatus}
    (htodo : x.todo th = .event p ev code subcode :: rest) (ho : x.Orderly f (.step th o)) :
    (x.enters th p rest (tmEventToTaskThread f p (x.task p) o ev code subcode)).Ordered f := by
  have hrest := (htodo ▸ h.shape th : Shape f _).after_event
  have hsolid (t : Task) : Act.event p ev code subcode ≠ .unlock t := nofun
  have hplain {s : TaskState} : (x.enters th p rest (s, [.unlock p])).Ordered f := by
    refine h.releases htodo hsolid (fun _ hv => nomatch hv) (hrest.imp_right ?_)
    rintro ⟨c, l, -, -, -, rfl, hl⟩
    exact ⟨rfl, c, l, rfl, hl⟩
  have hloose (hev : ev ≠ .chld) : Loose rest := by
    rcases hrest with hl | ⟨c, l, hchld, -⟩
    · exact hl
    · exact absurd hchld hev
  by_cases hdead : (x.task p).state = .dead
  · simp only [tmEventToTaskThread, if_pos hdead]
    exact hplain
  simp only [tmEventToTaskThread, if_neg hdead]
  cases ev with
  | kill =>
    split_ifs
    · exact h.releases htodo hsolid (Loose.nil.cons fun _ => nofun)
        (.inl (hloose Signal.noConfusion))
    · exact h.releases htodo hsolid (Loose.nil.cons fun _ => nofun)
        (.inl (hloose Signal.noConfusion))
  | stop =>
    split_ifs
    · exact h.releases htodo hsolid (Loose.nil.cons fun _ => nofun)
        (.inl (hloose Signal.noConfusion))
    · exact h.releases htodo hsolid (Loose.nil.cons fun _ => nofun)
        (.inl (hloose Signal.noConfusion))
  | cont => exact hplain
  | other n => exact hplain
  | chld =>
    cases hc : child f o code subcode with
    | none => exact hplain
    | some c =>
      simp only [Orderly, htodo] at ho
      obtain ⟨rfl, hne, hfree⟩ := ho hdead c hc
      have hl := h.named htodo hc hfree
      refine h.moves rfl (.updates c _ _ hne.symm hl)
        (h.owned_enters htodo hsolid (by simp)) (fun _ hs => nomatch hs) ?_
      rintro d hd
      obtain rfl : c = d := Option.some.inj hd
      exact hfree

theorem hurtme {ev : Signal} {status : WaitStatus} {postId : ℤ}
    {attempt : Option Attempt} (htodo : x.todo th = .hurtme t ev status postId attempt :: rest)
    (ho : x.Orderly f (.step th o)) :
    (x.enters th t rest (tmHurtme f t (x.task t) o ev status postId)).Ordered f := by
  have hl : Loose rest := (htodo ▸ h.shape th : Shape f _).after_hurtme
  have hsolid (u : Task) : Act.hurtme t ev status postId attempt ≠ .unlock u := nofun
  have hplain {s : TaskState} : (x.enters th t rest (s, [.unlock t])).Ordered f :=
    h.releases htodo hsolid (fun _ hv => nomatch hv) (.inl hl)
  simp only [tmHurtme]
  split_ifs with hign hev hrun
  · exact hplain
  · subst hev
    simp only [Orderly, htodo] at ho
    obtain ⟨hne, hfree⟩ := ho ⟨hign, fun _ => hrun⟩
    refine h.moves rfl (.signals t _ hne hl) (h.owned_enters htodo hsolid (by simp)) ?_
      (fun _ hu => nomatch hu)
    rintro c hc
    obtain rfl : t = c := Option.some.inj hc
    exact hfree
  · exact hplain
  · exact hplain

theorem unlock (htodo : x.todo th = .unlock t :: rest) :
    ({ x.goes th rest with lock := update x.lock t none } : World Task Thread).Ordered f := by
  obtain ⟨hshape, hs, hu⟩ := (htodo ▸ h.shape th : Shape f _).after_unlock
  refine h.moves rfl hshape ?_ (fun c hc => absurd hc (hs c)) (fun c hc => absurd hc (hu c))
  intro u th' hlock
  simp only [goes] at hlock ⊢
  by_cases hut : u = t
  · rw [hut, update_self] at hlock
    cases hlock
  · rw [update_of_ne hut] at hlock
    have hmem := h.owned u th' hlock
    by_cases htt : th' = th
    · subst htt
      rw [htodo] at hmem
      rw [update_self]
      refine (List.mem_cons.mp hmem).resolve_left fun he => hut ?_
      exact Act.unlock.inj he
    · rw [update_of_ne htt]
      exact hmem

theorem perform {a : Act Task} (htodo : x.todo th = a :: rest)
    (ho : x.Orderly f (.step th o)) (hy : x.perform f th o rest a = some y) : y.Ordered f := by
  have hshape : Shape f (a :: rest) := htodo ▸ h.shape th
  cases a with
  | event t ev code subcode =>
    simp only [World.perform] at hy
    split_ifs at hy
    cases hy
    exact h.event htodo ho
  | hurtme t ev status postId attempt =>
    simp only [World.perform] at hy
    split_ifs at hy
    cases hy
    have hx := h.hurtme htodo ho
    exact ⟨hx.shape, hx.owned, hx.apart⟩
  | setEmulStatus t status mask =>
    simp only [World.perform] at hy
    split_ifs at hy
    cases hy
    refine h.releases htodo (fun _ => nofun) (fun _ hv => nomatch hv) ?_
    exact hshape.after_setEmulStatus.imp_right fun ⟨l, hl⟩ => ⟨rfl, f.parent t, l, hl⟩
  | setTgrp t =>
    simp only [World.perform] at hy
    split_ifs at hy
    cases hy
    exact h.releases htodo (fun _ => nofun) (fun _ hv => nomatch hv) (.inl hshape.after_setTgrp)
  | death t =>
    simp only [World.perform, tmTaskDeath] at hy
    split_ifs at hy
    · cases hy
      exact h.releases htodo (fun _ => nofun) (fun _ hv => nomatch hv) (.inl hshape.after_death)
    · cases hy
      exact h.releases htodo (fun _ => nofun)
        ((Loose.nil.cons fun _ he => by cases he).cons fun _ he => by cases he)
        (.inl hshape.after_death)
  | unlock t =>
    cases hy
    exact h.unlock htodo
  | post t ev postId n =>
    have hl := hshape.after_post
    simp only [World.perform] at hy
    split_ifs at hy
    · cases hy
      exact h.drifts htodo (fun _ => nofun) hl (hl.cons fun _ he => by cases he)
    · cases hy
      exact h.drifts htodo (fun _ => nofun) hl hl
  | tellParent t =>
    have hl := hshape.after_tellParent
    simp only [World.perform] at hy
    split_ifs at hy
    · cases hy
      exact h.drifts htodo (fun _ => nofun) hl (hl.cons fun _ he => by cases he)
    · cases hy
      exact h.drifts htodo (fun _ => nofun) hl hl

theorem next {e : Event Task Thread} (he : x.Orderly f e)
    (hy : x.next f e = some y) : y.Ordered f := by
  cases e with
  | call th a =>
    simp only [World.next] at hy
    split_ifs at hy with hidle
    cases hy
    have hL : Loose [a] := Loose.nil.cons fun t ht => by
      rw [ht] at hidle
      exact hidle.2
    refine h.moves rfl (.loose hL) ?_ (fun _ hs => absurd hs hL.not_signals)
      (fun _ hu => absurd hu hL.not_updates)
    intro u th' hlock
    have hmem := h.owned u th' hlock
    simp only [goes]
    by_cases htt : th' = th
    · rw [htt, hidle.1] at hmem
      cases hmem
    · rw [update_of_ne htt]
      exact hmem
  | step th o =>
    simp only [World.next] at hy
    split at hy
    next => cases hy
    next a rest htodo => exact h.perform htodo he hy

end

end Ordered

end World

theorem no_task_lock_deadlock [DecidableEq Task] [DecidableEq Thread] (f : Family Task)
    (x : World Task Thread)
    (hrun : ReflTransGen (Under (World.next f) (Orderly f)) .init x) :
    ¬x.Deadlocked := by
  have h : x.Ordered f := invariant (fun _ _ _ hx he hy => hx.next he hy) hrun (init_ordered f)
  exact h.not_deadlocked

namespace Sample

def told : List (Event (Fin 2) (Fin 2)) :=
  [.call 0 (.event 1 .stop 0 0)] ++ steps 7 ++ [.call 1 (.event 0 .chld 2 0), .step 1 fine,
    .step 1 fine, .step 1 fine, .step 1 fine]

def ownParent : List (Event (Fin 2) (Fin 2)) :=
  [.call 0 (.hurtme 0 .stop .stopped 0 none), .step 0 fine]

def crossed : List (Event (Fin 2) (Fin 2)) :=
  [.call 0 (.event 0 .chld 2 0), .step 0 fine, .call 1 (.hurtme 1 .stop .stopped 0 none),
    .step 1 fine]

end Sample

theorem no_task_lock_deadlock_told : ∃ x : World (Fin 2) (Fin 2),
    (x.task 1).state = .stopped ∧ (x.task 1).emulStatus = 0 ∧ ¬x.Deadlocked := by
  have h : check (World.next Sample.family) .init Sample.told (fun y =>
      decide ((y.task 1).state = .stopped) && decide ((y.task 1).emulStatus = 0)) = true := by
    decide +kernel
  have hadmits : Admits (World.next Sample.family) (Orderly Sample.family) .init Sample.told := by
    decide +kernel
  obtain ⟨y, hy, ht⟩ := exec_of_check h
  rw [Bool.and_eq_true, decide_eq_true_eq, decide_eq_true_eq] at ht
  exact ⟨y, ht.1, ht.2, no_task_lock_deadlock Sample.family y (run_of_exec hadmits hy)⟩

theorem task_locks_deadlock :
    (∃ x : World (Fin 2) (Fin 2), ReflTransGen
      (Under (World.next Sample.family) Free) .init x ∧ x.WaitsFor 0 0) ∧
    ∃ x : World (Fin 2) (Fin 2), ReflTransGen
      (Under (World.next Sample.family) Free) .init x ∧
      x.WaitsFor 0 1 ∧ x.WaitsFor 1 0 := by
  constructor
  · have h : check (World.next Sample.family) .init Sample.ownParent (fun y =>
        decide (y.WaitsFor 0 0)) = true := by
      decide +kernel
    obtain ⟨y, hy, ht⟩ := exec_of_check h
    rw [decide_eq_true_eq] at ht
    exact ⟨y, run_of_exec (free_admits _ _) hy, ht⟩
  · have h : check (World.next Sample.family) .init Sample.crossed (fun y =>
        decide (y.WaitsFor 0 1 ∧ y.WaitsFor 1 0)) = true := by
      decide +kernel
    obtain ⟨y, hy, ht⟩ := exec_of_check h
    rw [decide_eq_true_eq] at ht
    exact ⟨y, run_of_exec (free_admits _ _) hy, ht⟩

end MachUS.Tm
