import MachUS.Io.Wakeups

namespace MachUS.Io

open Function Phase

namespace Phase

def Holds : Phase → Prop
  | .inside _ => True
  | .parking _ => True
  | .resuming _ => True
  | _ => False

def Brings (c : Cond) : Phase → Prop
  | .woken op => op.cond = c
  | .resuming op => op.cond = c
  | .signalling ws => .signal c ∈ ws ∨ .broadcast c ∈ ws
  | _ => False

def Demands (k : Counts) (c : Cond) : Phase → Prop
  | .asleep op => op.cond = c ∧ op.minimum ≤ k.available c
  | _ => False

theorem Demands.asleep {k : Counts} {c : Cond} {p : Phase} (h : p.Demands k c) :
    ∃ op, p = .asleep op ∧ op.cond = c ∧ op.minimum ≤ k.available c := by
  cases p with
  | asleep op => exact ⟨op, rfl, h⟩
  | _ => exact h.elim

theorem brings_after {c : Cond} {ws : List Wake} :
    (after ws).Brings c ↔ .signal c ∈ ws ∨ .broadcast c ∈ ws := by
  cases ws with
  | nil => simp [after, Brings]
  | cons w ws => exact Iff.rfl

theorem after_not_holds (ws : List Wake) : ¬(after ws).Holds := by
  cases ws <;> exact id

theorem after_not_parking (ws : List Wake) (op : Op) : after ws ≠ .parking op := by
  cases ws <;> exact Phase.noConfusion

theorem after_not_asleep (ws : List Wake) (op : Op) : after ws ≠ .asleep op := by
  cases ws <;> exact Phase.noConfusion

end Phase

namespace Crowd

variable {T : Type} (x : Crowd T)

structure Inv : Prop where
  valid : x.counts.Valid
  sized : ∀ t op, x.phase t = .asleep op → 0 < op.minimum
  exclusive : ∀ t, (x.phase t).Holds → x.lock = some t
  unmet : ∀ t op, x.phase t = .parking op → x.counts.available op.cond < op.minimum
  hopeful : ∀ c t, (x.phase t).Demands x.counts c → ∃ u, (x.phase u).Brings c

def Relays (t : T) (c : Cond) : Prop :=
  ∀ u, (x.phase u).Demands x.counts c → ∃ v ≠ t, (x.phase v).Brings c

def Heeds : Event T → Prop
  | .call _ (.transfer op) =>
    ¬Stream.invalidMode op.mode → op.kind = .putbytes ∧ ¬x.counts.Enabled .put → x.lock = none
  | .act t interrupted o =>
    match x.phase t with
    | .inside (.transfer op) => o.Lossless op.kind
    | .resuming op =>
      o.Lossless op.kind ∧ (x.counts.Fruitless op interrupted o → x.Relays t op.cond)
    | _ => True
  | _ => True

def Stuck : Prop :=
  (∀ t, ∃ op, x.phase t = .asleep op) ∧ ∃ c t, (x.phase t).Demands x.counts c

theorem create_inv (qsize readstrat writestrat : UInt32) :
    (create qsize readstrat writestrat : Crowd T).Inv where
  valid := ⟨qsize.toNat_lt, Nat.zero_le _⟩
  sized := fun _ _ h => nomatch h
  exclusive := fun _ h => h.elim
  unmet := fun _ _ h => nomatch h
  hopeful := fun _ _ h => h.elim

namespace Inv

variable {x}

theorem not_stuck (h : x.Inv) : ¬x.Stuck := by
  rintro ⟨hall, c, t, ht⟩
  obtain ⟨u, hu⟩ := h.hopeful c t ht
  obtain ⟨op, hop⟩ := hall u
  rw [hop] at hu
  exact hu

theorem alone (h : x.Inv) {t u : T} (ht : (x.phase t).Holds) (hu : (x.phase u).Holds) : u = t :=
  Option.some.inj ((h.exclusive u hu).symm.trans (h.exclusive t ht))

theorem kept (h : x.Inv) {t : T} (hquiet : ∀ d, ¬(x.phase t).Brings d) (c : Cond) (u : T)
    (hu : (x.phase u).Demands x.counts c) : ∃ v ≠ t, (x.phase v).Brings c := by
  obtain ⟨v, hv⟩ := h.hopeful c u hu
  refine ⟨v, ?_, hv⟩
  rintro rfl
  exact hquiet c hv

theorem roused (h : x.Inv) {y : Crowd T} {t : T} {w : Wake} {ws : List Wake}
    (hcounts : y.counts = x.counts) (hlock : y.lock = x.lock)
    (ht : x.phase t = .signalling (w :: ws)) (hyt : y.phase t = .after ws)
    (hother : ∀ u ≠ t, y.phase u = x.phase u ∨ ∃ op, x.phase u = .asleep op ∧ y.phase u = .woken op)
    (hserved : ∀ c, w = .signal c ∨ w = .broadcast c →
      (∀ u, ¬(y.phase u).Sleeps c) ∨ ∃ u, (y.phase u).Brings c) : y.Inv := by
  have hkept {u : T} (hu : y.phase u ≠ .after ws) (hw : ∀ op, y.phase u ≠ .woken op) :
      y.phase u = x.phase u := by
    have hut : u ≠ t := by
      rintro rfl
      exact hu hyt
    rcases hother u hut with he | ⟨op, -, he⟩
    · exact he
    · exact absurd he (hw op)
  have hasleep {u : T} {op : Op} (hu : y.phase u = .asleep op) : x.phase u = .asleep op := by
    rw [← hu]
    refine (hkept ?_ ?_).symm
    · rw [hu]
      exact (after_not_asleep ws op).symm
    · rw [hu]
      exact fun _ => Phase.noConfusion
  constructor
  · exact hcounts ▸ h.valid
  · exact fun u op hu => h.sized u op (hasleep hu)
  · intro u hu
    rw [hlock]
    refine h.exclusive u (hkept ?_ ?_ ▸ hu)
    · exact fun he => after_not_holds ws (he ▸ hu)
    · exact fun op he => (he ▸ hu : (woken op).Holds)
  · intro u op hu
    rw [hcounts]
    refine h.unmet u op ((hkept ?_ ?_).symm.trans hu)
    · rw [hu]
      exact (after_not_parking ws op).symm
    · rw [hu]
      exact fun _ => Phase.noConfusion
  · intro c u hu
    obtain ⟨op, hop, hc, hmin⟩ := hu.asleep
    by_cases hw : w = .signal c ∨ w = .broadcast c
    · rcases hserved c hw with hnone | hsome
      · exact absurd (hop ▸ hc : (y.phase u).Sleeps c) (hnone u)
      · exact hsome
    obtain ⟨v, hv⟩ := h.hopeful c u (by rw [hasleep hop]; exact ⟨hc, hcounts ▸ hmin⟩)
    refine ⟨v, ?_⟩
    by_cases hvt : v = t
    · subst hvt
      rw [ht] at hv
      rw [hyt, brings_after]
      rw [not_or] at hw
      refine hv.imp (fun hm => ?_) fun hm => ?_
      · exact (List.mem_cons.mp hm).resolve_left fun he => hw.1 he.symm
      · exact (List.mem_cons.mp hm).resolve_left fun he => hw.2 he.symm
    · rcases hother v hvt with he | ⟨op', he, -⟩
      · exact he ▸ hv
      · rw [he] at hv
        exact hv.elim

variable [DecidableEq T]

theorem goes (h : x.Inv) {t : T} {p : Phase} {lock : Option T}
    (hlock : ∀ u, (x.phase u).Holds → u ≠ t → lock = some u) (hp : p.Holds → lock = some t)
    (hsized : ∀ op, p = .asleep op → 0 < op.minimum)
    (hunmet : ∀ op, p = .parking op → x.counts.available op.cond < op.minimum)
    (hdemands : ∀ c, p.Demands x.counts c → False)
    (hbrings : ∀ c u, (x.phase u).Demands x.counts c → p.Brings c ∨ ∃ v ≠ t, (x.phase v).Brings c) :
    ({ x.goes t p with lock := lock } : Crowd T).Inv where
  valid := h.valid
  sized := by
    intro u op hu
    by_cases hut : u = t
    · subst hut
      exact hsized op ((update_self _ _ _).symm.trans hu)
    · exact h.sized u op ((update_of_ne hut _ _).symm.trans hu)
  exclusive := by
    intro u hu
    by_cases hut : u = t
    · subst hut
      simp only [Crowd.goes, update_self] at hu
      exact hp hu
    · simp only [Crowd.goes, update_of_ne hut] at hu
      exact hlock u hu hut
  unmet := by
    intro u op hu
    by_cases hut : u = t
    · subst hut
      exact hunmet op ((update_self _ _ _).symm.trans hu)
    · exact h.unmet u op ((update_of_ne hut _ _).symm.trans hu)
  hopeful := by
    intro c u hu
    have hold : (x.phase u).Demands x.counts c := by
      by_cases hut : u = t
      · subst hut
        simp only [Crowd.goes, update_self] at hu
        exact (hdemands c hu).elim
      · simpa only [Crowd.goes, update_of_ne hut] using hu
    rcases hbrings c u hold with hb | ⟨v, hv, hb⟩
    · refine ⟨t, ?_⟩
      simpa only [Crowd.goes, update_self] using hb
    · refine ⟨v, ?_⟩
      simpa only [Crowd.goes, update_of_ne hv] using hb

theorem unlocked_goes (h : x.Inv) {t : T} {p : Phase} (ht : (x.phase t).Holds) (hp : ¬p.Holds)
    (hsized : ∀ op, p = .asleep op → 0 < op.minimum)
    (hdemands : ∀ c, p.Demands x.counts c → False)
    (hbrings : ∀ c u, (x.phase u).Demands x.counts c →
      p.Brings c ∨ ∃ v ≠ t, (x.phase v).Brings c) : (x.unlocked.goes t p).Inv := by
  refine h.goes (fun u hu hut => absurd (h.alone ht hu) hut) (fun hh => absurd hh hp) hsized ?_
    hdemands hbrings
  rintro op rfl
  exact absurd trivial hp

theorem finish (h : x.Inv) {t : T} (ht : (x.phase t).Holds) {k : Counts} {ws : List Wake}
    (hk : k.Valid) (hws : ∀ d, 0 < k.available d → .signal d ∈ ws) :
    ({ x.unlocked.goes t (.after ws) with counts := k } : Crowd T).Inv where
  valid := hk
  sized := by
    intro u op hu
    by_cases hut : u = t
    · subst hut
      exact absurd ((update_self _ _ _).symm.trans hu) (after_not_asleep ws op)
    · exact h.sized u op ((update_of_ne hut _ _).symm.trans hu)
  exclusive := by
    intro u hu
    by_cases hut : u = t
    · subst hut
      simp only [Crowd.goes, update_self] at hu
      exact absurd hu (after_not_holds ws)
    · simp only [Crowd.goes, update_of_ne hut] at hu
      exact absurd (h.alone ht hu) hut
  unmet := by
    intro u op hu
    by_cases hut : u = t
    · subst hut
      exact absurd ((update_self _ _ _).symm.trans hu) (after_not_parking ws op)
    · have hold : x.phase u = .parking op := (update_of_ne hut _ _).symm.trans hu
      exact absurd (h.alone ht (hold ▸ trivial)) hut
  hopeful := by
    intro c u hu
    obtain ⟨op, hop, -, hmin⟩ := hu.asleep
    have hut : u ≠ t := by
      rintro rfl
      exact absurd ((update_self _ _ _).symm.trans hop) (after_not_asleep ws op)
    have hold : x.phase u = .asleep op := (update_of_ne hut _ _).symm.trans hop
    refine ⟨t, ?_⟩
    simp only [Crowd.goes, update_self, brings_after]
    exact .inl (hws c ((h.sized u op hold).trans_le hmin))

theorem settle (h : x.Inv) {t : T} {op : Op} {v : Verdict} (ht : (x.phase t).Holds)
    (hv : x.counts.Judged op v)
    (hrelays : (∃ code num n, v = x.counts.finish op.cond code num n) ∨
      ∀ c u, (x.phase u).Demands x.counts c → ∃ w ≠ t, (x.phase w).Brings c) :
    (x.settle t op v).Inv := by
  have hquiet {p : Phase} (hv : ∀ code num n, v ≠ x.counts.finish op.cond code num n) (c : Cond)
      (u : T) (hu : (x.phase u).Demands x.counts c) :
      p.Brings c ∨ ∃ w ≠ t, (x.phase w).Brings c := by
    rcases hrelays with ⟨code, num, n, hn⟩ | hrelays
    · exact absurd hn (hv code num n)
    · exact .inr (hrelays c u hu)
  cases hv with
  | waits hlt =>
    refine h.goes (fun u hu _ => h.exclusive u hu) (fun _ => h.exclusive t ht)
      (fun _ hp => nomatch hp) ?_ (fun _ hd => hd) (hquiet fun _ _ _ hn => nomatch hn)
    intro op' hop
    cases hop
    exact hlt
  | refuses code num =>
    refine h.unlocked_goes ht id (fun _ hp => nomatch hp) (fun _ hd => hd) (hquiet ?_)
    intro _ _ n hn
    have hws := congrArg (fun v => match v with | .returns _ _ _ ws => ws | .waits => []) hn
    cases hc : op.cond <;> simp [Counts.refuses, Counts.finish, Counts.wakes, hc] at hws
  | finish code num n hn =>
    exact h.finish ht (h.valid.moved hn) fun d hd => (h.valid.moved hn).wakes hd

end Inv

end Crowd

end MachUS.Io
