import MachUS.Io.WakeupInvariant

namespace MachUS.Io

open Function Transition Crowd Phase Option

namespace Crowd

namespace Inv

variable {T : Type} {x : Crowd T} [DecidableEq T]

section

variable (h : x.Inv)

include h

theorem flush {t : T} (ht : (x.phase t).Holds) : (x.ioFlushStream t).Inv := by
  have hphase (u : T) : (x.ioFlushStream t).phase u =
      if u = t then .idle else (x.phase u).rouse := by
    by_cases hut : u = t
    · subst hut
      simp [ioFlushStream, Crowd.goes]
    · simp only [ioFlushStream, Crowd.goes, unlocked, wakeAll, update_of_ne hut, if_neg hut]
      cases hu : x.phase u with
      | asleep op =>
        cases hc : op.cond <;> simp [Sleeps, rouse, hc]
      | _ => rfl
  have hnobody (u : T) (op : Op) : (x.ioFlushStream t).phase u ≠ .asleep op := by
    rw [hphase]
    split_ifs
    · exact Phase.noConfusion
    · cases x.phase u <;> exact Phase.noConfusion
  have hholds (u : T) (hu : ((x.ioFlushStream t).phase u).Holds) : False := by
    rw [hphase] at hu
    split_ifs at hu with hut
    · exact hu
    · refine hut (h.alone ht ?_)
      cases hp : x.phase u with
      | inside r => trivial
      | parking op => trivial
      | resuming op => trivial
      | _ => simp [hp, rouse, Holds] at hu
  refine ⟨⟨h.valid.bound, Nat.zero_le _⟩, fun u op hu => absurd hu (hnobody u op),
    fun u hu => (hholds u hu).elim, fun u op hu => (hholds u (hu ▸ trivial)).elim, ?_⟩
  intro c u hu
  obtain ⟨op, hop, -⟩ := hu.asleep
  exact absurd hop (hnobody u op)

theorem restrategy {t : T} (ht : (x.phase t).Holds) {k : Counts} {c : Cond}
    (hused : k.qused = x.counts.qused) (hmax : k.qmax = x.counts.qmax)
    (hquiet : ∀ d, ¬(x.phase t).Brings d) :
    ({ x.unlocked.goes t (.signalling [.broadcast c]) with counts := k } : Crowd T).Inv := by
  have havail (d : Cond) : k.available d = x.counts.available d := by
    cases d <;> simp [Counts.available, hused, hmax]
  have hgoes : (x.unlocked.goes t (.signalling [.broadcast c])).Inv := by
    refine h.unlocked_goes ht id (fun _ hp => nomatch hp) (fun _ hd => hd) fun d u hu => .inr ?_
    exact h.kept hquiet d u hu
  refine ⟨⟨hmax ▸ h.valid.bound, hused ▸ hmax ▸ h.valid.used⟩, hgoes.sized, hgoes.exclusive,
    fun u op hu => havail op.cond ▸ hgoes.unmet u op hu, fun d u hu => hgoes.hopeful d u ?_⟩
  obtain ⟨op, hop, hc, hmin⟩ := hu.asleep
  rw [show (x.unlocked.goes t (.signalling [.broadcast c])).phase u = .asleep op from hop]
  exact ⟨hc, havail d ▸ hmin⟩

theorem starts {t : T} {r : Request} (ht : x.phase t = .idle)
    (hheeds : x.Heeds (.call t r)) : (x.start t r).Inv := by
  have hquiet (d : Cond) : ¬(x.phase t).Brings d := by
    rw [ht]
    exact id
  have henter (r : Request) : (x.goes t (.entering r)).Inv :=
    h.goes (fun u hu _ => h.exclusive u hu) (fun hp => hp.elim) (fun _ hp => nomatch hp)
      (fun _ hp => nomatch hp) (fun _ hd => hd) fun c u hu => .inr (h.kept hquiet c u hu)
  cases r with
  | transfer op =>
    simp only [start]
    split_ifs with hmode hput
    · exact h
    · have hlock : x.lock = none := hheeds hmode hput
      have hsame : x.unlocked = x := by
        rw [unlocked, ← hlock]
      rw [hsame]
      exact h
    · exact henter _
  | flush => exact henter _
  | setReadStrategy strategy =>
    simp only [start]
    split_ifs
    · exact h
    · exact henter _
  | setWriteStrategy strategy =>
    simp only [start]
    split_ifs
    · exact h
    · exact henter _

theorem locks {t : T} {p : Phase} (hlock : x.lock = none)
    (hsame : ∀ c, (x.phase t).Brings c → p.Brings c)
    (hp : ∀ op, p ≠ .asleep op ∧ p ≠ .parking op) :
    ({ x.goes t p with lock := some t } : Crowd T).Inv := by
  refine h.goes ?_ (fun _ => rfl) (fun op he => absurd he (hp op).1)
    (fun op he => absurd he (hp op).2) ?_ ?_
  · intro u hu _
    exact absurd (hlock.symm.trans (h.exclusive u hu)) (some_ne_none u).symm
  · intro c hd
    obtain ⟨op, he, -⟩ := hd.asleep
    exact (hp op).1 he
  · intro c u hu
    obtain ⟨v, hv⟩ := h.hopeful c u hu
    by_cases hvt : v = t
    · exact .inl (hsame c (hvt ▸ hv))
    · exact .inr ⟨v, hvt, hv⟩

theorem serves {t : T} {o : Supply} {r : Request} {y : Crowd T}
    (ht : x.phase t = .inside r) (ho : ∀ op, r = .transfer op → o.Lossless op.kind)
    (hy : x.serve t o r = some y) : y.Inv := by
  have hholds : (x.phase t).Holds := ht ▸ trivial
  have hquiet (d : Cond) : ¬(x.phase t).Brings d := by
    rw [ht]
    exact id
  cases r with
  | transfer op =>
    obtain ⟨v, hv, rfl⟩ := map_eq_some_iff.mp hy
    exact h.settle hholds (h.valid.judged_enter (ho op rfl) hv) (.inr (h.kept hquiet))
  | flush =>
    cases hy
    exact h.flush hholds
  | setReadStrategy strategy =>
    cases hy
    exact h.restrategy hholds rfl rfl hquiet
  | setWriteStrategy strategy =>
    cases hy
    exact h.restrategy hholds rfl rfl hquiet

theorem resumes {t : T} {i : Bool} {o : Supply} {op : Op} {v : Verdict}
    (ht : x.phase t = .resuming op) (ho : o.Lossless op.kind)
    (hrelays : x.counts.Fruitless op i o → x.Relays t op.cond)
    (hv : x.counts.resume op i o = some v) : (x.settle t op v).Inv := by
  obtain ⟨hj, hf⟩ := h.valid.judged_resume ho hv
  refine h.settle (ht ▸ trivial) hj ?_
  rcases hf with hf | hf
  · refine .inr fun c u hu => ?_
    by_cases hc : op.cond = c
    · subst hc
      exact hrelays hf u hu
    · obtain ⟨v, hv⟩ := h.hopeful c u hu
      refine ⟨v, ?_, hv⟩
      rintro rfl
      rw [ht] at hv
      exact hc hv
  · exact .inl hf

theorem parks {t : T} {op : Op} (ht : x.phase t = .parking op) (i : Bool) :
    (x.unlocked.goes t (if i then .idle else .asleep op)).Inv := by
  have hholds : (x.phase t).Holds := ht ▸ trivial
  have hlt := h.unmet t op ht
  have hquiet (d : Cond) : ¬(x.phase t).Brings d := by
    rw [ht]
    exact id
  cases i with
  | true =>
    exact h.unlocked_goes hholds id (fun _ hp => nomatch hp) (fun _ hd => hd)
      fun c u hu => .inr (h.kept hquiet c u hu)
  | false =>
    refine h.unlocked_goes hholds id ?_ ?_ fun c u hu => .inr (h.kept hquiet c u hu)
    · intro op' he
      cases he
      exact Nat.zero_lt_of_lt hlt
    · rintro c ⟨rfl, hmin⟩
      exact absurd hlt (Nat.not_lt.mpr hmin)

end

variable [Fintype T]

theorem sends (h : x.Inv) {t chosen : T} {w : Wake} {ws : List Wake} {y : Crowd T}
    (ht : x.phase t = .signalling (w :: ws)) (hy : x.send t chosen ws w = some y) : y.Inv := by
  have hself (c : Cond) : ¬(after ws).Sleeps c := by
    cases ws <;> exact id
  cases w with
  | signal c =>
    simp only [send] at hy
    split_ifs at hy with hsome hchosen
    · cases hy
      obtain ⟨op, hop, hc⟩ : ∃ op, x.phase chosen = .asleep op ∧ op.cond = c := by
        cases hp : x.phase chosen with
        | asleep op =>
          rw [hp] at hchosen
          exact ⟨op, rfl, hchosen⟩
        | _ =>
          rw [hp] at hchosen
          exact hchosen.elim
      have hne : chosen ≠ t := by
        rintro rfl
        rw [ht] at hop
        cases hop
      refine h.roused rfl rfl ht ?_ ?_ ?_
      · simp [Crowd.goes, update_of_ne hne.symm]
      · intro u hu
        by_cases huc : u = chosen
        · subst huc
          exact .inr ⟨op, hop, by simp [Crowd.goes, hop, rouse]⟩
        · exact .inl (by simp [Crowd.goes, update_of_ne huc, update_of_ne hu])
      · intro d hd
        obtain rfl : c = d := by simpa using hd
        refine .inr ⟨chosen, ?_⟩
        simp only [Crowd.goes, update_self, hop, rouse]
        exact hc
    · cases hy
      refine h.roused rfl rfl ht (update_self _ _ _)
        (fun u hu => .inl (update_of_ne hu _ _)) fun d hd => .inl fun u hu => ?_
      obtain rfl : c = d := by simpa using hd
      by_cases hut : u = t
      · subst hut
        simp only [Crowd.goes, update_self] at hu
        exact hself c hu
      · simp only [Crowd.goes, update_of_ne hut] at hu
        exact hsome ⟨u, hu⟩
  | broadcast c =>
    cases hy
    refine h.roused rfl rfl ht ?_ ?_ ?_
    · simp [wakeAll, Crowd.goes, hself]
    · intro u hu
      simp only [wakeAll, Crowd.goes, update_of_ne hu]
      cases hp : x.phase u with
      | asleep op =>
        by_cases hc : op.cond = c
        · exact .inr ⟨op, rfl, by simp [Sleeps, rouse, hc]⟩
        · exact .inl (by simp [Sleeps, hc])
      | _ => exact .inl rfl
    · intro d hd
      obtain rfl : c = d := by simpa using hd
      refine .inl fun u hu => ?_
      simp only [wakeAll] at hu
      split_ifs at hu with hs
      · cases hp : ((x.goes t (.after ws)).phase u) with
        | asleep op =>
          rw [hp] at hu
          exact hu
        | _ =>
          rw [hp] at hs
          exact hs
      · exact hs hu

theorem next (h : x.Inv) {e : Event T} {y : Crowd T} (he : x.Heeds e) (hy : x.next e = some y) :
    y.Inv := by
  cases e with
  | call t r =>
    simp only [Crowd.next] at hy
    split at hy
    next ht =>
      cases hy
      exact h.starts ht he
    next => cases hy
  | lock t =>
    simp only [Crowd.next] at hy
    split_ifs at hy with hlock
    split at hy
    next r ht =>
      cases hy
      refine h.locks hlock ?_ fun _ => ⟨Phase.noConfusion, Phase.noConfusion⟩
      intro c hb
      rw [ht] at hb
      exact hb.elim
    next op ht =>
      cases hy
      refine h.locks hlock ?_ fun _ => ⟨Phase.noConfusion, Phase.noConfusion⟩
      intro c hb
      rw [ht] at hb
      exact hb
    next => cases hy
  | act t i o =>
    simp only [Crowd.next] at hy
    simp only [Heeds] at he
    split at hy
    next r ht =>
      refine h.serves ht ?_ hy
      rintro op rfl
      rw [ht] at he
      exact he
    next op ht =>
      rw [ht] at he
      obtain ⟨v, hv, rfl⟩ := map_eq_some_iff.mp hy
      exact h.resumes ht he.1 he.2 hv
    next => cases hy
  | park t i =>
    simp only [Crowd.next] at hy
    split at hy
    next op ht =>
      cases hy
      exact h.parks ht i
    next => cases hy
  | wake t chosen =>
    simp only [Crowd.next] at hy
    split at hy
    next w ws ht => exact h.sends ht hy
    next => cases hy
  | shake t =>
    simp only [Crowd.next] at hy
    split at hy
    next op ht =>
      cases hy
      refine h.goes (fun u hu _ => h.exclusive u hu) (fun hp => hp.elim) (fun _ hp => nomatch hp)
        (fun _ hp => nomatch hp) (fun _ hd => hd) fun c u hu => .inr (h.kept ?_ c u hu)
      intro d
      rw [ht]
      exact id
    next => cases hy

end Inv

end Crowd

open Relation

namespace Supply

instance (kind : Kind) : ∀ o : Supply, Decidable (o.Lossless kind)
  | .outOfBlocks n =>
    decidable_of_iff (kind = .read → n = 0)
      ⟨fun h _ hk ho => by cases ho; exact h hk, fun h hk => h n hk rfl⟩
  | .enough => .isTrue fun _ _ ho => nomatch ho
  | .noMemory _ => .isTrue fun _ _ ho => nomatch ho
  | .notEnoughData => .isTrue fun _ _ ho => nomatch ho

end Supply

instance : ∀ (kind : Kind) (o : Supply), Decidable (kind.Fails o)
  | .read, .outOfBlocks _ | .write, .noMemory _ | .getbytes, .outOfBlocks _
  | .putbytes, .notEnoughData => .isTrue trivial
  | .read, .enough | .read, .noMemory _ | .read, .notEnoughData
  | .write, .enough | .write, .outOfBlocks _ | .write, .notEnoughData
  | .getbytes, .enough | .getbytes, .noMemory _ | .getbytes, .notEnoughData
  | .putbytes, .enough | .putbytes, .noMemory _ | .putbytes, .outOfBlocks _ => .isFalse id

instance (k : Counts) (op : Op) (i : Bool) (o : Supply) : Decidable (k.Fruitless op i o) :=
  inferInstanceAs (Decidable (_ ∨ _))

namespace Phase

instance (k : Counts) (c : Cond) : ∀ p : Phase, Decidable (p.Demands k c)
  | .asleep op => inferInstanceAs (Decidable (op.cond = c ∧ op.minimum ≤ k.available c))
  | .idle | .entering _ | .inside _ | .parking _ | .woken _ | .resuming _ | .signalling _ =>
    .isFalse id

instance (c : Cond) : ∀ p : Phase, Decidable (p.Brings c)
  | .woken op => inferInstanceAs (Decidable (op.cond = c))
  | .resuming op => inferInstanceAs (Decidable (op.cond = c))
  | .signalling ws => inferInstanceAs (Decidable (.signal c ∈ ws ∨ .broadcast c ∈ ws))
  | .idle | .entering _ | .inside _ | .parking _ | .asleep _ => .isFalse id

def rests : Phase → Bool
  | .asleep _ => true
  | _ => false

theorem asleep_of_rests {p : Phase} (h : p.rests = true) : ∃ op, p = .asleep op := by
  cases p with
  | asleep op => exact ⟨op, rfl⟩
  | _ => cases h

end Phase

namespace Crowd

variable {T : Type} [DecidableEq T] [Fintype T]

instance (x : Crowd T) (t : T) (c : Cond) : Decidable (x.Relays t c) :=
  inferInstanceAs (Decidable (∀ u, _ → ∃ v, v ≠ t ∧ _))

instance (x : Crowd T) : ∀ e : Event T, Decidable (x.Heeds e)
  | .call _ (.transfer op) =>
    inferInstanceAs (Decidable (¬Stream.invalidMode op.mode →
      op.kind = .putbytes ∧ ¬x.counts.Enabled .put → x.lock = none))
  | .call _ .flush | .call _ (.setReadStrategy _) | .call _ (.setWriteStrategy _) => .isTrue trivial
  | .act t i o =>
    match h : x.phase t with
    | .inside (.transfer op) =>
      decidable_of_iff (o.Lossless op.kind) (by simp only [Heeds, h])
    | .resuming op =>
      decidable_of_iff (o.Lossless op.kind ∧ (x.counts.Fruitless op i o → x.Relays t op.cond))
        (by simp only [Heeds, h])
    | .inside .flush | .inside (.setReadStrategy _) | .inside (.setWriteStrategy _)
    | .idle | .entering _ | .parking _ | .asleep _ | .woken _ | .signalling _ =>
      .isTrue (by simp only [Heeds, h])
  | .lock _ | .park _ _ | .wake _ _ | .shake _ => .isTrue trivial

theorem run_inv {qsize readstrat writestrat : UInt32} {x : Crowd T}
    (hrun : ReflTransGen (Under next Heeds) (create qsize readstrat writestrat) x) :
    x.Inv :=
  invariant (fun _ _ _ hx he hy => hx.next he hy) hrun (create_inv _ _ _)

end Crowd

theorem no_lost_wakeup {T : Type} [DecidableEq T] [Fintype T]
    (qsize readstrat writestrat : UInt32) (x : Crowd T)
    (hrun : ReflTransGen (Under Crowd.next Heeds)
      (create qsize readstrat writestrat) x) : ¬x.Stuck :=
  (run_inv hrun).not_stuck

namespace Sample

def waits {T : Type} (t : T) (kind : Kind) (num : UInt32) : List (Event T) :=
  [.call t (.transfer ⟨kind, iomWait, num⟩), .lock t, .act t false .enough, .park t false]

def writes {T : Type} (t u : T) : List (Event T) :=
  [.call t (.transfer ⟨.write, iomWait, 1⟩), .lock t, .act t false .enough, .wake t u, .wake t u]

def resumes {T : Type} (t : T) : List (Event T) :=
  [.lock t, .act t false .enough, .park t false]

def lone : List (Event (Fin 2)) :=
  waits 0 .read 3 ++ writes 1 0 ++ waits 1 .write 4 ++ resumes 0

def crowded : List (Event (Fin 3)) :=
  waits 0 .read 3 ++ waits 1 .getbytes 1 ++ writes 2 0 ++ waits 2 .write 4 ++ resumes 0

end Sample

theorem no_lost_wakeup_lone : ∃ x : Crowd (Fin 2), (∀ t, ∃ op, x.phase t = .asleep op) ∧
    x.counts.qused = 1 ∧ ¬x.Stuck := by
  have h : check Crowd.next (create 4 3 3) Sample.lone (fun x =>
      decide (∀ t, (x.phase t).rests = true) && decide (x.counts.qused = 1)) = true := by
    decide +kernel
  have hadmits : Admits Crowd.next Heeds (create 4 3 3) Sample.lone := by
    decide +kernel
  obtain ⟨x, hx, ht⟩ := exec_of_check h
  rw [Bool.and_eq_true, decide_eq_true_eq, decide_eq_true_eq] at ht
  exact ⟨x, fun t => asleep_of_rests (ht.1 t), ht.2,
    no_lost_wakeup 4 3 3 x (run_of_exec hadmits hx)⟩

theorem unmet_reader_swallows_wakeup : ∃ x : Crowd (Fin 3),
    ReflTransGen (Under Crowd.next Free) (create 4 3 3) x ∧ x.Stuck := by
  have h : check Crowd.next (create 4 3 3) Sample.crowded (fun x =>
      decide (∀ t, (x.phase t).rests = true) && decide ((x.phase 1).Demands x.counts .get)) =
      true := by
    decide +kernel
  obtain ⟨x, hx, ht⟩ := exec_of_check h
  rw [Bool.and_eq_true, decide_eq_true_eq, decide_eq_true_eq] at ht
  exact ⟨x, run_of_exec (free_admits _ _) hx, fun t => asleep_of_rests (ht.1 t), .get, 1, ht.2⟩

end MachUS.Io
