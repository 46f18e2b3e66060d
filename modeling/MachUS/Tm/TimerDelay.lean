import MachUS.Foundation.Word
import MachUS.Tm.TimerThreads

namespace MachUS.Tm

open Transition TimeValue Option

namespace TimeValue

def total (t : TimeValue) : ℤ := t.seconds * timeMicrosMax + t.microseconds

def Normal (t : TimeValue) : Prop := 0 ≤ t.microseconds ∧ t.microseconds < timeMicrosMax

structure Reading (t : TimeValue) : Prop where
  normal : t.Normal
  seconds : 0 ≤ t.seconds ∧ t.seconds < 2 ^ 31

def Fits (t now : TimeValue) : Prop := t.total + now.total < 2 ^ 31 * timeMicrosMax

def milliseconds (t : TimeValue) : ℤ :=
  ((t.seconds * 1000).bmod (2 ^ 32) + t.microseconds.tdiv 1000).bmod (2 ^ 32)

end TimeValue

structure Peek where
  time : TimeValue
  now : TimeValue
  delay : ℤ

structure Post where
  time : TimeValue
  now : TimeValue

inductive DelayPhase where
  | top
  | waiting
  | requeue (x : TimerValue)

structure DelayState where
  queue : List TimerValue
  phase : DelayPhase
  peeks : List Peek
  posts : List Post

inductive DelayEvent where
  | set (v : TimerValue) (now : TimeValue)
  | delete (i : ℕ)
  | peek (now : TimeValue)
  | wake (now : TimeValue)
  | requeue (now : TimeValue)

def timerInsert (x : TimerValue) : List TimerValue → List TimerValue
  | [] => [x]
  | cur :: q => if cur.time.later x.time then x :: cur :: q else cur :: timerInsert x q

namespace DelayState

def init : DelayState := ⟨[], .top, [], []⟩

def waits (p : Peek) : Bool := p.delay > 0

def next (s : DelayState) : DelayEvent → Option DelayState
  | .set v now =>
    match v.time.fix, v.interval.fix with
    | some time, some interval =>
      some { s with queue := timerInsert ⟨interval, time.relToAbs (some now)⟩ s.queue }
    | _, _ => some s
  | .delete i => some { s with queue := s.queue.eraseIdx i }
  | .peek now =>
    match s.phase, s.queue with
    | .top, x :: _ =>
      some { s with
        phase := .waiting
        peeks := ⟨x.time, now, (x.time.absToRel (some now)).milliseconds⟩ :: s.peeks }
    | _, _ => none
  | .wake now =>
    match s.phase, s.queue with
    | .waiting, [] => some { s with phase := .top }
    | .waiting, x :: q =>
      if now.earlier x.time then some { s with phase := .top }
      else some { s with
        queue := q
        phase := if x.interval.isSet then .requeue x else .top
        posts := ⟨x.time, now⟩ :: s.posts }
    | _, _ => none
  | .requeue now =>
    match s.phase with
    | .requeue x =>
      some { s with
        queue := timerInsert { x with time := x.interval.relToAbs (some now) } s.queue
        phase := .top }
    | _ => none

def Clocked (s : DelayState) : DelayEvent → Prop
  | .set v now => now.Reading ∧ ∀ t ∈ v.time.fix, t.Fits now
  | .delete _ => True
  | .peek now => now.Reading
  | .wake now => now.Reading
  | .requeue now => now.Reading ∧ ∀ x, s.phase = .requeue x → x.interval.Fits now

end DelayState

namespace TimeValue

variable {t now u : TimeValue}

theorem fix_spec (h : t.fix = some u) : u.Normal ∧ 0 ≤ u.seconds ∧ u.seconds ≤ timerMaxsec := by
  rw [fix] at h
  split_ifs at h with hbad hsmall
  · cases h
    simp only [Normal, timeMicrosMax, tick, timerMaxsec] at hbad ⊢
    omega
  · cases h
    simp only [Normal, timeMicrosMax, timerMaxsec] at hbad ⊢
    omega

theorem reading_iff {a b : ℤ} : Reading ⟨a, b⟩ ↔ (0 ≤ b ∧ b < timeMicrosMax) ∧ 0 ≤ a ∧ a < 2 ^ 31 :=
  ⟨fun h => ⟨h.normal, h.seconds⟩, fun h => ⟨h.1, h.2⟩⟩

theorem relToAbs_spec (ht : t.Normal) (h0 : 0 ≤ t.total + now.total) (hnow : now.Reading)
    (hfit : t.Fits now) :
    (t.relToAbs (some now)).Reading ∧ (t.relToAbs (some now)).total = t.total + now.total := by
  obtain ⟨⟨hm0, hm1⟩, hs⟩ := hnow
  obtain ⟨h1, h2⟩ := ht
  simp only [Fits, total, timeMicrosMax] at h0 h2 hm1 hfit
  have hsec : (t.seconds + now.seconds).bmod (2 ^ 32) = t.seconds + now.seconds :=
    Wrap.bmod_of_fit (w := 31) (by omega)
  have hmic : (t.microseconds + now.microseconds).bmod (2 ^ 32) =
      t.microseconds + now.microseconds := Wrap.bmod_of_fit (w := 31) (by omega)
  rw [relToAbs, hsec, hmic]
  by_cases hcarry : t.microseconds + now.microseconds ≥ timeMicrosMax
  · rw [if_pos hcarry]
    rw [timeMicrosMax] at hcarry
    rw [Wrap.bmod_of_fit (w := 31) (by omega), reading_iff]
    simp only [total, timeMicrosMax]
    omega
  · rw [if_neg hcarry]
    rw [timeMicrosMax] at hcarry
    rw [reading_iff]
    simp only [total, timeMicrosMax]
    omega

theorem absToRel_spec (ht : t.Reading) (hnow : now.Reading) :
    (t.absToRel (some now)).Normal ∧ (t.absToRel (some now)).total = t.total - now.total := by
  obtain ⟨⟨hm0, hm1⟩, hs⟩ := hnow
  obtain ⟨⟨ht0, ht1⟩, hts⟩ := ht
  simp only [timeMicrosMax] at hm1 ht1
  have hsec : (t.seconds - now.seconds).bmod (2 ^ 32) = t.seconds - now.seconds :=
    Wrap.bmod_of_fit (w := 31) (by omega)
  have hmic : (t.microseconds - now.microseconds).bmod (2 ^ 32) =
      t.microseconds - now.microseconds := Wrap.bmod_of_fit (w := 31) (by omega)
  rw [absToRel, hsec, hmic]
  by_cases hborrow : t.microseconds - now.microseconds < 0
  · rw [if_pos hborrow, Wrap.bmod_of_fit (w := 31) (by omega)]
    simp only [Normal, total, timeMicrosMax]
    omega
  · rw [if_neg hborrow]
    simp only [Normal, total, timeMicrosMax]
    omega

theorem ext_total (ht : t.Normal) (hu : u.Normal) (h : t.total = u.total) : t = u := by
  obtain ⟨ts, tm⟩ := t
  obtain ⟨us, um⟩ := u
  simp only [Normal, total, timeMicrosMax, mk.injEq] at *
  omega

theorem earlier_iff (ht : t.Normal) (hu : u.Normal) : t.earlier u = true ↔ t.total < u.total := by
  simp only [Normal, total, timeMicrosMax] at *
  simp only [earlier, cmp, Bool.or_eq_true, Bool.and_eq_true, decide_eq_true_eq]
  omega

theorem milliseconds_eq (ht : t.Normal) : t.milliseconds = (t.total / 1000).bmod (2 ^ 32) := by
  simp only [Normal, total, timeMicrosMax] at *
  rw [milliseconds, Int.tdiv_eq_ediv_of_nonneg ht.1, Int.bmod_add_bmod]
  congr 1
  omega

theorem Reading.total_nonneg (h : t.Reading) : 0 ≤ t.total := by
  have h0 := h.normal.1
  have h1 := h.seconds.1
  simp only [total, timeMicrosMax]
  omega

theorem total_nonneg_of_fix (h : t.fix = some u) : 0 ≤ u.total := by
  obtain ⟨h0, h1, -⟩ := fix_spec h
  have hmic := h0.1
  simp only [total, timeMicrosMax]
  omega

theorem absToRel_relToAbs (ht : t.Normal) (h0 : 0 ≤ t.total) (hnow : now.Reading)
    (hfit : t.Fits now) : (t.relToAbs (some now)).absToRel (some now) = t := by
  have hpos := hnow.total_nonneg
  obtain ⟨hread, htotal⟩ := relToAbs_spec ht (by omega) hnow hfit
  obtain ⟨hnormal, hdiff⟩ := absToRel_spec hread hnow
  exact ext_total hnormal ht (by omega)

theorem relToAbs_absToRel (ht : t.Reading) (hnow : now.Reading) :
    (t.absToRel (some now)).relToAbs (some now) = t := by
  obtain ⟨hnormal, hdiff⟩ := absToRel_spec ht hnow
  have hpos := ht.total_nonneg
  have hfit : (t.absToRel (some now)).Fits now := by
    have hm := ht.normal.2
    have hs := ht.seconds.2
    rw [Fits, hdiff]
    simp only [total, timeMicrosMax] at hm ⊢
    omega
  obtain ⟨hread, htotal⟩ := relToAbs_spec hnormal (by omega) hnow hfit
  exact ext_total hread.normal ht.normal (by omega)

end TimeValue

namespace DelayState

structure Sound (x : TimerValue) : Prop where
  time : x.time.Reading
  normal : x.interval.Normal
  interval : 0 ≤ x.interval.total

structure Sane (s : DelayState) : Prop where
  queue : ∀ x ∈ s.queue, Sound x
  requeue : ∀ x, s.phase = .requeue x → Sound x
  peeks : ∀ p ∈ s.peeks, p.delay = ((p.time.total - p.now.total) / 1000).bmod (2 ^ 32)
  posts : ∀ p ∈ s.posts, p.time.total ≤ p.now.total

structure Timely (s : DelayState) : Prop where
  normal : ∀ x ∈ s.queue, x.time.Normal
  delays : ∀ p ∈ s.peeks, p.delay = (p.time.total - p.now.total) / 1000 ∧
    p.delay * 1000 ≤ p.time.total - p.now.total
  waits : ∀ p ∈ s.peeks, 1000 ≤ p.time.total - p.now.total → waits p = true
  posts : ∀ p ∈ s.posts, p.time.total ≤ p.now.total

variable {s t : DelayState}

theorem mem_timerInsert {x y : TimerValue} {q : List TimerValue} (h : y ∈ timerInsert x q) :
    y = x ∨ y ∈ q := by
  induction q with
  | nil => simpa [timerInsert] using h
  | cons cur q ih =>
    rw [timerInsert] at h
    split_ifs at h
    · simpa using h
    · rcases List.mem_cons.mp h with rfl | h
      · simp
      · rcases ih h with h | h <;> simp [h]

theorem Sane.step {e : DelayEvent} (hs : s.Sane) (he : s.Clocked e) (h : s.next e = some t) :
    t.Sane := by
  cases e with
  | set v now =>
    rw [next] at h
    cases htime : v.time.fix with
    | none =>
      rw [htime] at h
      cases h
      exact hs
    | some time =>
      cases hinterval : v.interval.fix with
      | none =>
        rw [htime, hinterval] at h
        cases h
        exact hs
      | some interval =>
        rw [htime, hinterval] at h
        cases h
        obtain ⟨hnow, hfit⟩ := he
        have hpos := total_nonneg_of_fix htime
        have hnonneg := hnow.total_nonneg
        have hread := (relToAbs_spec (fix_spec htime).1 (by omega) hnow (hfit time htime)).1
        have hnew : Sound ⟨interval, time.relToAbs (some now)⟩ :=
          ⟨hread, (fix_spec hinterval).1, total_nonneg_of_fix hinterval⟩
        refine { hs with queue := fun x hx => ?_ }
        rcases mem_timerInsert hx with rfl | hx
        · exact hnew
        · exact hs.queue x hx
  | delete i =>
    cases h
    exact { hs with queue := fun x hx => hs.queue x (List.mem_of_mem_eraseIdx hx) }
  | peek now =>
    rw [next] at h
    split at h
    · rename_i x q hphase hq
      cases h
      have hx := hs.queue x (by simp [hq])
      obtain ⟨hnormal, htotal⟩ := absToRel_spec hx.time he
      refine { hs with requeue := by simp, peeks := fun p hp => ?_ }
      rcases List.mem_cons.mp hp with rfl | hp
      · rw [milliseconds_eq hnormal, htotal]
      · exact hs.peeks p hp
    · simp at h
  | wake now =>
    rw [next] at h
    split at h
    · cases h
      exact { hs with requeue := by simp }
    · rename_i x q hphase hq
      have hx := hs.queue x (by simp [hq])
      by_cases hearly : now.earlier x.time = true
      · rw [if_pos hearly] at h
        cases h
        exact { hs with requeue := by simp }
      · rw [if_neg hearly] at h
        cases h
        refine ⟨fun y hy => hs.queue y (by simp [hq, hy]), fun y hy => ?_, hs.peeks, fun p hp => ?_⟩
        · split_ifs at hy
          obtain rfl := DelayPhase.requeue.inj hy
          exact hx
        · rcases List.mem_cons.mp hp with rfl | hp
          · rw [earlier_iff he.normal hx.time.normal] at hearly
            exact not_lt.mp hearly
          · exact hs.posts p hp
    · simp at h
  | requeue now =>
    rw [next] at h
    split at h
    · rename_i x hphase
      cases h
      obtain ⟨hnow, hfit⟩ := he
      have hx := hs.requeue x hphase
      have hnonneg := hnow.total_nonneg
      have hpos := hx.interval
      have hread := (relToAbs_spec hx.normal (by omega) hnow (hfit x hphase)).1
      refine { hs with queue := fun y hy => ?_, requeue := by simp }
      rcases mem_timerInsert hy with rfl | hy
      · exact ⟨hread, hx.normal, hx.interval⟩
      · exact hs.queue y hy
    · simp at h

theorem sane_init : init.Sane := by
  constructor <;> simp [init]

theorem Sane.timely_iff (hs : s.Sane) :
    s.Timely ↔ ∀ p ∈ s.peeks, -2 ^ 31 ≤ (p.time.total - p.now.total) / 1000 ∧
      (p.time.total - p.now.total) / 1000 < 2 ^ 31 := by
  have hexact {p : Peek} (hp : p ∈ s.peeks) : p.delay = (p.time.total - p.now.total) / 1000 ↔
      -2 ^ 31 ≤ (p.time.total - p.now.total) / 1000 ∧
        (p.time.total - p.now.total) / 1000 < 2 ^ 31 := by
    rw [hs.peeks p hp]
    exact Wrap.bmod_eq_self_iff _
  constructor
  · intro h p hp
    exact (hexact hp).mp (h.delays p hp).1
  · intro h
    refine ⟨fun x hx => (hs.queue x hx).time.normal, fun p hp => ?_, fun p hp hrest => ?_, hs.posts⟩
    · have hdelay := (hexact hp).mpr (h p hp)
      refine ⟨hdelay, ?_⟩
      rw [hdelay]
      omega
    · have hdelay := (hexact hp).mpr (h p hp)
      rw [waits, decide_eq_true_iff, hdelay]
      omega

theorem timer_server_timely_iff (events : List DelayEvent) (s : DelayState)
    (hclock : Admits next Clocked init events) (hrun : exec next init events = some s) :
    (∀ (v t now : TimeValue), v.fix = some t → now.Reading → t.Fits now →
      (t.relToAbs (some now)).Normal ∧ (t.relToAbs (some now)).absToRel (some now) = t) ∧
    (∀ t now : TimeValue, t.Reading → now.Reading →
      (t.absToRel (some now)).Normal ∧ (t.absToRel (some now)).relToAbs (some now) = t) ∧
    (s.Timely ↔ ∀ p ∈ s.peeks, -2 ^ 31 ≤ (p.time.total - p.now.total) / 1000 ∧
      (p.time.total - p.now.total) / 1000 < 2 ^ 31) := by
  refine ⟨fun v t now hfix hnow hfit => ?_, fun t now ht hnow => ?_, ?_⟩
  · have hnormal := (fix_spec hfix).1
    have hpos := total_nonneg_of_fix hfix
    have hnonneg := hnow.total_nonneg
    exact ⟨(relToAbs_spec hnormal (by omega) hnow hfit).1.normal,
      absToRel_relToAbs hnormal hpos hnow hfit⟩
  · exact ⟨(absToRel_spec ht hnow).1, relToAbs_absToRel ht hnow⟩
  · exact (Transition.invariant (fun _ _ _ hs he h => hs.step he h) (run_of_exec hclock hrun)
      sane_init).timely_iff

theorem timer_server_timely_five_seconds :
    (∀ (v t now : TimeValue), v.fix = some t → now.Reading → t.Fits now →
      (t.relToAbs (some now)).Normal ∧ (t.relToAbs (some now)).absToRel (some now) = t) ∧
    (∀ t now : TimeValue, t.Reading → now.Reading →
      (t.absToRel (some now)).Normal ∧ (t.absToRel (some now)).relToAbs (some now) = t) ∧
    (Timely ⟨[], .top, [⟨⟨105, 7⟩, ⟨102, 500000⟩, 2500⟩], [⟨⟨105, 7⟩, ⟨105, 7⟩⟩]⟩ ↔
      ∀ p ∈ [(⟨⟨105, 7⟩, ⟨102, 500000⟩, 2500⟩ : Peek)],
        -2 ^ 31 ≤ (p.time.total - p.now.total) / 1000 ∧
          (p.time.total - p.now.total) / 1000 < 2 ^ 31) := by
  have hclock : Admits next Clocked init [.set ⟨.clear, ⟨5, 0⟩⟩ ⟨100, 7⟩, .peek ⟨102, 500000⟩,
      .wake ⟨105, 7⟩] := by
    refine ⟨⟨?_, ?_⟩, fun _ _ => ⟨?_, fun _ _ => ⟨?_, fun _ _ => trivial⟩⟩⟩
    · exact reading_iff.mpr (by decide)
    · intro t ht
      cases ht
      rw [Fits]
      decide
    · exact reading_iff.mpr (by decide)
    · exact reading_iff.mpr (by decide)
  exact timer_server_timely_iff _ ⟨[], .top, [⟨⟨105, 7⟩, ⟨102, 500000⟩, 2500⟩],
    [⟨⟨105, 7⟩, ⟨105, 7⟩⟩]⟩ hclock rfl

theorem long_timer_is_polled :
    ∃ events s, Admits next Clocked init events ∧ exec next init events = some s ∧ ¬s.Timely := by
  refine ⟨[.set ⟨.clear, ⟨3000000, 0⟩⟩ ⟨0, 0⟩, .peek ⟨0, 0⟩],
    ⟨[⟨.clear, ⟨3000000, 0⟩⟩], .waiting, [⟨⟨3000000, 0⟩, ⟨0, 0⟩, -1294967296⟩], []⟩, ?_, rfl,
    fun h => absurd (h.waits _ (List.mem_singleton_self _) (by decide)) (by decide)⟩
  refine ⟨⟨?_, ?_⟩, fun _ _ => ⟨?_, fun _ _ => trivial⟩⟩
  · exact reading_iff.mpr (by decide)
  · intro t ht
    cases ht
    rw [Fits]
    decide
  · exact reading_iff.mpr (by decide)

end DelayState

end MachUS.Tm
