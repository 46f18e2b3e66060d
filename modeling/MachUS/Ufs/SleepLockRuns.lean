import MachUS.Ufs.SleepLock
import Mathlib.Algebra.Order.BigOperators.Group.Finset

namespace MachUS.Ufs.SleepLock

open Function Phase Sys Bool Census

variable {T : Type} [DecidableEq T] [Fintype T] {s : Sys T} {t u : T} {p q : Phase} {l : Lock T}

namespace Phase

@[simp] theorem reads_woken (p : Phase) : p.woken.reads = p.reads := by
  cases p <;> rfl

@[simp] theorem wantsWrite_woken (p : Phase) : p.woken.wantsWrite = p.wantsWrite := by
  cases p <;> rfl

@[simp] theorem wantsUpgrade_woken (p : Phase) : p.woken.wantsUpgrade = p.wantsUpgrade := by
  cases p <;> rfl

@[simp] theorem asleep_woken (p : Phase) : p.woken.asleep = false := by
  cases p <;> rfl

theorem writes_iff : p.writes = true ↔ p = .writing ∨ p = .upgraded := by
  rw [writes, or_eq_true, decide_eq_true_eq, decide_eq_true_eq]

theorem woken_eq_writing (h : p.woken = .writing) : p = .writing := by
  cases p <;> first | rfl | cases h

theorem woken_eq_upgraded (h : p.woken = .upgraded) : p = .upgraded := by
  cases p <;> first | rfl | cases h

end Phase

structure Sound (s : Sys T) : Prop where
  thread : s.lock.thread = none
  depth : s.lock.recursionDepth = 0
  readers : s.lock.readCount = census reads s.phase
  writer : Flags wantsWrite s.lock.wantWrite s.phase
  upgrader : Flags wantsUpgrade s.lock.wantUpgrade s.phase
  writing : ∀ t, s.phase t = .writing → s.lock.readCount = 0 ∧ s.lock.wantUpgrade = false
  upgraded : ∀ t, s.phase t = .upgraded → s.lock.readCount = 0

omit [DecidableEq T] [Fintype T] in
def Alert (s : Sys T) : Prop :=
  ∀ t, (s.phase t).asleep = true → s.lock.waiting = true ∧ Blocked s.lock (s.phase t)

structure Steady (s : Sys T) : Prop extends Sound s where
  alert : Alert s

def Apart (p : Phase) : Prop := p.reads = false ∧ p.wantsWrite = false ∧ p.wantsUpgrade = false

omit [DecidableEq T] in
theorem Sound.wakeup (h : Sound s) (hwaiting : ∀ t, (s.phase t).asleep = true → s.lock.waiting = true) :
    Steady s.wakeup := by
  unfold Sys.wakeup
  split_ifs with hwait
  · refine ⟨⟨h.thread, h.depth, ?_, h.writer.congr (by simp), h.upgrader.congr (by simp),
      fun t ht => h.writing t (woken_eq_writing ht), fun t ht => h.upgraded t (woken_eq_upgraded ht)⟩, ?_⟩
    · have hsame : census reads (fun u => (s.phase u).woken) = census reads s.phase :=
        congr fun u => reads_woken (s.phase u)
      exact h.readers.trans (congrArg Nat.cast hsame.symm)
    · intro t ht
      rw [asleep_woken] at ht
      cases ht
  · exact ⟨h, fun t ht => (hwait (hwaiting t ht)).elim⟩

omit [Fintype T] in
theorem Alert.waiting (h : Alert s) (hq : q.asleep = false) :
    ∀ u, (update s.phase t q u).asleep = true → s.lock.waiting = true := by
  intro u hu
  rcases eq_or_ne u t with rfl | hne
  · rw [update_self, hq] at hu
    cases hu
  · rw [update_of_ne hne] at hu
    exact (h u hu).1

omit [Fintype T] in
theorem Alert.enter (h : Alert s) (hwaiting : l.waiting = s.lock.waiting)
    (hblocked : ∀ u, (s.phase u).asleep = true → Blocked s.lock (s.phase u) → Blocked l (s.phase u))
    (hq : q.asleep = false) : Alert ((⟨l, s.phase⟩ : Sys T).enter t q) := by
  intro u hu
  change (update s.phase t q u).asleep = true at hu
  change l.waiting = true ∧ Blocked l (update s.phase t q u)
  rcases eq_or_ne u t with rfl | hne
  · rw [update_self, hq] at hu
    cases hu
  · rw [update_of_ne hne] at hu ⊢
    obtain ⟨hwait, hreason⟩ := h u hu
    exact ⟨hwaiting.trans hwait, hblocked u hu hreason⟩

theorem Sound.enter (h : Sound s) (hreads : q.reads = (s.phase t).reads)
    (hwrite : q.wantsWrite = (s.phase t).wantsWrite) (hupgrade : q.wantsUpgrade = (s.phase t).wantsUpgrade)
    (hwriting : q = .writing → s.lock.readCount = 0 ∧ s.lock.wantUpgrade = false)
    (hupgraded : q = .upgraded → s.lock.readCount = 0) : Sound (s.enter t q) := by
  refine ⟨h.thread, h.depth, ?_, h.writer.same hwrite, h.upgrader.same hupgrade, ?_, ?_⟩
  · change s.lock.readCount = census reads (update s.phase t q)
    rw [same hreads]
    exact h.readers
  · intro u hu
    change update s.phase t q u = _ at hu
    rcases eq_or_ne u t with rfl | hne
    · rw [update_self] at hu
      exact hwriting hu
    · rw [update_of_ne hne] at hu
      exact h.writing u hu
  · intro u hu
    change update s.phase t q u = _ at hu
    rcases eq_or_ne u t with rfl | hne
    · rw [update_self] at hu
      exact hupgraded hu
    · rw [update_of_ne hne] at hu
      exact h.upgraded u hu

theorem Steady.wait (h : Steady s) (hreads : q.reads = (s.phase t).reads)
    (hwrite : q.wantsWrite = (s.phase t).wantsWrite) (hupgrade : q.wantsUpgrade = (s.phase t).wantsUpgrade)
    (hasleep : q.asleep = true) (hblocked : Blocked s.lock q) : Steady (s.wait t q) := by
  have hbut : ∀ p, Blocked s.lock p → Blocked { s.lock with waiting := true } p := by
    intro p hp
    cases p <;> exact hp
  have hsame : Sound ({ s with lock := { s.lock with waiting := true } } : Sys T) :=
    ⟨h.thread, h.depth, h.readers, h.writer, h.upgrader, h.writing, h.upgraded⟩
  refine ⟨hsame.enter hreads hwrite hupgrade ?_ ?_, fun u hu => ⟨rfl, ?_⟩⟩
  · rintro rfl
    cases hasleep
  · rintro rfl
    cases hasleep
  · change (update s.phase t q u).asleep = true at hu
    change Blocked { s.lock with waiting := true } (update s.phase t q u)
    rcases eq_or_ne u t with rfl | hne
    · rw [update_self]
      exact hbut q hblocked
    · rw [update_of_ne hne] at hu ⊢
      exact hbut _ (h.alert u hu).2

theorem Steady.drain (h : Steady s) (ht : ∃ b, s.phase t = .draining b) : Steady (s.drain t) := by
  obtain ⟨b, ht⟩ := ht
  unfold Sys.drain
  split_ifs with hblocked
  · exact h.wait (by rw [ht]; rfl) (by rw [ht]; rfl) (by rw [ht]; rfl) rfl hblocked
  · obtain ⟨hcount, hnone⟩ := not_or.mp hblocked
    refine ⟨h.enter (by rw [ht]; rfl) (by rw [ht]; rfl) (by rw [ht]; rfl) (fun _ => ?_) (by rintro ⟨⟩),
      h.alert.enter rfl (fun _ _ hu => hu) rfl⟩
    exact ⟨not_not.mp hcount, eq_false_of_not_eq_true hnone⟩

theorem Steady.upgrade (h : Steady s) (ht : ∃ b, s.phase t = .upgrading b) : Steady (s.upgrade t) := by
  obtain ⟨b, ht⟩ := ht
  unfold Sys.upgrade
  split_ifs with hblocked
  · exact h.wait (by rw [ht]; rfl) (by rw [ht]; rfl) (by rw [ht]; rfl) rfl hblocked
  · exact ⟨h.enter (by rw [ht]; rfl) (by rw [ht]; rfl) (by rw [ht]; rfl) (by rintro ⟨⟩)
      (fun _ => not_not.mp hblocked), h.alert.enter rfl (fun _ _ hu => hu) rfl⟩

theorem Sound.goes (h : Sound s) (hthread : l.thread = s.lock.thread)
    (hdepth : l.recursionDepth = s.lock.recursionDepth)
    (hreaders : l.readCount = census reads (update s.phase t q))
    (hwriter : Flags wantsWrite l.wantWrite (update s.phase t q))
    (hupgrader : Flags wantsUpgrade l.wantUpgrade (update s.phase t q))
    (hwriting : ∀ u, u ≠ t → s.phase u = .writing → l.readCount = 0 ∧ l.wantUpgrade = false)
    (hupgraded : ∀ u, u ≠ t → s.phase u = .upgraded → l.readCount = 0) (hq : q.writes = false) :
    Sound ((⟨l, s.phase⟩ : Sys T).enter t q) := by
  refine ⟨hthread.trans h.thread, hdepth.trans h.depth, hreaders, hwriter, hupgrader, ?_, ?_⟩
  all_goals
    intro u hu
    change update s.phase t q u = _ at hu
    rcases eq_or_ne u t with rfl | hne
    · rw [update_self] at hu
      rw [hu] at hq
      cases hq
    · rw [update_of_ne hne] at hu
      first
        | exact hwriting u hne hu
        | exact hupgraded u hne hu

omit [DecidableEq T] in
theorem Sound.count_ne_zero (h : Sound s) (ht : s.phase t = .reading) : s.lock.readCount ≠ 0 := by
  have hsome : census reads s.phase ≠ 0 := ne_zero (a := t) (by rw [ht]; rfl)
  rw [h.readers]
  exact_mod_cast hsome

omit [DecidableEq T] in
theorem Sound.writes_alone (h : Sound s) (ht : (s.phase t).writes = true) (hu : (s.phase u).writes = true) :
    t = u := by
  have hclash : ∀ v w, s.phase v = .writing → s.phase w ≠ .upgraded := by
    intro v w hv hw
    have hup := h.upgrader.up (a := w) (by rw [hw]; rfl)
    exact false_ne_true ((h.writing v hv).2.symm.trans hup)
  rcases writes_iff.mp ht with ht | ht <;> rcases writes_iff.mp hu with hu | hu
  · exact h.writer.unique (by rw [ht]; rfl) (by rw [hu]; rfl)
  · exact (hclash t u ht hu).elim
  · exact (hclash u t hu ht).elim
  · exact h.upgrader.unique (by rw [ht]; rfl) (by rw [hu]; rfl)

omit [DecidableEq T] in
theorem Sound.writes_count (h : Sound s) (ht : (s.phase t).writes = true) : s.lock.readCount = 0 := by
  rcases writes_iff.mp ht with ht | ht
  · exact (h.writing t ht).1
  · exact h.upgraded t ht

theorem Steady.claim (h : Steady s) (ht : Apart (s.phase t)) (hfree : s.lock.wantWrite = false) :
    Steady ((⟨{ s.lock with wantWrite := true }, s.phase⟩ : Sys T).enter t (.draining false)) := by
  obtain ⟨hreads, hwrite, hupgrade⟩ := ht
  have hwriter : Flags wantsWrite false s.phase := hfree ▸ h.writer
  refine ⟨h.goes rfl rfl ?_ (hwriter.take rfl) (h.upgrader.same hupgrade.symm) (fun u _ => h.writing u)
    (fun u _ => h.upgraded u) rfl, h.alert.enter rfl (fun u _ hblocked => ?_) rfl⟩
  · rw [same hreads.symm]
    exact h.readers
  · cases hphase : s.phase u with
    | wanting b => exact rfl
    | entering b => exact .inl rfl
    | _ =>
      rw [hphase] at hblocked
      exact hblocked

theorem Steady.ask (h : Steady s) (ht : s.phase t = .reading) (hfree : s.lock.wantUpgrade = false) :
    Steady ((⟨{ s.lock with wantUpgrade := true, readCount := s.lock.readCount - 1 }, s.phase⟩ : Sys T).enter t
      (.upgrading false)) := by
  have hupgrader : Flags wantsUpgrade false s.phase := hfree ▸ h.upgrader
  have hcount := h.count_ne_zero ht
  have hnone : ∀ u, (s.phase u).wantsUpgrade = false := fun u =>
    eq_false_of_not_eq_true fun hu => false_ne_true (hupgrader.up hu)
  refine ⟨h.goes rfl rfl ?_ (h.writer.same (by rw [ht]; rfl)) (hupgrader.take rfl) ?_ ?_ rfl,
    h.alert.enter rfl (fun u _ hblocked => ?_) rfl⟩
  · have hleft : census reads (update s.phase t (.upgrading false)) + 1 =
        census reads s.phase := Census.leave (by rw [ht]; rfl) rfl
    have hreaders := h.readers
    change s.lock.readCount - 1 = _
    omega
  · exact fun u _ hu => (hcount (h.writing u hu).1).elim
  · exact fun u _ hu => (hcount (h.upgraded u hu)).elim
  · cases hphase : s.phase u with
    | draining b => exact .inr rfl
    | entering b => exact .inr rfl
    | upgrading b =>
      have hu := hnone u
      rw [hphase] at hu
      cases hu
    | _ =>
      rw [hphase] at hblocked
      exact hblocked

theorem Sound.letIn (h : Sound s) (ht : Apart (s.phase t)) (hnone : ∀ u, (s.phase u).writes = false) :
    Sound (s.letIn t) := by
  obtain ⟨hreads, hwrite, hupgrade⟩ := ht
  have hwriter : ∀ u, s.phase u ≠ .writing ∧ s.phase u ≠ .upgraded := by
    intro u
    have hu := hnone u
    constructor
    all_goals
      intro hphase
      rw [hphase] at hu
      cases hu
  refine h.goes rfl rfl ?_ (h.writer.same hwrite.symm) (h.upgrader.same hupgrade.symm)
    (fun u _ hu => ((hwriter u).1 hu).elim) (fun u _ hu => ((hwriter u).2 hu).elim) rfl
  rw [join hreads rfl]
  rw [h.readers]
  rfl

theorem Steady.letIn (h : Steady s) (ht : Apart (s.phase t)) (hnone : ∀ u, (s.phase u).writes = false) :
    Steady (s.letIn t) := by
  have hcount : s.lock.readCount + 1 ≠ 0 := by
    rw [h.readers]
    omega
  refine ⟨h.toSound.letIn ht hnone, h.alert.enter rfl (fun u _ hblocked => ?_) rfl⟩
  cases hphase : s.phase u with
  | draining b => exact .inl hcount
  | upgrading b => exact hcount
  | _ =>
    rw [hphase] at hblocked
    exact hblocked

theorem Steady.leave (h : Steady s) (ht : s.phase t = .reading) :
    Sound ((⟨{ s.lock with readCount := s.lock.readCount - 1 }, s.phase⟩ : Sys T).enter t .idle) := by
  have hcount := h.count_ne_zero ht
  refine h.goes rfl rfl ?_ (h.writer.same (by rw [ht]; rfl)) (h.upgrader.same (by rw [ht]; rfl)) ?_ ?_ rfl
  · have hleft : census reads (update s.phase t .idle) + 1 = census reads s.phase :=
      Census.leave (by rw [ht]; rfl) rfl
    have hreaders := h.readers
    change s.lock.readCount - 1 = _
    omega
  · exact fun u _ hu => (hcount (h.writing u hu).1).elim
  · exact fun u _ hu => (hcount (h.upgraded u hu)).elim

omit [DecidableEq T] in
theorem Sound.letGo_writing (h : Sound s) (ht : s.phase t = .writing) :
    Sys.letGo s.lock = { s.lock with wantWrite := false } := by
  rw [Sys.letGo, if_neg (by simp [h.depth]), if_neg (by simp [(h.writing t ht).2])]

omit [DecidableEq T] in
theorem Sound.letGo_upgraded (h : Sound s) (ht : s.phase t = .upgraded) :
    Sys.letGo s.lock = { s.lock with wantUpgrade := false } := by
  have hup : s.lock.wantUpgrade = true := h.upgrader.up (a := t) (by rw [ht]; rfl)
  rw [Sys.letGo, if_neg (by simp [h.depth]), if_pos hup]

theorem Steady.letGo (h : Steady s) (ht : (s.phase t).writes = true) :
    Sound ((⟨Sys.letGo s.lock, s.phase⟩ : Sys T).enter t .idle) ∧
      (Sys.letGo s.lock).waiting = s.lock.waiting ∧
      ∀ u, (update s.phase t .idle u).writes = false := by
  have hnone : ∀ u, (update s.phase t .idle u).writes = false := by
    intro u
    rcases eq_or_ne u t with rfl | hne
    · rw [update_self]
      rfl
    · rw [update_of_ne hne]
      exact eq_false_of_not_eq_true fun hu => hne (h.writes_alone hu ht)
  have hreaders : (s.phase t).reads = false := by
    rcases writes_iff.mp ht with ht | ht
    all_goals
      rw [ht]
      rfl
  have hother : ∀ u, u ≠ t → (s.phase u).writes = false := by
    intro u hne
    have hu := hnone u
    rwa [update_of_ne hne] at hu
  have hwriting : ∀ u, u ≠ t → s.phase u ≠ .writing := fun u hne hu =>
    false_ne_true ((hother u hne).symm.trans (writes_iff.mpr (.inl hu)))
  have hupgraded : ∀ u, u ≠ t → s.phase u ≠ .upgraded := fun u hne hu =>
    false_ne_true ((hother u hne).symm.trans (writes_iff.mpr (.inr hu)))
  have hsame : s.lock.readCount = census reads (update s.phase t .idle) := by
    rw [same hreaders.symm]
    exact h.readers
  rcases writes_iff.mp ht with ht | ht
  · rw [h.letGo_writing ht]
    exact ⟨h.goes rfl rfl hsame (h.writer.free (by rw [ht]; rfl) rfl) (h.upgrader.same (by rw [ht]; rfl))
      (fun u hne hu => (hwriting u hne hu).elim) (fun u hne hu => (hupgraded u hne hu).elim) rfl, rfl, hnone⟩
  · rw [h.letGo_upgraded ht]
    exact ⟨h.goes rfl rfl hsame (h.writer.same (by rw [ht]; rfl)) (h.upgrader.free (by rw [ht]; rfl) rfl)
      (fun u hne hu => (hwriting u hne hu).elim) (fun u hne hu => (hupgraded u hne hu).elim) rfl, rfl, hnone⟩

theorem Steady.lockDone (h : Steady s) (ht : s.phase t = .reading ∨ (s.phase t).writes = true) :
    Steady (s.lockDone t) := by
  unfold Sys.lockDone
  rcases ht with ht | ht
  · rw [if_pos (h.count_ne_zero ht)]
    exact (h.leave ht).wakeup (h.alert.waiting rfl)
  · rw [if_neg (not_not.mpr (h.writes_count ht))]
    obtain ⟨hgone, hwaiting, -⟩ := h.letGo ht
    refine hgone.wakeup fun u hu => ?_
    change (Sys.letGo s.lock).waiting = true
    rw [hwaiting]
    exact h.alert.waiting rfl u hu

omit [DecidableEq T] [Fintype T] in
theorem letGo_count (l : Lock T) (n : ℤ) :
    Sys.letGo { l with readCount := n } = { Sys.letGo l with readCount := n } := by
  unfold Sys.letGo
  split_ifs <;> rfl

omit [DecidableEq T] [Fintype T] in
theorem readCount_letGo (l : Lock T) : (Sys.letGo l).readCount = l.readCount := by
  unfold Sys.letGo
  split_ifs <;> rfl

theorem Steady.lockWriteToRead (h : Steady s) (ht : (s.phase t).writes = true) :
    Steady (s.lockWriteToRead t) := by
  obtain ⟨hgone, hwaiting, hnone⟩ := h.letGo ht
  have hidle : ((⟨Sys.letGo s.lock, s.phase⟩ : Sys T).enter t .idle).phase t = .idle :=
    update_self _ _ _
  have hletIn := hgone.letIn (t := t) (by rw [hidle]; exact ⟨rfl, rfl, rfl⟩) hnone
  have heq : (⟨Sys.letGo { s.lock with readCount := s.lock.readCount + 1 }, s.phase⟩ : Sys T).enter t .reading =
      ((⟨Sys.letGo s.lock, s.phase⟩ : Sys T).enter t .idle).letIn t := by
    rw [letGo_count, ← readCount_letGo]
    simp only [Sys.letIn, Sys.enter, update_idem]
  unfold Sys.lockWriteToRead
  rw [heq]
  refine hletIn.wakeup fun u hu => ?_
  rw [← heq] at hu
  change (Sys.letGo s.lock).waiting = true
  rw [hwaiting]
  exact h.alert.waiting (q := .reading) rfl u hu

omit [Fintype T] in
theorem drain_enter (s : Sys T) (t : T) (p : Phase) : (s.enter t p).drain t = s.drain t := by
  simp only [Sys.drain, wait, Sys.enter, update_idem]

omit [Fintype T] in
theorem upgrade_enter (s : Sys T) (t : T) (p : Phase) : (s.enter t p).upgrade t = s.upgrade t := by
  simp only [Sys.upgrade, wait, Sys.enter, update_idem]

omit [DecidableEq T] in
theorem Sound.not_recursive (h : Sound s) (t : T) : s.lock.thread ≠ some t := by
  rw [h.thread]
  exact (Option.some_ne_none t).symm

theorem Steady.want (h : Steady s) (ht : Apart (s.phase t)) : Steady (s.want t) := by
  obtain ⟨hreads, hwrite, hupgrade⟩ := ht
  unfold Sys.want
  split_ifs with htaken
  · exact h.wait hreads.symm hwrite.symm hupgrade.symm rfl htaken
  · rw [← drain_enter _ _ (.draining false)]
    refine (h.claim ⟨hreads, hwrite, hupgrade⟩ (eq_false_of_not_eq_true htaken)).drain ⟨false, ?_⟩
    exact update_self _ _ _

theorem Steady.tryWrite (h : Steady s) (ht : Apart (s.phase t)) : Steady (s.lockTryWrite t).1 := by
  unfold lockTryWrite
  rw [if_neg (h.not_recursive t)]
  split_ifs with hheld
  · exact h
  · obtain ⟨htaken, hrest⟩ := not_or.mp hheld
    have hfree : ¬ (s.lock.readCount ≠ 0 ∨ s.lock.wantUpgrade = true) := fun hor => hrest hor.symm
    have hdone : ({ s with lock := { s.lock with wantWrite := true } } : Sys T).drain t =
        ({ s with lock := { s.lock with wantWrite := true } } : Sys T).enter t .writing := if_neg hfree
    rw [← hdone, ← drain_enter _ _ (.draining false)]
    refine (h.claim ht (eq_false_of_not_eq_true htaken)).drain ⟨false, ?_⟩
    exact update_self _ _ _

omit [DecidableEq T] in
theorem Sound.unheld (h : Sound s) (hfree : ¬ (s.lock.wantWrite = true ∨ s.lock.wantUpgrade = true)) (u : T) :
    (s.phase u).writes = false := by
  refine eq_false_of_not_eq_true fun hu => hfree ?_
  rcases writes_iff.mp hu with hu | hu
  · exact .inl (h.writer.up (a := u) (by rw [hu]; rfl))
  · exact .inr (h.upgrader.up (a := u) (by rw [hu]; rfl))

theorem Steady.queueUp (h : Steady s) (ht : Apart (s.phase t)) : Steady (s.queueUp t) := by
  unfold Sys.queueUp
  split_ifs with hheld
  · obtain ⟨hreads, hwrite, hupgrade⟩ := ht
    exact h.wait hreads.symm hwrite.symm hupgrade.symm rfl hheld
  · exact h.letIn ht (h.unheld hheld)

theorem Steady.tryRead (h : Steady s) (ht : Apart (s.phase t)) : Steady (s.lockTryRead t).1 := by
  unfold lockTryRead
  rw [if_neg (h.not_recursive t)]
  split_ifs with hheld
  · exact h
  · exact h.letIn ht (h.unheld hheld)

theorem Steady.tryUpgrade (h : Steady s) (ht : s.phase t = .reading) : Steady (s.lockTryReadToWrite t).1 := by
  unfold lockTryReadToWrite
  rw [if_neg (h.not_recursive t)]
  split_ifs with hasked
  · exact h
  · rw [← upgrade_enter _ _ (.upgrading false)]
    exact (h.ask ht (eq_false_of_not_eq_true hasked)).upgrade ⟨false, update_self _ _ _⟩

theorem Steady.readToWrite (h : Steady s) (ht : s.phase t = .reading) : Steady (s.lockReadToWrite t).1 := by
  unfold lockReadToWrite
  rw [if_neg (h.not_recursive t)]
  split_ifs with hasked
  · exact (h.leave ht).wakeup (h.alert.waiting rfl)
  · rw [← upgrade_enter _ _ (.upgrading false)]
    exact (h.ask ht (eq_false_of_not_eq_true hasked)).upgrade ⟨false, update_self _ _ _⟩

omit [Fintype T] in
theorem next_cases {c : Call} {s' : Sys T} (hstep : next s (t, c) = some s') :
    s.phase t = .idle ∧ (s' = s.lockWrite t ∨ s' = s.lockRead t ∨ s' = (s.lockTryWrite t).1 ∨
      s' = (s.lockTryRead t).1) ∨
    (s.phase t = .reading ∨ (s.phase t).writes = true) ∧ s' = s.lockDone t ∨
    s.phase t = .reading ∧ (s' = (s.lockReadToWrite t).1 ∨ s' = (s.lockTryReadToWrite t).1) ∨
    (s.phase t).writes = true ∧ s' = s.lockWriteToRead t ∨
    s.phase t = .wanting false ∧ s' = s.want t ∨
    s.phase t = .draining false ∧ s' = s.drain t ∨
    s.phase t = .entering false ∧ s' = s.queueUp t ∨
    s.phase t = .upgrading false ∧ s' = s.upgrade t := by
  unfold next at hstep
  simp only at hstep
  split at hstep
  case h_16 => cases hstep
  all_goals
    rename_i hphase
    rw [hphase, ← Option.some.inj hstep]
    simp [writes]

theorem Steady.next {c : Call} {s' : Sys T} (h : Steady s) (hstep : next s (t, c) = some s') : Steady s' := by
  have hapart : ∀ p, s.phase t = p → Apart p → Apart (s.phase t) := fun p hp hsame => hp ▸ hsame
  rcases next_cases hstep with ⟨ht, hcall⟩ | ⟨ht, rfl⟩ | ⟨ht, rfl | rfl⟩ | ⟨ht, rfl⟩ | ⟨ht, rfl⟩ | ⟨ht, rfl⟩ |
      ⟨ht, rfl⟩ | ⟨ht, rfl⟩
  · have hidle := hapart _ ht ⟨rfl, rfl, rfl⟩
    rcases hcall with rfl | rfl | rfl | rfl
    · rw [lockWrite, if_neg (h.not_recursive t)]
      exact h.want hidle
    · rw [lockRead, if_neg (h.not_recursive t)]
      exact h.queueUp hidle
    · exact h.tryWrite hidle
    · exact h.tryRead hidle
  · exact h.lockDone ht
  · exact h.readToWrite ht
  · exact h.tryUpgrade ht
  · exact h.lockWriteToRead ht
  · exact h.want (hapart _ ht ⟨rfl, rfl, rfl⟩)
  · exact h.drain ⟨false, ht⟩
  · exact h.queueUp (hapart _ ht ⟨rfl, rfl, rfl⟩)
  · exact h.upgrade ⟨false, ht⟩

omit [DecidableEq T] in
theorem init_steady : Steady (init : Sys T) := by
  refine ⟨⟨rfl, rfl, ?_, .down fun _ => rfl, .down fun _ => rfl, by rintro t ⟨⟩, by rintro t ⟨⟩⟩, by rintro t ⟨⟩⟩
  have hnone : census reads (fun _ : T => idle) = 0 := eq_zero fun _ => rfl
  exact (congrArg Nat.cast hnone).symm

omit [DecidableEq T] in
theorem Sound.counted (h : Sound s) : Counted s := ⟨h.readers, h.writer.up_iff, h.upgrader.up_iff⟩

omit [DecidableEq T] [Fintype T] in
theorem wakeup_idle (ht : s.phase t = .idle) : s.wakeup.phase t = .idle := by
  unfold Sys.wakeup
  split_ifs
  · change (s.phase t).woken = .idle
    rw [ht]
    rfl
  · exact ht

theorem Sound.failed (h : Sound s) (hfailed : (s.lockReadToWrite t).2 = true) :
    (s.lockReadToWrite t).1.phase t = .idle := by
  unfold lockReadToWrite at hfailed ⊢
  rw [if_neg (h.not_recursive t)] at hfailed ⊢
  split_ifs at hfailed ⊢
  exact wakeup_idle (update_self _ _ _)

theorem Steady.safe (h : Steady s) : Safe s :=
  ⟨h.counted, fun _ _ => h.writes_alone, fun _ _ ht hu => h.count_ne_zero hu (h.writes_count ht),
    fun _ _ => h.upgrader.unique, fun _ ht hfailed => ⟨h.failed hfailed, (h.readToWrite ht).counted⟩,
    fun t ht => (h.alert t ht).2⟩

theorem lock_safe (acts : List (T × Call)) : Transition.Throughout next Safe (init : Sys T) acts := by
  suffices h : ∀ s : Sys T, Steady s → Transition.Throughout next Safe s acts from h _ init_steady
  induction acts with
  | nil => exact fun s h => h.safe
  | cons e acts ih => exact fun s h => ⟨h.safe, fun s' hstep => ih s' (h.next hstep)⟩

example : Transition.check next (init : Sys Bool)
    [(true, .read), (false, .write), (true, .readToWrite), (true, .done), (false, .resume)]
    (fun s => s.phase false = .writing ∧ s.phase true = .idle) = true := by
  decide

def Phase.steps : Phase → ℕ
  | .idle => 0
  | .reading | .writing | .upgraded => 1
  | _ => 2

omit [DecidableEq T] in
def left (s : Sys T) : ℕ := ∑ t, (s.phase t).steps

omit [Fintype T] [DecidableEq T] in
theorem steps_wakeup (s : Sys T) (u : T) : (s.wakeup.phase u).steps = (s.phase u).steps := by
  unfold Sys.wakeup
  split_ifs
  · change ((s.phase u).woken).steps = _
    cases s.phase u <;> rfl
  · rfl

theorem left_lt {s' : Sys T} (h : ∀ u, (s'.phase u).steps = (update s.phase t q u).steps)
    (hq : q.steps < (s.phase t).steps) : left s' < left s := by
  have hle (u : T) : (s'.phase u).steps ≤ (s.phase u).steps := by
    rw [h]
    rcases eq_or_ne u t with rfl | hne
    · rw [update_self]
      exact Nat.le_of_lt hq
    · rw [update_of_ne hne]
  refine Finset.sum_lt_sum (fun u _ => hle u) ⟨t, Finset.mem_univ t, ?_⟩
  rw [h, update_self]
  exact hq

def Serves (_ : Sys T) (e : T × Call) : Prop := e.2 = .done ∨ e.2 = .resume

def Served (s : Sys T) : Prop := ∃ e s', Serves s e ∧ next s e = some s' ∧ Steady s' ∧ left s' < left s

theorem Steady.served (h : Steady s) (s' : Sys T) (hs : SleepLock.next s (t, .resume) = some s')
    (hphase : s'.phase = update s.phase t q) (hold : s.phase t = p) (hq : q.steps < p.steps) :
    Served s :=
  ⟨_, s', .inr rfl, hs, h.next hs, left_lt (fun u => by rw [hphase]) (hold ▸ hq)⟩

theorem Steady.serves (h : Steady s) : (∀ t, s.phase t = .idle) ∨ Served s := by
  by_cases hheld : ∃ t, s.phase t = .reading ∨ (s.phase t).writes = true
  · obtain ⟨t, ht⟩ := hheld
    obtain ⟨hone, hdone⟩ : (s.phase t).steps = 1 ∧ SleepLock.next s (t, .done) = some (s.lockDone t) := by
      rcases ht with ht | ht
      · simp [steps, SleepLock.next, ht]
      · rcases writes_iff.mp ht with ht | ht <;> simp [steps, SleepLock.next, ht]
    exact .inr ⟨(t, .done), _, .inl rfl, hdone, h.next hdone,
      left_lt (t := t) (q := .idle) (fun u => steps_wakeup _ u) (hone ▸ Nat.zero_lt_one)⟩
  have hheld : ∀ t, s.phase t ≠ .reading ∧ (s.phase t).writes ≠ true :=
    fun t => not_or.mp fun ht => hheld ⟨t, ht⟩
  have hcount : s.lock.readCount = 0 := by
    have hnone : census reads s.phase = 0 := eq_zero fun t => decide_eq_false (hheld t).1
    rw [h.readers, hnone]
    rfl
  have hawake (t : T) (hreason : ¬Blocked s.lock (s.phase t)) : (s.phase t).asleep = false :=
    eq_false_of_not_eq_true fun ht => hreason (h.alert t ht).2
  by_cases hupgrade : ∃ t b, s.phase t = .upgrading b
  · obtain ⟨t, b, ht⟩ := hupgrade
    have hb := hawake t (by rw [ht]; exact not_not.mpr hcount)
    rw [ht] at hb
    obtain rfl : b = false := hb
    refine .inr (h.served (s.upgrade t) (q := .upgraded) (by simp [SleepLock.next, ht]) ?_ ht (by decide))
    rw [Sys.upgrade, if_neg (not_not.mpr hcount), Sys.enter]
  have hup : s.lock.wantUpgrade = false := by
    refine eq_false_of_not_eq_true fun hwant => ?_
    obtain ⟨t, ht⟩ := h.upgrader.up_iff.mp hwant
    cases hphase : s.phase t with
    | upgrading b => exact hupgrade ⟨t, b, hphase⟩
    | upgraded => exact (hheld t).2 (by rw [hphase]; rfl)
    | _ => simp [hphase, wantsUpgrade] at ht
  have hfree : ¬(s.lock.readCount ≠ 0 ∨ s.lock.wantUpgrade = true) := by simp [hcount, hup]
  by_cases hdrain : ∃ t b, s.phase t = .draining b
  · obtain ⟨t, b, ht⟩ := hdrain
    have hb := hawake t (by rw [ht]; exact hfree)
    rw [ht] at hb
    obtain rfl : b = false := hb
    refine .inr (h.served (s.drain t) (q := .writing) (by simp [SleepLock.next, ht]) ?_ ht (by decide))
    rw [Sys.drain, if_neg hfree, Sys.enter]
  have hwrite : s.lock.wantWrite = false := by
    refine eq_false_of_not_eq_true fun hwant => ?_
    obtain ⟨t, ht⟩ := h.writer.up_iff.mp hwant
    cases hphase : s.phase t with
    | draining b => exact hdrain ⟨t, b, hphase⟩
    | writing => exact (hheld t).2 (by rw [hphase]; rfl)
    | _ => simp [hphase, wantsWrite] at ht
  by_cases hidle : ∀ t, s.phase t = .idle
  · exact .inl hidle
  push Not at hidle
  obtain ⟨t, hbusy⟩ := hidle
  right
  have hb := hawake t
  cases hphase : s.phase t with
  | wanting b =>
    rw [hphase] at hb
    obtain rfl : b = false := hb (by simp [Blocked, hwrite])
    refine h.served (s.want t) (q := .writing) (by simp [SleepLock.next, hphase]) ?_ hphase (by decide)
    rw [Sys.want, hwrite, if_neg Bool.false_ne_true, Sys.drain, if_neg hfree, Sys.enter]
  | entering b =>
    rw [hphase] at hb
    obtain rfl : b = false := hb (by simp [Blocked, hwrite, hup])
    refine h.served (s.queueUp t) (q := .reading) (by simp [SleepLock.next, hphase]) ?_ hphase (by decide)
    rw [Sys.queueUp, if_neg (by simp [hwrite, hup]), Sys.letIn, Sys.enter]
  | idle => exact absurd hphase hbusy
  | reading => exact absurd hphase (hheld t).1
  | writing | upgraded => exact absurd (by rw [hphase]; rfl) (hheld t).2
  | draining b => exact absurd ⟨t, b, hphase⟩ hdrain
  | upgrading b => exact absurd ⟨t, b, hphase⟩ hupgrade

def Drains (s : Sys T) : Prop :=
  ∃ s', Relation.ReflTransGen (Transition.Under next Serves) s s' ∧ ∀ t, s'.phase t = .idle

theorem lock_never_deadlocks (acts : List (T × Call)) :
    Transition.Throughout next Drains (init : Sys T) acts :=
  Transition.throughout (fun _ => Transition.drains left fun _ => Steady.serves)
    (fun _ _ _ => Steady.next) init_steady acts

end MachUS.Ufs.SleepLock
