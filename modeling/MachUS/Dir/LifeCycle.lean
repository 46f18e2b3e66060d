import MachUS.Dir.Directory

namespace MachUS.Dir

open Transition Option Or

namespace TmpProp

variable {τ : Type} {p q : TmpProp τ}

structure LifeCycle (p : TmpProp τ) : Prop where
  agents : 0 ≤ p.agentCount
  stronglinks : 0 ≤ p.stronglinkCount
  active : 0 < p.agentCount ∨ 0 < p.stronglinkCount → p.active = true
  tmplinks : p.tmplinkCount = 0 ∨ p.tmplinkCount = 1
  linked : p.tmplinkCount = 1 ↔ p.parent.isSome = true
  once : p.shutdowns.length = if p.active then 0 else 1
  unused : ∀ counts ∈ p.shutdowns, counts = (0, 0)
  late : p.late = 0
  held : p.held = p.tmplinkCount + p.stronglinkCount
  dead : p.active = false → p.held = 0

structure Sound (k : ℤ) (p : TmpProp τ) : Prop where
  agents : 0 ≤ p.agentCount
  stronglinks : 0 ≤ p.stronglinkCount
  used : 0 < p.agentCount ∨ 0 < p.stronglinkCount → p.active = true
  linked : p.tmplinkCount = if p.parent.isSome then 1 else 0
  once : p.shutdowns.length = if p.active then 0 else 1
  unused : ∀ counts ∈ p.shutdowns, counts = (0, 0)
  late : p.late = 0
  held : p.held = p.tmplinkCount + p.stronglinkCount + k
  known : p.active = true → p.temporaryObj = p.parent.isSome
  unlinked : p.active = false → p.parent = none
  strong : 0 < p.stronglinkCount → p.temporaryObj = true

theorem Sound.lifeCycle (hp : p.Sound 0) : p.LifeCycle := by
  have hlinked := hp.linked
  refine ⟨hp.agents, hp.stronglinks, hp.used, ?_, ?_, hp.once, hp.unused, hp.late, ?_, fun hdead => ?_⟩
  · rw [hlinked]
    split_ifs
    · exact inr rfl
    · exact inl rfl
  · rw [hlinked]
    split_ifs with h
    · exact iff_of_true rfl h
    · exact iff_of_false (by decide) h
  · have hheld := hp.held
    omega
  · have hstrong : ¬0 < p.stronglinkCount := fun h => by
      rw [hp.used (inr h)] at hdead
      cases hdead
    have hle := hp.stronglinks
    have hheld := hp.held
    rw [hp.unlinked hdead] at hlinked
    simp only [isSome_none, Bool.false_eq_true, if_false] at hlinked
    omega

def Careful (p : TmpProp τ) (c : LinkCall τ) : Prop :=
  match c.operation with
  | .registerTmplink _ => True
  | .unregisterTmplink =>
    p.active = true → p.parent.isSome = true → p.stronglinkCount = 0 ∧ c.answers.lastLink ≠ .success
  | .referenceTmplink => True
  | .registerStronglink => p.active = true ∧ p.temporaryObj = true
  | .unregisterStronglink => 0 < p.stronglinkCount
  | .registerAgent => p.active = true
  | .unregisterAgent => 0 < p.agentCount

theorem sound_start : (start : TmpProp τ).Sound 0 := by
  constructor <;> simp [start]

inductive Attempt (p : TmpProp τ) : TmpProp τ → Prop
  | nothing : Attempt p p
  | unknown (hactive : p.active = true) (hunused : p.agentCount = 0 ∧ p.stronglinkCount = 0)
      (hobj : p.temporaryObj = false) : Attempt p p.inactive
  | removed (hactive : p.active = true) (hunused : p.agentCount = 0 ∧ p.stronglinkCount = 0)
      (hobj : p.temporaryObj = true) (hparent : p.parent.isSome = true) :
    Attempt p
      { p.inactive with
        tmplinkCount := p.tmplinkCount - 1
        parent := none
        held := p.held - 1 }
  | unlinked (hactive : p.active = true) (hunused : p.agentCount = 0 ∧ p.stronglinkCount = 0)
      (hobj : p.temporaryObj = true) (hlinks : ¬0 < p.tmplinkCount) :
    Attempt p { p.inactive with held := p.held - 1 }

theorem attempt_of_completed {lastChance : Ret}
    (h : completed (p.shutdownIfUnused lastChance) = some q) : Attempt p q := by
  rw [shutdownIfUnused] at h
  split_ifs at h with hunused
  · rw [tmpShutdownInternal] at h
    split_ifs at h with hactive hobj hrefused hlinks
    · cases h
      exact .nothing
    · cases h
      exact .unknown (by simpa using hactive) hunused hobj
    · cases h
      exact .nothing
    · have hobj : p.temporaryObj = true := by simpa using hobj
      cases hparent : p.parent with
      | none => rw [hparent] at h; cases h
      | some parent =>
        rw [hparent] at h
        cases h
        have hattempt := Attempt.removed (by simpa using hactive) hunused hobj (by simp [hparent])
        simpa [tmplinkRemoved, dereferenceTemporary, inactive, hobj] using hattempt
    · have hobj : p.temporaryObj = true := by simpa using hobj
      cases h
      have hattempt := Attempt.unlinked (by simpa using hactive) hunused hobj hlinks
      simpa [dereferenceTemporary, inactive, hobj] using hattempt
  · cases h
    exact .nothing

theorem Sound.attempt {k : ℤ} (hp : p.Sound k) (h : Attempt p q) : q.Sound k := by
  have hlinked := hp.linked
  have hheld := hp.held
  have honce (hactive : p.active = true) : p.shutdowns = [] := by
    have hlength := hp.once
    rw [hactive] at hlength
    exact List.length_eq_zero_iff.mp hlength
  cases h with
  | nothing => exact hp
  | unknown hactive hunused hobj =>
    have hparent : p.parent = none := by
      have hknown := hp.known hactive
      rw [hobj] at hknown
      exact isSome_eq_false_iff.mp hknown.symm |> isNone_iff_eq_none.mp
    refine ⟨hp.agents, hp.stronglinks, ?_, hlinked, ?_, ?_, hp.late, hheld, nofun, fun _ => hparent,
      hp.strong⟩
    · simp [inactive, hunused]
    · simp [inactive, honce hactive]
    · simp [inactive, honce hactive, hunused]
  | removed hactive hunused hobj hparent =>
    rw [hparent, if_pos rfl] at hlinked
    refine ⟨hp.agents, hp.stronglinks, ?_, ?_, ?_, ?_, hp.late, ?_, nofun, fun _ => rfl, fun _ => hobj⟩
    · simp [inactive, hunused]
    · simp [hlinked]
    · simp [inactive, honce hactive]
    · simp [inactive, honce hactive, hunused]
    · simp only [inactive]
      omega
  | unlinked hactive hunused hobj hlinks =>
    have hknown := hp.known hactive
    rw [hobj] at hknown
    rw [← hknown, if_pos rfl] at hlinked
    omega

theorem Sound.registerTmplink (hp : p.Sound 0) (parent : τ) :
    (p.nsRegisterTmplink parent).2.Sound 0 := by
  rw [nsRegisterTmplink]
  split_ifs with hdead hlinked
  · exact hp
  · exact hp
  · have hactive : p.active = true := by simpa using hdead
    have hnone := hp.linked
    have hheld := hp.held
    rw [if_neg hlinked] at hnone
    have hregistered : p.registered = p := by simp [registered, hactive]
    rw [hregistered]
    refine ⟨hp.agents, hp.stronglinks, hp.used, ?_, hp.once, hp.unused, hp.late, ?_, fun _ => rfl, ?_,
      fun _ => rfl⟩
    · simp [hnone]
    · simp only
      omega
    · simp [hactive]

theorem Sound.referenced (hp : p.Sound 0) : p.referenced.2.Sound 0 := by
  rw [TmpProp.referenced]
  split_ifs
  · exact ⟨hp.agents, hp.stronglinks, hp.used, hp.linked, hp.once, hp.unused, hp.late, hp.held, hp.known,
      hp.unlinked, hp.strong⟩
  · exact hp
  · exact hp

theorem Sound.unregisterAgent (hp : p.Sound 0) (hpos : 0 < p.agentCount)
    (h : Attempt { p with agentCount := p.agentCount - 1 } q) : q.Sound 0 := by
  have hless : Sound 0 { p with agentCount := p.agentCount - 1 } := by
    refine ⟨?_, hp.stronglinks, fun _ => hp.used (inl hpos), hp.linked, hp.once, hp.unused, hp.late,
      hp.held, hp.known, hp.unlinked, hp.strong⟩
    simp only
    omega
  exact hless.attempt h

theorem Attempt.temporaryObj (h : Attempt p q) : q.temporaryObj = p.temporaryObj := by
  cases h <;> rfl

theorem Sound.unregisterStronglink (hp : p.Sound 0) (hpos : 0 < p.stronglinkCount)
    (h : Attempt { p with stronglinkCount := p.stronglinkCount - 1 } q) :
    q.dereferenceTemporary.Sound 0 := by
  have hless : Sound 1 { p with stronglinkCount := p.stronglinkCount - 1 } := by
    have hheld := hp.held
    refine ⟨hp.agents, ?_, fun _ => hp.used (inr hpos), hp.linked, hp.once, hp.unused, hp.late, ?_,
      hp.known, hp.unlinked, fun _ => hp.strong hpos⟩
    · simp only
      omega
    · simp only
      omega
  have hq := hless.attempt h
  have hheld := hq.held
  rw [dereferenceTemporary, if_pos (h.temporaryObj.trans (hp.strong hpos))]
  refine ⟨hq.agents, hq.stronglinks, hq.used, hq.linked, hq.once, hq.unused, hq.late, ?_, hq.known,
    hq.unlinked, hq.strong⟩
  simp only
  omega

def Turns (careful : Prop) (q : TmpProp τ) : Prop :=
  (careful ∧ q.Sound 0) ∨ (¬careful ∧ ¬q.LifeCycle)

theorem Sound.unregisterTmplink (hp : p.Sound 0) {answers : Answers} {ret : Ret}
    (h : p.nsUnregisterTmplink answers.lastLink = some (ret, q)) :
    Turns (p.Careful ⟨.unregisterTmplink, answers⟩) q := by
  have hheld := hp.held
  have hbroken : ¬p.tmplinkUnregistered.LifeCycle := fun h' => by
    have hheld' : p.held = p.tmplinkCount - 1 + p.stronglinkCount := h'.held
    omega
  rw [nsUnregisterTmplink] at h
  split_ifs at h with hdead hnone hlast hobj hrefused
  · cases some.inj h
    exact inl ⟨fun hactive => absurd (hactive.symm.trans hdead) (by simp), hp⟩
  · cases some.inj h
    refine inl ⟨fun _ hsome => ?_, hp⟩
    rw [isNone_iff_eq_none.mp hnone] at hsome
    cases hsome
  · cases some.inj h
    exact inl ⟨fun _ _ => ⟨hlast.1, hrefused⟩, hp⟩
  · cases some.inj h
    refine inr ⟨fun hcareful => ?_, hbroken⟩
    exact hrefused (hcareful (by simpa using hdead) (by simpa [isSome_iff_ne_none] using hnone)).2
  · cases some.inj h
    refine inr ⟨fun hcareful => hlast ?_, hbroken⟩
    have hsome : p.parent.isSome = true := by simpa [isSome_iff_ne_none] using hnone
    have hlinked := hp.linked
    rw [if_pos hsome] at hlinked
    exact ⟨(hcareful (by simpa using hdead) hsome).1, hlinked⟩

theorem not_lifeCycle_of_late (h : p.late ≠ 0) : ¬p.LifeCycle := fun hp => h hp.late

theorem Sound.registerStronglink (hp : p.Sound 0) (answers : Answers) :
    Turns (p.Careful ⟨.registerStronglink, answers⟩) p.nsRegisterStronglink := by
  have hheld := hp.held
  have hle := hp.stronglinks
  cases hactive : p.active with
  | false =>
    refine inr ⟨fun hcareful => absurd (hcareful.1.symm.trans hactive) (by simp), ?_⟩
    apply not_lifeCycle_of_late
    have hlate (q : TmpProp τ) : q.referenceTemporary.late = q.late := by
      rw [referenceTemporary]
      split_ifs <;> rfl
    simp [nsRegisterStronglink, hlate, registered, hactive]
  | true =>
    have hregistered : p.registered = p := by simp [registered, hactive]
    rw [nsRegisterStronglink, hregistered, referenceTemporary]
    split_ifs with hobj
    · refine inl ⟨⟨hactive, hobj⟩, hp.agents, ?_, fun _ => hactive, hp.linked, hp.once, hp.unused,
        hp.late, ?_, hp.known, hp.unlinked, fun _ => hobj⟩
      · simp only
        omega
      · simp only
        omega
    · refine inr ⟨fun hcareful => hobj hcareful.2, fun h' => ?_⟩
      have hheld' : p.held = p.tmplinkCount + (p.stronglinkCount + 1) := h'.held
      omega

theorem Sound.registerAgent (hp : p.Sound 0) (answers : Answers) :
    Turns (p.Careful ⟨.registerAgent, answers⟩) p.nsRegisterAgent := by
  have hle := hp.agents
  cases hactive : p.active with
  | false =>
    refine inr ⟨fun hcareful => absurd ((show p.active = true from hcareful).symm.trans hactive)
      (by simp), ?_⟩
    apply not_lifeCycle_of_late
    simp [nsRegisterAgent, registered, hactive]
  | true =>
    have hregistered : p.registered = p := by simp [registered, hactive]
    rw [nsRegisterAgent, hregistered]
    refine inl ⟨hactive, ?_, hp.stronglinks, fun _ => hactive, hp.linked, hp.once, hp.unused, hp.late,
      hp.held, hp.known, hp.unlinked, hp.strong⟩
    simp only
    omega

theorem Attempt.counts (h : Attempt p q) :
    q.agentCount = p.agentCount ∧ q.stronglinkCount = p.stronglinkCount := by
  cases h <;> exact ⟨rfl, rfl⟩

theorem dereferenceTemporary_stronglinkCount (p : TmpProp τ) :
    p.dereferenceTemporary.stronglinkCount = p.stronglinkCount := by
  rw [dereferenceTemporary]
  split_ifs <;> rfl

theorem unregisterStronglink_cases {answers : Answers} {ret : Ret}
    (h : p.call ⟨.unregisterStronglink, answers⟩ = some (ret, q)) :
    (p.stronglinkCount = 1 ∧ p = q) ∨
      ∃ q₁, Attempt { p with stronglinkCount := p.stronglinkCount - 1 } q₁ ∧
        q = q₁.dereferenceTemporary := by
  simp only [call] at h
  split at h
  · cases h
  · obtain ⟨q₁, hq₁, heq⟩ := map_eq_some_iff.mp h
    exact inr ⟨q₁, attempt_of_completed hq₁, (congrArg Prod.snd heq).symm⟩
  · next ret' hne hmay =>
      cases some.inj h
      refine inl ⟨?_, rfl⟩
      rw [mayUnregisterStronglink] at hmay
      split_ifs at hmay with hlast
      · exact hlast.1
      · exact absurd (some.inj hmay).symm hne

theorem Sound.next (hp : p.Sound 0) {c : LinkCall τ} (h : p.next c = some q) :
    Turns (p.Careful c) q := by
  obtain ⟨operation, answers⟩ := c
  obtain ⟨⟨ret, q'⟩, hcall, rfl⟩ := map_eq_some_iff.mp h
  cases operation with
  | registerTmplink parent =>
    obtain rfl := congrArg Prod.snd (some.inj hcall)
    exact inl ⟨trivial, hp.registerTmplink parent⟩
  | unregisterTmplink => exact hp.unregisterTmplink hcall
  | referenceTmplink =>
    obtain ⟨q₁, hq₁, heq⟩ := map_eq_some_iff.mp hcall
    obtain rfl := congrArg Prod.snd heq
    exact inl ⟨trivial, (hp.attempt (attempt_of_completed hq₁)).referenced⟩
  | registerStronglink =>
    obtain rfl := congrArg Prod.snd (some.inj hcall)
    exact hp.registerStronglink answers
  | unregisterStronglink =>
    rcases unregisterStronglink_cases hcall with ⟨hone, rfl⟩ | ⟨q₁, hattempt, rfl⟩
    · have hpos : 0 < p.stronglinkCount := by omega
      exact inl ⟨hpos, hp⟩
    · by_cases hpos : 0 < p.stronglinkCount
      · exact inl ⟨hpos, hp.unregisterStronglink hpos hattempt⟩
      · refine inr ⟨hpos, fun h' => ?_⟩
        have hcount : q₁.stronglinkCount = p.stronglinkCount - 1 := hattempt.counts.2
        have hle := h'.stronglinks
        simp only [dereferenceTemporary_stronglinkCount] at hle
        omega
  | registerAgent =>
    obtain rfl := congrArg Prod.snd (some.inj hcall)
    exact hp.registerAgent answers
  | unregisterAgent =>
    obtain ⟨q₁, hq₁, heq⟩ := map_eq_some_iff.mp hcall
    obtain rfl := congrArg Prod.snd heq
    have hattempt := attempt_of_completed hq₁
    by_cases hpos : 0 < p.agentCount
    · exact inl ⟨hpos, hp.unregisterAgent hpos hattempt⟩
    · refine inr ⟨hpos, fun h' => ?_⟩
      have hcount : q₁.agentCount = p.agentCount - 1 := hattempt.counts.1
      have hle := h'.agents
      simp only at hle
      omega

theorem temporary_life_cycle_iff (calls : List (LinkCall τ)) {p : TmpProp τ}
    (hrun : exec next start calls = some p) :
    Throughout next LifeCycle start calls ↔ Admits next Careful (start : TmpProp τ) calls := by
  refine throughout_iff (I := Sound 0) (fun _ hx => hx.lifeCycle)
    (fun x c y hx hc hy => ?_) (fun x c y hx hy hkept => ?_) sound_start hrun
  · rcases hx.next hy with ⟨-, hsound⟩ | ⟨hcareless, -⟩
    · exact hsound
    · exact absurd hc hcareless
  · rcases hx.next hy with ⟨hcareful, -⟩ | ⟨-, hbroken⟩
    · exact hcareful
    · exact absurd hkept hbroken

end TmpProp

namespace Sample

def call (operation : LinkOperation ℕ) : LinkCall ℕ := ⟨operation, .success, .success⟩

def links : List (LinkCall ℕ) :=
  [call (.registerTmplink 5), call .registerAgent, call .registerAgent, call .registerStronglink,
    call .unregisterAgent, call .referenceTmplink, call .unregisterStronglink, call .unregisterAgent,
    call (.registerTmplink 6)]

end Sample

namespace TmpProp

theorem temporary_life_cycle_links :
    ∃ p, exec next start Sample.links = some p ∧ p.active = false ∧
      p.shutdowns = [(0, 0)] ∧ p.held = 0 ∧ p.given = 1 ∧
      (Throughout next LifeCycle start Sample.links ↔ Admits next Careful start Sample.links) := by
  refine ⟨_, rfl, rfl, rfl, rfl, rfl, ?_⟩
  exact temporary_life_cycle_iff Sample.links rfl

theorem registration_outlives_shutdown :
    (∃ p, exec next start
        [Sample.call (.registerTmplink 5), Sample.call .registerAgent, Sample.call .unregisterAgent,
          Sample.call .registerAgent] = some p ∧
      p.shutdowns = [(0, 0)] ∧ p.active = false ∧ p.agentCount = 1 ∧ p.late = 1 ∧ ¬p.LifeCycle) ∧
    ∃ p, exec next start
        [Sample.call (.registerTmplink 5), Sample.call .registerAgent, Sample.call .unregisterTmplink,
          Sample.call (.registerTmplink 6), Sample.call .unregisterAgent] = some p ∧
      p.active = false ∧ p.tmplinkCount = 0 ∧ p.stronglinkCount = 0 ∧ p.held = 1 ∧ ¬p.LifeCycle := by
  constructor
  · refine ⟨_, rfl, rfl, rfl, rfl, rfl, fun h => ?_⟩
    exact absurd (h.active (inl (by decide))) (by decide)
  · refine ⟨_, rfl, rfl, rfl, rfl, rfl, fun h => ?_⟩
    cases h.dead rfl

end TmpProp

end MachUS.Dir
