import MachUS.Interrupt.InterruptRuns
import MachUS.Interrupt.RegionNest

namespace MachUS.Interrupt

open Transition Option List

variable {hands : HandlerAddr → Handler} {info : ThreadInfo}

theorem innermostFor_lt {interruptType : Bits} {n k : ℕ}
    (hfor : innermostFor hands info interruptType n = some k) : k < n := by
  induction n with
  | zero => cases hfor
  | succ n ih =>
    rw [innermostFor] at hfor
    split_ifs at hfor
    · obtain rfl := some.inj hfor
      exact Nat.lt_succ_self n
    · exact Nat.lt_succ_of_lt (ih hfor)

theorem innermostFor_eq_none {interruptType : Bits} {n : ℕ} :
    innermostFor hands info interruptType n = none ↔
      ∀ k < n, interruptType &&& (hands (info.handlers k)).regionType = 0 := by
  induction n with
  | zero => exact iff_of_true rfl fun k hk => absurd hk (Nat.not_lt_zero k)
  | succ n ih =>
    rw [innermostFor, Nat.forall_lt_succ_right]
    split_ifs with happlies
    · exact iff_of_false (by simp) fun h => happlies h.2
    · rw [ih, and_iff_left (not_not.mp happlies)]

theorem Receives.lt {deliveryType interruptType : Bits} {i : ℤ}
    (hreceives : Receives hands info deliveryType interruptType i) : i < info.nextIndex := by
  obtain ⟨k, rfl, hfor, -, -⟩ := hreceives
  have hlt := innermostFor_lt hfor
  omega

namespace RegionState

variable {self : ThreadId} {s t : RegionState} {o : Outside} {act : RegionAct} {r : Region}
  {rs : List Region} {rest : List (List Region)} {u : Taskwide}

def Kept (self : ThreadId) (s : RegionState) : Prop := ∃ k th hands,
  Seen self (s.regions.map Region.hand) s.regions k th hands s.task

theorem withRoutine_id : (s.withRoutine u id).regions = s.regions := by
  simp [withRoutine, regions]

theorem regions_of_innermost (hinnermost : s.innermost = some r) :
    ∃ rs rest, s.routines = (r :: rs) :: rest := by
  cases hroutines : s.routines with
  | nil => simp [innermost, hroutines] at hinnermost
  | cons rs rest =>
    cases rs with
    | nil => simp [innermost, hroutines] at hinnermost
    | cons x rs =>
      simp only [innermost, hroutines, head?_cons, getD_some, some.injEq] at hinnermost
      exact ⟨rs, rest, by rw [hinnermost]⟩

theorem Receiving.lt {k i : ℤ} {th : Option (Addr × ThreadInfo)} {hs : List HandlerAddr}
    (hreceiving : Receiving self s i act) (hseen : Seen self hs s.regions k th hands s.task)
    (hact : act ≠ .end_) : i < k ∧ th.isSome = true := by
  have hthread (info : ThreadInfo) (hsome : s.task.thread self = some info) :
      info.nextIndex = k ∧ th.isSome = true := by
    rw [hseen.view.thread_self] at hsome
    obtain ⟨x, rfl, rfl⟩ := map_eq_some_iff.mp hsome
    exact ⟨hseen.index, rfl⟩
  cases act with
  | deliver source deliveryType interruptType =>
    obtain ⟨info, hsome, hreceives⟩ := hreceiving
    obtain ⟨hnext, hhas⟩ := hthread info hsome
    exact ⟨by rw [← hnext]; exact hreceives.lt, hhas⟩
  | post source deliveryType interruptType error code subcode =>
    obtain ⟨-, -, info, hsome, hreceives⟩ := hreceiving
    obtain ⟨hnext, hhas⟩ := hthread info hsome
    have hposted : (info.posted interruptType).nextIndex = info.nextIndex := by
      rw [ThreadInfo.posted]
      split_ifs <;> rfl
    exact ⟨by rw [← hnext, ← hposted]; exact hreceives.lt, hhas⟩
  | end_ => exact absurd rfl hact
  | _ => exact hreceiving.elim

structure Sane (id : ThreadId) (s : RegionState) (e : Outside × RegionAct) : Prop where
  right : Right id s e ↔ Fair id s e
  kept : Fair id s e → ∀ t, next id s e = some t → Kept id t

theorem sane_of_ok (hstep : step self s o act = .ok t) (hkept : Kept self t)
    (hrestored : Restored self s t act)
    (hunwound : ∀ i, Receiving self s i act → ¬Unwound self t i act) (hact : act ≠ .return_) :
    Sane self s (o, act) := by
  constructor
  · rw [Right, Fair]
    simp only [hstep]
    constructor
    · rintro ⟨-, hright⟩
      exact ⟨fun i hi => hunwound i hi (hright i hi), fun heq => absurd heq hact⟩
    · rintro ⟨hfair, -⟩
      exact ⟨hrestored, fun i hi => absurd hi (hfair i)⟩
  · intro _ t' hnext
    rw [next, hstep] at hnext
    cases hnext
    exact hkept

theorem sane_of_error {f : Fault} (hstep : step self s o act = .error f)
    (hf : f ≠ .outsideHandlers) (hnone : ∀ i, ¬Receiving self s i act) (hact : act ≠ .return_) :
    Sane self s (o, act) := by
  constructor
  · rw [Right, Fair]
    simp only [hstep]
    refine ⟨fun _ => ⟨hnone, fun heq => absurd heq hact⟩, fun _ => ?_⟩
    cases f with
    | outsideHandlers => exact absurd rfl hf
    | _ => trivial
  · intro _ t' hnext
    rw [next, hstep] at hnext
    cases hnext

theorem sane_call (hkept : Kept self s) : Sane self s (o, .call) := by
  have hregions : (⟨s.task, [] :: s.routines⟩ : RegionState).regions = s.regions := by
    simp [regions]
  refine sane_of_ok rfl ?_ trivial (fun i hi => hi.elim) (by simp)
  rw [Kept, hregions]
  exact hkept

theorem sane_leave (hkept : Kept self s) (hnested : Nested self s (o, .leave)) :
    Sane self s (o, .leave) := by
  obtain ⟨hinnermost, hmany⟩ := hnested
  have hregions : (⟨s.task, s.routines.tail⟩ : RegionState).regions = s.regions := by
    cases hroutines : s.routines with
    | nil => simp [regions, hroutines]
    | cons rs rest =>
      have hrs : rs = [] := by
        simpa [innermost, hroutines] using hinnermost
      simp [regions, hroutines, hrs]
  refine sane_of_ok rfl ?_ trivial (fun i hi => hi.elim) (by simp)
  rw [Kept, hregions]
  exact hkept

section

variable (hself : self ≠ 0) (hkept : Kept self s)

include hself hkept

theorem sane_newRoutine : Sane self s (o, .newRoutine) := by
  obtain ⟨k, th, hands, hseen⟩ := hkept
  obtain ⟨th', u, hrun, hseen'⟩ := hseen.newRoutine hself o
  have hstep : step self s o .newRoutine = .ok (s.withRoutine u id) := by
    rw [step, hrun]
    rfl
  refine sane_of_ok hstep ?_ trivial (fun i hi => hi.elim) (by simp)
  rw [Kept, withRoutine_id]
  exact ⟨k, th', hands, hseen'⟩

theorem sane_deliver (source : ThreadId) (deliveryType interruptType : Bits) :
    Sane self s (o, .deliver source deliveryType interruptType) := by
  obtain ⟨k, th, hands, hseen⟩ := hkept
  obtain ⟨ret, u, hrun, hseen'⟩ := hseen.deliver hself source deliveryType interruptType o
  have hstep : step self s o (.deliver source deliveryType interruptType) =
      .ok (s.withRoutine u id) := by
    rw [step, hrun]
    rfl
  refine sane_of_ok hstep ?_ trivial (fun i hi hunwound => ?_) (by simp)
  · rw [Kept, withRoutine_id]
    exact ⟨k, th, hands, hseen'⟩
  · have hindex : i = k := hunwound.symm.trans hseen'.taskIndex
    have hlt := (hi.lt hseen (by simp)).1
    omega

theorem sane_post (source : ThreadId) (deliveryType interruptType : Bits) (error code subcode : ℤ) :
    Sane self s (o, .post source deliveryType interruptType error code subcode) := by
  obtain ⟨k, th, hands, hseen⟩ := hkept
  rcases hseen.post hself source deliveryType interruptType error code subcode o with
    ⟨rfl, f, hf, hrun⟩ | ⟨ret, th', u, hrun, hseen'⟩
  · have hstep : step self s o (.post source deliveryType interruptType error code subcode) =
        .error f := by
      rw [step, hrun]
      rfl
    refine sane_of_error hstep hf (fun i hi => ?_) (by simp)
    cases (hi.lt hseen (by simp)).2
  · have hstep : step self s o (.post source deliveryType interruptType error code subcode) =
        .ok (s.withRoutine u id) := by
      rw [step, hrun]
      rfl
    refine sane_of_ok hstep ?_ trivial (fun i hi hunwound => ?_) (by simp)
    · rw [Kept, withRoutine_id]
      exact ⟨k, th', hands, hseen'⟩
    · have hindex : i = k := hunwound.symm.trans hseen'.taskIndex
      have hlt := (hi.lt hseen (by simp)).1
      omega

theorem sane_region (h : HandlerAddr) (rtype : Bits)
    (handled : Bool) (hnested : Nested self s (o, .region h rtype handled)) :
    Sane self s (o, .region h rtype handled) := by
  obtain ⟨k, th, hands, hseen⟩ := hkept
  obtain ⟨hroutines, hfree, hroom⟩ := hnested
  have hindex : s.task.index self = k := hseen.taskIndex
  obtain ⟨rs, rest, hrest⟩ := exists_cons_of_ne_nil hroutines
  rcases hseen.region hself hfree (by omega) rtype s.innermost.isNone handled o with
    ⟨f, hf, hrun⟩ | ⟨b, th', hands', u, hrun, hseen'⟩
  · have hstep : step self s o (.region h rtype handled) = .error f := by
      rw [step, hrun]
      rfl
    exact sane_of_error hstep hf (fun i hi => hi.elim) (by simp)
  by_cases hskip : b && !handled
  · obtain ⟨ret, th₂, u₂, hdisable, hseen₂⟩ := hseen'.disable hself mem_cons_self o
    have hstep : step self s o (.region h rtype handled) = .ok (s.withRoutine u₂ id) := by
      rw [step, hrun]
      simp only [bind, Except.bind, hskip, if_true, hdisable]
    refine sane_of_ok hstep ?_ (fun _ => ?_) (fun i hi => hi.elim) (by simp)
    · rw [Kept, withRoutine_id]
      exact ⟨k, th₂, hands', hseen₂.close (subset_cons_self _ _)⟩
    · exact hseen₂.taskIndex.trans hindex.symm
  · have hstep : step self s o (.region h rtype handled) =
        .ok (s.withRoutine u (⟨h, s.task.index self, !b, handled, b⟩ :: ·)) := by
      rw [step, hrun]
      simp only [bind, Except.bind, hskip, Bool.false_eq_true, if_false]
    have hregions : (s.withRoutine u (⟨h, s.task.index self, !b, handled, b⟩ :: ·)).regions =
        ⟨h, k, !b, handled, b⟩ :: s.regions := by
      simp [withRoutine, regions, hrest, hindex]
    refine sane_of_ok hstep ?_ (fun hlength => ?_) (fun i hi => hi.elim) (by simp)
    · rw [Kept, hregions]
      exact ⟨_, th', hands', hseen'⟩
    · rw [hregions, length_cons] at hlength
      omega

theorem sane_handler (hnested : Nested self s (o, .handler)) : Sane self s (o, .handler) := by
  obtain ⟨k, th, hands, hseen⟩ := hkept
  obtain ⟨r, hmem, -, -⟩ := hnested
  have hinnermost := mem_def.mp hmem
  obtain ⟨rs, rest, hrest⟩ := regions_of_innermost hinnermost
  have hregions : s.regions = r :: (rs ++ rest.flatten) := by simp [regions, hrest]
  rw [hregions] at hseen
  rcases hseen.handler hself mem_cons_self o with
    ⟨f, hf, hrun⟩ | ⟨b, th', hands', u, hrun, hseen'⟩
  · have hstep : step self s o .handler = .error f := by
      simp only [step, hinnermost, hrun, bind, Except.bind]
    exact sane_of_error hstep hf (fun i hi => hi.elim) (by simp)
  cases b with
  | true =>
    have hstep : step self s o .handler =
        .ok (s.withRoutine u fun rs => { r with handling := true } :: rs.tail) := by
      simp only [step, hinnermost, hrun, bind, Except.bind, if_true]
    have hafter : (s.withRoutine u fun rs => { r with handling := true } :: rs.tail).regions =
        { r with handling := true } :: (rs ++ rest.flatten) := by
      simp [withRoutine, regions, hrest]
    refine sane_of_ok hstep ?_ (fun hlength => ?_) (fun i hi => hi.elim) (by simp)
    · rw [Kept, hafter]
      refine ⟨k, th', hands', hseen'.view, ?_, hseen'.index⟩
      cases th' with
      | none => cases hseen'.opened
      | some x => exact Framed.handling hseen'.opened true
    · rw [hafter, hregions, length_cons, length_cons] at hlength
      omega
  | false =>
    have hstep : step self s o .handler = .ok (s.withRoutine u tail) := by
      simp only [step, hinnermost, hrun, bind, Except.bind, Bool.false_eq_true, if_false]
    have hafter : (s.withRoutine u tail).regions = rs ++ rest.flatten := by
      simp [withRoutine, regions, hrest]
    refine sane_of_ok hstep ?_ (fun _ x hx => ?_) (fun i hi => hi.elim) (by simp)
    · rw [Kept, hafter]
      exact ⟨r.entry, th', hands', hseen'.close (subset_cons_self _ _)⟩
    · cases hinnermost.symm.trans hx
      exact hseen'.taskIndex

theorem sane_end (hnested : Nested self s (o, .end_)) : Sane self s (o, .end_) := by
  obtain ⟨k, th, hands, hseen⟩ := hkept
  obtain ⟨r, hmem, -⟩ := hnested
  have hinnermost := mem_def.mp hmem
  obtain ⟨rs, rest, hrest⟩ := regions_of_innermost hinnermost
  have hregions : s.regions = r :: (rs ++ rest.flatten) := by simp [regions, hrest]
  rw [hregions] at hseen
  obtain ⟨th', u, hrun, hseen'⟩ := hseen.end_ hself mem_cons_self o
  have hstep : step self s o .end_ = .ok (s.withRoutine u tail) := by
    simp only [step, hinnermost, hrun, bind, Except.bind]
  have hafter : (s.withRoutine u tail).regions = rs ++ rest.flatten := by
    simp [withRoutine, regions, hrest]
  refine sane_of_ok hstep ?_ (fun x hx => ?_) (fun i _ hunwound => hunwound) (by simp)
  · rw [Kept, hafter]
    exact ⟨r.entry, th', hands, hseen'.close (subset_cons_self _ _)⟩
  · cases hinnermost.symm.trans hx
    exact hseen'.taskIndex

theorem sane_return (hnested : Nested self s (o, .return_)) : Sane self s (o, .return_) := by
  obtain ⟨k, th, hands, hseen⟩ := hkept
  obtain ⟨r, hinnermost⟩ := ne_none_iff_exists'.mp hnested
  obtain ⟨rs, rest, hrest⟩ := regions_of_innermost hinnermost
  have hregions : s.regions = (r :: rs) ++ rest.flatten := by simp [regions, hrest]
  obtain ⟨x, hlast⟩ : ∃ x, (r :: rs).getLast? = some x := ⟨_, getLast?_eq_some_getLast (by simp)⟩
  have houtermost : s.outermost = some x := by
    simp [outermost, hrest, hlast]
  have hthread := hseen.view.thread_self
  rw [hregions] at hseen
  have hrecords (y : Region) (hy : y ∈ (r :: rs) ++ rest.flatten) :
      y.hand ∈ ((r :: rs) ++ rest.flatten).map Region.hand := mem_map_of_mem hy
  obtain ⟨a, info, rfl, hret⟩ := hseen.return_ hself hrecords (hrecords r (by simp)) hlast o
  have hfair : Fair self s (o, .return_) ↔ 0 < info.nextIndex ∧ info.returnIndex = x.entry := by
    rw [Fair, hthread, houtermost]
    simp [Receiving]
  rcases hret with ⟨hrun, hunfair⟩ | ⟨u, hrun, hpos, hindex, hrestored⟩
  · have hstep : step self s o .return_ = .error .outsideHandlers := by
      simp only [step, hinnermost, hrun, bind, Except.bind]
    constructor
    · rw [hfair, Right]
      simp only [hstep]
      exact ⟨False.elim, hunfair⟩
    · intro _ t hnext
      rw [next, hstep] at hnext
      cases hnext
  · have hstep : step self s o .return_ = .ok ⟨u, s.routines.tail⟩ := by
      simp only [step, hinnermost, hrun, bind, Except.bind]
    have hafter : (⟨u, s.routines.tail⟩ : RegionState).regions = rest.flatten := by
      simp [regions, hrest]
    constructor
    · rw [hfair, Right]
      simp only [hstep, Restored, houtermost, hindex]
      simp [Receiving, hpos]
    · intro hgood t hnext
      rw [next, hstep] at hnext
      cases hnext
      obtain ⟨th', hseen'⟩ := hrestored (hfair.mp hgood).2
      rw [Kept, hafter]
      exact ⟨x.entry, th', hands, hseen'.close (by simp)⟩

theorem sane_of_nested (e : Outside × RegionAct) (hnested : Nested self s e) : Sane self s e := by
  obtain ⟨o, act⟩ := e
  cases act with
  | call => exact sane_call hkept
  | leave => exact sane_leave hkept hnested
  | newRoutine => exact sane_newRoutine hself hkept
  | region h rtype handled => exact sane_region hself hkept h rtype handled hnested
  | handler => exact sane_handler hself hkept hnested
  | end_ => exact sane_end hself hkept hnested
  | return_ => exact sane_return hself hkept hnested
  | deliver source deliveryType interruptType =>
    exact sane_deliver hself hkept source deliveryType interruptType
  | post source deliveryType interruptType error code subcode =>
    exact sane_post hself hkept source deliveryType interruptType error code subcode

end

structure Outset (id : ThreadId) (u : Taskwide) : Prop where
  sound : u.Sound
  free : u.held = false
  table : u.table.isSome = true
  unknown : u.entry id = none

theorem Outset.kept (hout : Outset self u) : Kept self ⟨u, [[]]⟩ := by
  refine ⟨0, none, fun h => (u.handlers h).bare, ⟨hout.sound, hout.free, hout.table, ?_,
    fun _ => rfl, fun _ hmem => by cases hmem⟩, rfl, rfl⟩
  rw [hout.unknown]
  rfl

/-- A run of nested regions is right exactly when none of its interrupts has to unwind, and each
INTR_RETURN of it finds the index of its routine. -/
theorem region_runs_iff (hself : self ≠ 0) (hout : Outset self u) (es : List (Outside × RegionAct))
    (hnested : Admits (next self) (Nested self) ⟨u, [[]]⟩ es) :
    Admits (next self) (Right self) ⟨u, [[]]⟩ es ↔ Admits (next self) (Fair self) ⟨u, [[]]⟩ es := by
  refine admits_congr (fun s e hkept hn => ?_) (fun s e t hkept hn hfair hnext => ?_)
    hout.kept hnested
  · exact (sane_of_nested hself hkept e hn).right
  · exact (sane_of_nested hself hkept e hn).kept hfair t hnext

end RegionState

namespace Sample

def started : Taskwide := { Taskwide.start fun _ => handler with table := some [] }

def inRegion (acts : List RegionAct) : List (Outside × RegionAct) :=
  (RegionAct.region 1 intrAll true :: acts).map fun act => (outside 100, act)

end Sample

namespace RegionState

theorem outset_started : Outset 7 Sample.started :=
  ⟨⟨Or.inl ⟨rfl, rfl⟩, fun _ _ hentry => by cases hentry⟩, rfl, rfl, rfl⟩

theorem fair_nested (s : RegionState) (h : HandlerAddr) :
    Fair self s (o, .region h intrAll true) ∧ Fair self s (o, .handler) :=
  ⟨⟨fun _ hi => hi.elim, by simp⟩, fun _ hi => hi.elim, by simp⟩

theorem region_runs_left : Admits (next 7) (Right 7) ⟨Sample.started, [[]]⟩
    (Sample.inRegion [.region 2 intrAll true, .handler, .handler]) :=
  (region_runs_iff (by decide) outset_started _ (by decide +kernel)).mpr
    ⟨(fair_nested _ 1).1, fun _ _ => ⟨(fair_nested _ 2).1, fun _ _ =>
      ⟨(fair_nested _ 0).2, fun _ _ => ⟨(fair_nested _ 0).2, fun _ _ => trivial⟩⟩⟩⟩

theorem not_right_of_outside {e : Outside × RegionAct}
    (hout : (match step self s e.1 e.2 with
      | .error .outsideHandlers => true
      | _ => false) = true) : ¬Right self s e := by
  intro hright
  rw [Right] at hright
  split at hout
  · next hstep => rwa [hstep] at hright
  · cases hout

theorem region_return_outside :
    Admits (next 7) (Nested 7) ⟨Sample.started, [[]]⟩
        (Sample.inRegion [.region 2 intrAll true, .handler, .return_]) ∧
      ¬Admits (next 7) (Right 7) ⟨Sample.started, [[]]⟩
        (Sample.inRegion [.region 2 intrAll true, .handler, .return_]) := by
  refine ⟨by decide +kernel, fun hright => ?_⟩
  have hcheck : check (next 7) ⟨Sample.started, [[]]⟩
      (Sample.inRegion [.region 2 intrAll true, .handler]) (fun s =>
        match step 7 s (Sample.outside 100) .return_ with
        | .error .outsideHandlers => true
        | _ => false) = true := by
    decide +kernel
  obtain ⟨s, hs, htest⟩ := exec_of_check hcheck
  exact not_right_of_outside htest (admits_last hright hs)

end RegionState

variable {s : Taskwide} {a : Addr}

/-- The delivery goes on with the innermost handler whose region the interrupt applies to, and fails
only if there is none. -/
structure Delivers (self : ThreadId) (deliveryType interruptType : Bits) (a : Addr) (o : Outside)
    (s : Taskwide) : Prop where
  chosen : ∀ info k, s.records a = some info →
    innermostFor s.handlers info interruptType info.nextIndex.toNat = some k →
      findHandler info s = .ok (info.handlers k, s)
  failed : ∀ info t, s.records a = some info →
    intrDeliverInterruptInternal self deliveryType interruptType a o s = .ok (kernFailure, t) →
      innermostFor s.handlers info interruptType info.nextIndex.toNat = none

def Inapplicable (s : Taskwide) (info : ThreadInfo) (interruptType : Bits) : Prop :=
  ∀ k : ℕ, k < info.nextIndex → interruptType &&& (s.handlers (info.handlers k)).regionType = 0

theorem interrupt_delivery_iff (self : ThreadId) (deliveryType interruptType : Bits) (o : Outside)
    (hinfo : s.records a = some info) (hlow : 0 ≤ info.nextIndex)
    (hpushed : ∀ k : ℕ, k < info.nextIndex → info.handlers k ≠ 0) :
    Delivers self deliveryType interruptType a o s ↔ Inapplicable s info interruptType := by
  have hnone : Inapplicable s info interruptType ↔
      innermostFor s.handlers info interruptType info.nextIndex.toNat = none := by
    rw [innermostFor_eq_none]
    exact forall_congr' fun k => imp_congr_left (by omega)
  rw [hnone]
  constructor
  · rintro ⟨hchosen, -⟩
    cases hfor : innermostFor s.handlers info interruptType info.nextIndex.toNat with
    | none => rfl
    | some k =>
      have hlt := innermostFor_lt hfor
      have hgiven := hchosen info k hinfo hfor
      rw [findHandler, if_neg (by omega)] at hgiven
      have hzero : 0 = info.handlers k := congrArg Prod.fst (Except.ok.inj hgiven)
      exact absurd hzero.symm (hpushed k (by omega))
  · intro hfor
    refine ⟨fun info' k hinfo' hk => ?_, fun info' _ hinfo' _ => ?_⟩
    · cases hinfo.symm.trans hinfo'
      rw [hfor] at hk
      cases hk
    · cases hinfo.symm.trans hinfo'
      exact hfor

namespace Sample

def pushed : ThreadInfo := { threadInfo with handlers := fun _ => 8, nextIndex := 1 }

def inside (regionType : Bits) : Taskwide :=
  { started with records := fun _ => some pushed, handlers := fun _ => handler.region regionType }

end Sample

theorem interrupt_delivery_elsewhere :
    Delivers 7 intrImmediate intrAsync 100 (Sample.outside 100) (Sample.inside intrSync) := by
  refine (interrupt_delivery_iff 7 intrImmediate intrAsync (Sample.outside 100) rfl ?_ ?_).mpr
    fun k _ => ?_
  · decide
  · exact fun k _ => Nat.succ_ne_zero 7
  · change intrAsync &&& intrSync = 0
    decide

theorem applicable_handler_skipped :
    intrDeliverInterruptInternal 7 intrImmediate intrAsync 100 (Sample.outside 100)
        (Sample.inside intrAll) = .ok (kernFailure, Sample.inside intrAll) ∧
      innermostFor (Sample.inside intrAll).handlers Sample.pushed intrAsync 1 = some 0 :=
  ⟨rfl, rfl⟩

end MachUS.Interrupt
