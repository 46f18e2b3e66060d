import MachUS.Interrupt.Regions
import MachUS.Interrupt.ThreadView

namespace MachUS.Interrupt

open Function Or

variable {self source : ThreadId} {hs : List HandlerAddr} {held : Bool} {a : Addr}
  {th : Option (Addr × ThreadInfo)} {info : ThreadInfo} {hands : HandlerAddr → Handler}
  {s : Taskwide} {h : HandlerAddr} {o : Outside}

def ThreadInfo.enabled (info : ThreadInfo) (h : HandlerAddr) : ThreadInfo :=
  { info with
    handlers := update info.handlers info.nextIndex h
    nextIndex := info.nextIndex + 1 }

def ThreadInfo.disabled (info : ThreadInfo) (hands : HandlerAddr → Handler) (index : ℤ) :
    ThreadInfo :=
  { info with
    nextIndex := index
    returnIndex := if index = 0 then 0 else (hands (info.handlers (index - 1))).returnIndex }

def supplied (th : Option (Addr × ThreadInfo)) (o : Outside) : Addr × ThreadInfo :=
  th.getD (o.fresh.addr, o.fresh.junk.init)

def frame (info : ThreadInfo) : (ℤ → HandlerAddr) × ℤ × ℤ × Option Shake :=
  (info.handlers, info.nextIndex, info.returnIndex, info.shakeOnPost)

theorem frame_eq_iff {info info' : ThreadInfo} : frame info' = frame info ↔
    info'.handlers = info.handlers ∧ info'.nextIndex = info.nextIndex ∧
      info'.returnIndex = info.returnIndex ∧ info'.shakeOnPost = info.shakeOnPost := by
  simp only [frame, Prod.mk.injEq]

structure Kin (info info' : ThreadInfo) (hands hands' : HandlerAddr → Handler) : Prop where
  frame : frame info' = frame info
  index : ∀ h, (hands' h).index = (hands h).index
  returnIndex : ∀ h, (hands' h).returnIndex = (hands h).returnIndex

namespace Kin

variable {info' info'' : ThreadInfo} {hands' hands'' : HandlerAddr → Handler}

theorem refl (info : ThreadInfo) (hands : HandlerAddr → Handler) : Kin info info hands hands :=
  ⟨rfl, fun _ => rfl, fun _ => rfl⟩

theorem trans (hkin : Kin info info' hands hands') (hkin' : Kin info' info'' hands' hands'') :
    Kin info info'' hands hands'' :=
  ⟨hkin'.frame.trans hkin.frame, fun h => (hkin'.index h).trans (hkin.index h),
    fun h => (hkin'.returnIndex h).trans (hkin.returnIndex h)⟩

theorem record (hframe : Interrupt.frame info' = Interrupt.frame info) (hands : HandlerAddr → Handler) :
    Kin info info' hands hands := ⟨hframe, fun _ => rfl, fun _ => rfl⟩

theorem hand {hand : Handler} (hframe : Interrupt.frame info' = Interrupt.frame info)
    (hindex : hand.index = (hands h).index) (hret : hand.returnIndex = (hands h).returnIndex) :
    Kin info info' hands (update hands h hand) := by
  refine ⟨hframe, fun h' => ?_, fun h' => ?_⟩
  · by_cases heq : h' = h
    · rw [heq, update_self, hindex]
    · rw [update_of_ne heq]
  · by_cases heq : h' = h
    · rw [heq, update_self, hret]
    · rw [update_of_ne heq]

end Kin

theorem run_inHandlers {i : ℤ} (h : 0 ≤ i ∧ i < maxIntrHandlers) (s : Taskwide) :
    inHandlers i s = .ok ((), s) := by
  rw [inHandlers, if_pos h]
  rfl

theorem run_outsideHandlers {α : Type} {i : ℤ} (h : ¬(0 ≤ i ∧ i < maxIntrHandlers)) (k : Unit → M α)
    (s : Taskwide) : (inHandlers i >>= k) s = .error .outsideHandlers := by
  rw [inHandlers, if_neg h]
  rfl

namespace At

section

variable (hat : At self hs held th hands s)

include hat

theorem index_eq (h : HandlerAddr) : (s.handlers h).index = (hands h).index := by
  rw [← hat.hands]
  rfl

theorem returnIndex_eq (h : HandlerAddr) : (s.handlers h).returnIndex = (hands h).returnIndex := by
  rw [← hat.hands]
  rfl

theorem intrType_eq (h : HandlerAddr) : (s.handlers h).intrType = (hands h).intrType := by
  rw [← hat.hands]
  rfl

theorem get_alloc (hself : self ≠ 0) {id : ThreadId}
    (hid : (if id = 0 then source else id) = self) (hh : h = 0 ∨ h ∈ hs) (o : Outside) :
    th = none ∧ Stops (intrGetThreadInfo source id h true o.fresh) s ∨
      ∃ t, intrGetThreadInfo source id h true o.fresh s = .ok ((supplied th o).1, t) ∧
        At self hs held (some (supplied th o)) hands t := by
  cases th with
  | some x => exact inr (hat.get_known hself hid hh true o.fresh)
  | none =>
    by_cases hused : o.fresh.addr = 0 ∨ (s.records o.fresh.addr).isSome = true
    · exact inl ⟨rfl, hat.get_stops hself hid hh hused⟩
    · obtain ⟨haddr, hfree⟩ := not_or.mp hused
      exact inr (hat.get_new hself hid hh haddr (Option.not_isSome_iff_eq_none.mp hfree))

end

theorem enableHandler (hat : At self hs false th hands s) (hself : self ≠ 0)
    (hh : h ∈ hs) (hsome : supplied th o = (a, info))
    (hlow : 0 ≤ info.nextIndex) (hhigh : info.nextIndex < maxIntrHandlers) :
    Stops (intrEnableHandler self h o) s ∨
      ∃ t, intrEnableHandler self h o s = .ok (kernSuccess, t) ∧
        At self hs false (some (a, info.enabled h))
          (update hands h { hands h with index := info.nextIndex }) t := by
  obtain ⟨s₁, hlock, hat₁⟩ := hat.lock
  rcases hat₁.get_alloc hself (if_pos rfl) (inr hh) o with ⟨-, hstop⟩ | ⟨s₂, hget, hat₂⟩
  · rw [intrEnableHandler]
    exact inl (Stops.after hlock (hstop.bind _))
  rw [hsome] at hget hat₂
  obtain ⟨s₃, hhand, hat₃⟩ := hat₂.writeHandler (h := h)
    (f := fun hand => { hand with index := info.nextIndex }) (fun _ => rfl) fun _ => rfl
  obtain ⟨s₄, hinfo, hat₄⟩ := hat₃.writeInfo fun x =>
    { x with
      handlers := update x.handlers x.nextIndex h
      nextIndex := x.nextIndex + 1 }
  obtain ⟨t, hunlock, hlast⟩ := hat₄.unlocked kernSuccess
  refine inr ⟨t, ?_, hlast⟩
  rw [intrEnableHandler, run_bind hlock, run_bind hget, run_bind hat₂.readInfo, run_bind hhand,
    run_bind (run_inHandlers ⟨hlow, hhigh⟩ s₃), run_bind hinfo, hunlock]

theorem disableHandlerInternal_unset (hat : At self hs held th hands s)
    (hindex : (hands h).index < 0) :
    intrDisableHandlerInternal self h o s = .ok (kernSuccess, s) := by
  rw [intrDisableHandlerInternal, run_get, if_pos (by rwa [hat.index_eq])]
  rfl

theorem disableHandlerInternal (hat : At self hs held (some (a, info)) hands s)
    (hself : self ≠ 0) (hh : h = 0 ∨ h ∈ hs) (hlow : 0 ≤ (hands h).index)
    (hhigh : (hands h).index ≤ maxIntrHandlers) :
    ∃ t, intrDisableHandlerInternal self h o s = .ok (kernSuccess, t) ∧
      At self hs held (some (a, info.disabled hands (hands h).index)) hands t := by
  obtain ⟨s₁, hget, hat₁⟩ := hat.get_known hself (if_pos rfl) hh false o.fresh
  have hindex := hat.index_eq h
  obtain ⟨s₂, hnext, hat₂⟩ := hat₁.writeInfo fun x => { x with nextIndex := (hands h).index }
  have hset : ¬(s.handlers h).index < 0 := by omega
  by_cases hzero : (hands h).index = 0
  · obtain ⟨t, hret, hlast⟩ := hat₂.writeInfo fun x => { x with returnIndex := 0 }
    refine ⟨t, ?_, ?_⟩
    · rw [intrDisableHandlerInternal, run_get, if_neg hset, run_bind hget]
      simp only [hindex]
      rw [run_bind hnext, if_pos hzero, run_bind hret]
      rfl
    · have heq : info.disabled hands (hands h).index =
          { info with nextIndex := (hands h).index, returnIndex := 0 } := by
        rw [ThreadInfo.disabled, if_pos hzero]
      rw [heq]
      exact hlast
  · obtain ⟨t, hret, hlast⟩ := hat₂.writeInfo fun x =>
      { x with
        returnIndex := (s₂.handlers (x.handlers ((hands h).index - 1))).returnIndex }
    refine ⟨t, ?_, ?_⟩
    · rw [intrDisableHandlerInternal, run_get, if_neg hset, run_bind hget]
      simp only [hindex]
      rw [run_bind hnext, if_neg hzero, run_bind (run_inHandlers (by omega) s₂), run_get,
        run_bind hret]
      rfl
    · have heq : info.disabled hands (hands h).index = { info with
          nextIndex := (hands h).index
          returnIndex := (s₂.handlers (info.handlers ((hands h).index - 1))).returnIndex } := by
        rw [ThreadInfo.disabled, if_neg hzero, hat₂.returnIndex_eq]
      rw [heq]
      exact hlast

theorem deliverInterruptInternal (hat : At self hs held (some (a, info)) hands s)
    (hlow : 0 ≤ info.nextIndex) (source : ThreadId) (o : Outside)
    (deliveryType interruptType : Bits) : ∃ ret, intrDeliverInterruptInternal source deliveryType interruptType a o s =
      .ok (ret, s) := by
  rw [intrDeliverInterruptInternal, run_bind hat.readInfo]
  by_cases hzero : info.nextIndex = 0
  · exact ⟨kernFailure, by rw [if_pos hzero]; rfl⟩
  · have hfind : findHandler info s = .ok (0, s) := by
      rw [findHandler, if_neg (by omega)]
      rfl
    rw [if_neg hzero, run_bind hfind, run_get, if_pos rfl]
    split_ifs
    · exact ⟨o.syncDefault, rfl⟩
    · exact ⟨kernFailure, rfl⟩

section

variable (hat : At self hs false (some (a, info)) hands s) (hself : self ≠ 0)

include hat hself

theorem exitHandler (hh : h = 0 ∨ h ∈ hs) (hlow : 0 ≤ info.nextIndex) :
    ∃ t, intrExitHandler self h o s = .ok ((), t) ∧
      At self hs false (some (a, info.exited (hands h))) hands t := by
  obtain ⟨s₁, hlock, hat₁⟩ := hat.lock
  obtain ⟨s₂, hget, hat₂⟩ := hat₁.get_known hself (if_pos rfl) hh false o.fresh
  obtain ⟨s₃, hmask, hat₃⟩ := hat₂.writeInfo fun x =>
    { x with masked := x.masked &&& ~~~(hands h).intrType }
  obtain ⟨t, hunlock, hlast⟩ := hat₃.unlock
  refine ⟨t, ?_, hlast⟩
  rw [intrExitHandler, run_bind hlock, run_bind hget, run_get]
  simp only [hat₂.intrType_eq]
  rw [run_bind hmask, run_bind hat₃.readInfo]
  split_ifs
  · obtain ⟨ret, hdeliver⟩ := hat₃.deliverInterruptInternal hlow self o intrImmediate info.pending
    rw [run_bind hdeliver, hunlock]
  · exact hunlock

theorem newRoutine : ∃ t, intrNewRoutine self o s = .ok ((), t) ∧
      At self hs false (some (a, { info with returnIndex := info.nextIndex })) hands t := by
  obtain ⟨s₁, hlock, hat₁⟩ := hat.lock
  obtain ⟨s₂, hget, hat₂⟩ := hat₁.get_known hself (if_pos rfl) (inl rfl) false o.fresh
  obtain ⟨s₃, hret, hat₃⟩ := hat₂.writeInfo fun x => { x with returnIndex := x.nextIndex }
  obtain ⟨t, hunlock, hlast⟩ := hat₃.unlock
  refine ⟨t, ?_, hlast⟩
  rw [intrNewRoutine, run_bind hlock, run_bind hget, if_pos hat₂.addr_ne_zero, run_bind hret, hunlock]

end

theorem newRoutine_none (hat : At self hs false none hands s) (hself : self ≠ 0) :
    ∃ t, intrNewRoutine self o s = .ok ((), t) ∧ At self hs false none hands t := by
  obtain ⟨s₁, hlock, hat₁⟩ := hat.lock
  obtain ⟨s₂, hget, hat₂⟩ := hat₁.get_none hself (if_pos rfl) (inl rfl) o.fresh
  obtain ⟨t, hunlock, hlast⟩ := hat₂.unlock
  exact ⟨t, by rw [intrNewRoutine, run_bind hlock, run_bind hget, if_neg (by simp), hunlock], hlast⟩

theorem enterHandler (hat : At self hs held (some (a, info)) hands s) (hself : self ≠ 0)
    (hh : h = 0 ∨ h ∈ hs) (interrupt : Bits) :
    Stops (intrEnterHandler self h interrupt o) s ∨
      ∃ b t info' hands', intrEnterHandler self h interrupt o s = .ok (b, t) ∧
        At self hs held (some (a, info')) hands' t ∧ Kin info info' hands hands' := by
  obtain ⟨s₁, hget, hat₁⟩ := hat.get_known hself (if_pos rfl) hh true o.fresh
  rw [Stops, intrEnterHandler, run_bind hget, run_bind hat₁.readInfo]
  by_cases hpanic : intrSync &&& info.pending &&& info.masked ≠ 0
  · rw [if_pos hpanic]
    exact inl ⟨.taskTerminated, by simp, rfl⟩
  rw [if_neg hpanic]
  generalize (if interrupt &&& intrSync ≠ 0 then intrSync else intrAsync) = intr
  by_cases hmasked : intrAsync &&& intr &&& info.masked ≠ 0
  · rw [if_pos hmasked]
    exact inr ⟨false, s₁, info, hands, rfl, hat₁, Kin.refl info hands⟩
  rw [if_neg hmasked]
  obtain ⟨s₂, habort, hat₂⟩ := hat₁.writeHandler (h := h)
    (f := fun hand => { hand with abortReturn := 0, intrType := intr }) (fun _ => rfl) fun _ => rfl
  have hkin : Kin info info hands
      (update hands h { hands h with abortReturn := 0, intrType := intr }) :=
    Kin.hand rfl rfl rfl
  rw [run_bind habort]
  by_cases hsync : intrSync &&& intr ≠ 0
  · obtain ⟨s₃, hhand, hat₃⟩ := hat₂.writeHandler (h := h)
      (f := fun hand =>
        { hand with error := info.syncError, code := info.syncCode, subcode := info.syncSubcode })
      (fun _ => rfl) fun _ => rfl
    obtain ⟨t, hinfo, hlast⟩ := hat₃.writeInfo fun info =>
      { info with
        masked := info.masked ||| intr
        pending := info.pending &&& ~~~intr
        syncError := 0
        syncCode := 0
        syncSubcode := 0 }
    rw [if_pos hsync, run_bind hhand, run_bind hinfo]
    exact inr ⟨true, t, _, _, rfl, hlast, hkin.trans (Kin.hand rfl rfl rfl)⟩
  · obtain ⟨s₃, hhand, hat₃⟩ := hat₂.writeHandler (h := h)
      (f := fun hand =>
        { hand with error := info.asyncError, code := info.asyncCode, subcode := info.asyncSubcode })
      (fun _ => rfl) fun _ => rfl
    obtain ⟨t, hinfo, hlast⟩ := hat₃.writeInfo fun info =>
      { info with
        masked := info.masked ||| intr
        pending := info.pending &&& ~~~intr
        asyncError := 0
        asyncCode := 0
        asyncSubcode := 0 }
    rw [if_neg hsync, run_bind hhand, run_bind hinfo]
    exact inr ⟨true, t, _, _, rfl, hlast, hkin.trans (Kin.hand rfl rfl rfl)⟩

theorem disableHandler (hat : At self hs false (some (a, info)) hands s) (hself : self ≠ 0)
    (hh : h = 0 ∨ h ∈ hs) (hlow : 0 ≤ (hands h).index) (hhigh : (hands h).index ≤ maxIntrHandlers) :
    ∃ t, intrDisableHandler self h o s = .ok (kernSuccess, t) ∧
      At self hs false (some (a, info.disabled hands (hands h).index)) hands t := by
  obtain ⟨s₁, hlock, hat₁⟩ := hat.lock
  obtain ⟨s₂, hdisable, hat₂⟩ := hat₁.disableHandlerInternal (o := o) hself hh hlow hhigh
  obtain ⟨t, hunlock, hlast⟩ := hat₂.unlocked kernSuccess
  exact ⟨t, by rw [intrDisableHandler, run_bind hlock, run_bind hdisable, hunlock], hlast⟩

theorem disableHandler_unset (hat : At self hs false th hands s) (hindex : (hands h).index < 0) :
    ∃ t, intrDisableHandler self h o s = .ok (kernSuccess, t) ∧ At self hs false th hands t := by
  obtain ⟨s₁, hlock, hat₁⟩ := hat.lock
  obtain ⟨t, hunlock, hlast⟩ := hat₁.unlocked kernSuccess
  refine ⟨t, ?_, hlast⟩
  rw [intrDisableHandler, run_bind hlock, run_bind (hat₁.disableHandlerInternal_unset hindex), hunlock]

theorem pending_none (hat : At self hs false none hands s) (hself : self ≠ 0)
    (hh : h = 0 ∨ h ∈ hs) (enterHandler : Bool) :
    ∃ t, intrPending self h enterHandler o s = .ok (false, t) ∧ At self hs false none hands t := by
  obtain ⟨s₁, hlock, hat₁⟩ := hat.lock
  obtain ⟨s₂, hget, hat₂⟩ := hat₁.get_none hself (if_pos rfl) hh o.fresh
  obtain ⟨t, hunlock, hlast⟩ := hat₂.unlocked false
  exact ⟨t, by rw [intrPending, run_bind hlock, run_bind hget, if_pos rfl, hunlock], hlast⟩

section

variable (hat : At self hs false (some (a, info)) hands s) (hself : self ≠ 0) (hh : h = 0 ∨ h ∈ hs)

include hat hself hh

theorem pending : Stops (intrPending self h true o) s ∨
      ∃ b t info' hands', intrPending self h true o s = .ok (b, t) ∧
        At self hs false (some (a, info')) hands' t ∧ Kin info info' hands hands' := by
  obtain ⟨s₁, hlock, hat₁⟩ := hat.lock
  obtain ⟨s₂, hget, hat₂⟩ := hat₁.get_known hself (if_pos rfl) hh false o.fresh
  rw [Stops, intrPending, run_bind hlock, run_bind hget, if_neg hat₂.addr_ne_zero,
    run_bind hat₂.readInfo, run_get]
  by_cases happ : intrDeliverableRegion info.pending intrAll (s₂.handlers h).regionType = 0
  · obtain ⟨t, hunlock, hlast⟩ := hat₂.unlocked false
    rw [if_pos happ]
    exact inr ⟨false, t, info, hands, hunlock, hlast, Kin.refl info hands⟩
  rw [if_neg happ, if_pos rfl]
  rcases hat₂.enterHandler (o := o) hself hh info.pending with
    hstop | ⟨b, s₃, info', hands', henter, hat₃, hkin⟩
  · exact inl (hstop.bind _)
  · obtain ⟨t, hunlock, hlast⟩ := hat₃.unlocked true
    exact inr ⟨true, t, info', hands', by rw [run_bind henter, hunlock], hlast, hkin⟩

theorem intrReturn_top (htop : info.nextIndex = info.returnIndex) (hpos : 0 < info.nextIndex)
    (hhigh : info.nextIndex ≤ maxIntrHandlers) :
    ∃ t info', intrReturn self h o s = .ok ((), t) ∧
      At self hs false (some (a, info')) hands t ∧ frame info' = frame { info with
        returnIndex := (hands (info.handlers (info.nextIndex - 1))).returnIndex } := by
  obtain ⟨s₁, hlock, hat₁⟩ := hat.lock
  obtain ⟨s₂, hget, hat₂⟩ := hat₁.get_known hself (if_pos rfl) hh false o.fresh
  obtain ⟨s₃, hmask, hat₃⟩ := hat₂.writeInfo fun info =>
    { info with pending := info.pending &&& ~~~info.masked, masked := 0 }
  obtain ⟨s₄, hret, hat₄⟩ := hat₃.writeInfo fun info =>
    { info with
      returnIndex := (s₃.handlers (info.handlers (info.nextIndex - 1))).returnIndex }
  obtain ⟨t, hunlock, hlast⟩ := hat₄.unlock
  refine ⟨t, _, ?_, hlast, ?_⟩
  · have hin : 0 ≤ info.nextIndex - 1 ∧ info.nextIndex - 1 < maxIntrHandlers := by omega
    rw [intrReturn, run_bind hlock, run_bind hget, if_neg hat₂.addr_ne_zero, popHandlers,
      run_bind hmask, run_bind hat₃.readInfo, if_pos htop, run_bind (run_inHandlers hin s₃),
      run_get, run_bind hret, hunlock]
  · simp only [frame, hat₃.returnIndex_eq]

theorem intrReturn_pop (htop : info.nextIndex ≠ info.returnIndex)
    (hret : 0 ≤ info.returnIndex ∧ info.returnIndex < maxIntrHandlers)
    (hmem : info.handlers info.returnIndex ∈ hs)
    (hindex : (hands (info.handlers info.returnIndex)).index = info.returnIndex) :
    ∃ t info', intrReturn self h o s = .ok ((), t) ∧
      At self hs false (some (a, info')) hands t ∧
      frame info' = frame (info.disabled hands info.returnIndex) := by
  obtain ⟨s₁, hlock, hat₁⟩ := hat.lock
  obtain ⟨s₂, hget, hat₂⟩ := hat₁.get_known hself (if_pos rfl) hh false o.fresh
  obtain ⟨s₃, hmask, hat₃⟩ := hat₂.writeInfo fun info =>
    { info with pending := info.pending &&& ~~~info.masked, masked := 0 }
  obtain ⟨s₄, hdisable, hat₄⟩ := hat₃.disableHandlerInternal (o := o)
    (h := info.handlers info.returnIndex) hself (inr hmem) (by omega) (by omega)
  obtain ⟨t, hunlock, hlast⟩ := hat₄.unlock
  refine ⟨t, _, ?_, hlast, ?_⟩
  · rw [intrReturn, run_bind hlock, run_bind hget, if_neg hat₂.addr_ne_zero, popHandlers,
      run_bind hmask, run_bind hat₃.readInfo, if_neg htop, run_bind (run_inHandlers hret s₃),
      run_bind hdisable, hunlock]
  · rw [hindex]
    rfl

theorem intrReturn_outside (hout : info.nextIndex = info.returnIndex ∧ info.nextIndex ≤ 0 ∨
      info.nextIndex ≠ info.returnIndex ∧ info.returnIndex < 0) :
    intrReturn self h o s = .error .outsideHandlers := by
  obtain ⟨s₁, hlock, hat₁⟩ := hat.lock
  obtain ⟨s₂, hget, hat₂⟩ := hat₁.get_known hself (if_pos rfl) hh false o.fresh
  obtain ⟨s₃, hmask, hat₃⟩ := hat₂.writeInfo fun info =>
    { info with pending := info.pending &&& ~~~info.masked, masked := 0 }
  rw [intrReturn, run_bind hlock, run_bind hget, if_neg hat₂.addr_ne_zero, popHandlers,
    run_bind hmask, run_bind hat₃.readInfo]
  rcases hout with ⟨htop, hnext⟩ | ⟨htop, hret⟩
  · rw [if_pos htop]
    exact run_outsideHandlers (by dsimp only; omega) _ s₃
  · rw [if_neg htop]
    exact run_outsideHandlers (by dsimp only; omega) _ s₃

end

theorem deliverInterrupt (hat : At self hs false (some (a, info)) hands s) (hself : self ≠ 0)
    (hlow : 0 ≤ info.nextIndex) (source : ThreadId) (deliveryType interruptType : Bits) :
    ∃ ret t, intrDeliverInterrupt source self deliveryType interruptType o s = .ok (ret, t) ∧
      At self hs false (some (a, info)) hands t := by
  obtain ⟨s₁, hlock, hat₁⟩ := hat.lock
  have hid : (if self = 0 then source else self) = self := if_neg hself
  obtain ⟨s₂, hget, hat₂⟩ := hat₁.get_known hself hid (inl rfl) false o.fresh
  obtain ⟨ret, hdeliver⟩ := hat₂.deliverInterruptInternal hlow source o deliveryType interruptType
  obtain ⟨t, hunlock, hlast⟩ := hat₂.unlocked ret
  refine ⟨ret, t, ?_, hlast⟩
  rw [intrDeliverInterrupt, run_bind hlock, run_bind hget, if_pos hat₂.addr_ne_zero,
    run_bind hdeliver, hunlock]

theorem deliverInterrupt_none (hat : At self hs false none hands s) (hself : self ≠ 0)
    (source : ThreadId) (deliveryType interruptType : Bits) :
    ∃ ret t, intrDeliverInterrupt source self deliveryType interruptType o s = .ok (ret, t) ∧
      At self hs false none hands t := by
  obtain ⟨s₁, hlock, hat₁⟩ := hat.lock
  have hid : (if self = 0 then source else self) = self := if_neg hself
  obtain ⟨s₂, hget, hat₂⟩ := hat₁.get_none hself hid (inl rfl) o.fresh
  obtain ⟨t, hunlock, hlast⟩ := hat₂.unlocked kernSuccess
  refine ⟨kernSuccess, t, ?_, hlast⟩
  rw [intrDeliverInterrupt, run_bind hlock, run_bind hget, if_neg (by simp), hunlock]

theorem postInterrupt (hat : At self hs false th hands s) (hself : self ≠ 0)
    (hsome : supplied th o = (a, info)) (hlow : 0 ≤ info.nextIndex)
    (hshake : info.shakeOnPost = none) (source : ThreadId) (deliveryType interruptType : Bits)
    (error code subcode : ℤ) :
    th = none ∧ Stops (intrPostInterrupt source self deliveryType interruptType error code subcode o) s ∨
      ∃ ret t info',
        intrPostInterrupt source self deliveryType interruptType error code subcode o s =
          .ok (ret, t) ∧ At self hs false (some (a, info')) hands t ∧ frame info' = frame info := by
  obtain ⟨s₁, hlock, hat₁⟩ := hat.lock
  have hid : (if self = 0 then source else self) = self := if_neg hself
  rcases hat₁.get_alloc hself hid (inl rfl) o with ⟨hnone, hstop⟩ | ⟨s₂, hget, hat₂⟩
  · rw [intrPostInterrupt]
    exact inl ⟨hnone, Stops.after hlock (hstop.bind _)⟩
  refine inr ?_
  rw [hsome] at hget hat₂
  obtain ⟨f, hf⟩ : ∃ f : ThreadInfo → ThreadInfo, f = fun info =>
      if info.pending &&& interruptType = 0 then
        if intrSync &&& interruptType ≠ 0 then
          { info with
            pending := info.pending ||| interruptType
            syncError := error
            syncCode := code
            syncSubcode := subcode }
        else
          { info with
            pending := info.pending ||| interruptType
            asyncError := error
            asyncCode := code
            asyncSubcode := subcode }
      else info := ⟨_, rfl⟩
  have hframe : frame (f info) = frame info := by
    rw [hf]
    dsimp only
    split_ifs <;> rfl
  obtain ⟨-, hnext, -, hposted⟩ := frame_eq_iff.mp hframe
  obtain ⟨s₃, hwrite, hat₃⟩ := hat₂.writeInfo f
  have hshaken : shakePosted source interruptType (f info) a o s₃ = .ok ((), s₃) := by
    rw [shakePosted, hposted, hshake]
    rfl
  rw [intrPostInterrupt, run_bind hlock, run_bind hget]
  rw [← hf, run_bind hwrite, run_bind hat₃.readInfo, run_bind hshaken]
  split_ifs
  · obtain ⟨t, hunlock, hlast⟩ := hat₃.unlocked kernSuccess
    exact ⟨kernSuccess, t, f info, hunlock, hlast, hframe⟩
  · obtain ⟨ret, hdeliver⟩ := hat₃.deliverInterruptInternal (by omega) source o
      intrImmediate interruptType
    obtain ⟨t, hunlock, hlast⟩ := hat₃.unlocked ret
    exact ⟨ret, t, f info, by rw [run_bind hdeliver, hunlock], hlast, hframe⟩

end At

end MachUS.Interrupt
