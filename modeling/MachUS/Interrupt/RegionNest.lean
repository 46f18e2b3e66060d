import MachUS.Interrupt.ThreadOperations

namespace MachUS.Interrupt

open Function Or List

variable {handlers handlers' : ℤ → HandlerAddr} {hands hands' : HandlerAddr → Handler}
  {info info' : ThreadInfo} {h : HandlerAddr} {r : Region} {rs rs' : List Region} {j k : ℤ}

inductive Stacked (handlers : ℤ → HandlerAddr) (hands : HandlerAddr → Handler) :
    ℤ → List Region → Prop
  | nil : Stacked handlers hands 0 []
  | enabled {k : ℤ} {r : Region} {rs : List Region} (henabled : r.enabled = true)
      (hentry : k = r.entry + 1) (hhand : handlers r.entry = r.hand)
      (hindex : (hands r.hand).index = r.entry) (hret : (hands r.hand).returnIndex = -1)
      (hrest : Stacked handlers hands r.entry rs) : Stacked handlers hands k (r :: rs)
  | entered {k : ℤ} {r : Region} {rs : List Region} (henabled : r.enabled = false)
      (hentry : k = r.entry) (hindex : (hands r.hand).index < 0)
      (hrest : Stacked handlers hands r.entry rs) : Stacked handlers hands k (r :: rs)

namespace Stacked

theorem nonneg (hst : Stacked handlers hands k rs) : 0 ≤ k := by
  induction hst with
  | nil => exact Int.le_refl 0
  | enabled _ _ _ _ _ _ ih => omega
  | entered _ _ _ _ ih => omega

theorem congr (hst : Stacked handlers hands k rs) (hlow : ∀ j < k, handlers' j = handlers j)
    (hindex : ∀ r ∈ rs, (hands' r.hand).index = (hands r.hand).index)
    (hret : ∀ r ∈ rs, (hands' r.hand).returnIndex = (hands r.hand).returnIndex) :
    Stacked handlers' hands' k rs := by
  induction hst with
  | nil => exact .nil
  | @enabled k r rs henabled hentry hhand hr hretr _ ih =>
    have hself : r ∈ r :: rs := mem_cons_self
    refine .enabled henabled hentry ((hlow _ (by omega)).trans hhand) ((hindex r hself).trans hr)
      ((hret r hself).trans hretr) (ih (fun j hj => hlow j (by omega)) ?_ ?_)
    · exact fun x hx => hindex x (mem_cons_of_mem _ hx)
    · exact fun x hx => hret x (mem_cons_of_mem _ hx)
  | @entered k r rs henabled hentry hr _ ih =>
    have hself : r ∈ r :: rs := mem_cons_self
    refine .entered henabled hentry (by rwa [hindex r hself])
      (ih (fun j hj => hlow j (by omega)) ?_ ?_)
    · exact fun x hx => hindex x (mem_cons_of_mem _ hx)
    · exact fun x hx => hret x (mem_cons_of_mem _ hx)

theorem at_lt (hst : Stacked handlers hands k rs) (hlow : 0 ≤ j) (hj : j < k) :
    ∃ r ∈ rs, handlers j = r.hand ∧ (hands r.hand).index = j ∧ (hands r.hand).returnIndex = -1 := by
  induction hst with
  | nil => omega
  | @enabled k r rs _ hentry hhand hindex hret _ ih =>
    by_cases htop : j = r.entry
    · subst htop
      exact ⟨r, mem_cons_self, hhand, hindex, hret⟩
    · obtain ⟨x, hx, hat⟩ := ih (by omega)
      exact ⟨x, mem_cons_of_mem _ hx, hat⟩
  | entered _ hentry _ _ ih =>
    obtain ⟨x, hx, hat⟩ := ih (by omega)
    exact ⟨x, mem_cons_of_mem _ hx, hat⟩

theorem uncons (hst : Stacked handlers hands k (r :: rs)) : Stacked handlers hands r.entry rs ∧
    (k = r.entry + 1 ∧ (hands r.hand).index = r.entry ∨
      k = r.entry ∧ (hands r.hand).index < 0) := by
  cases hst with
  | enabled _ hentry _ hindex _ hrest => exact ⟨hrest, inl ⟨hentry, hindex⟩⟩
  | entered _ hentry hindex hrest => exact ⟨hrest, inr ⟨hentry, hindex⟩⟩

theorem handling (hst : Stacked handlers hands k (r :: rs)) (b : Bool) :
    Stacked handlers hands k ({ r with handling := b } :: rs) := by
  cases hst with
  | enabled henabled hentry hhand hindex hret hrest =>
    exact .enabled henabled hentry hhand hindex hret hrest
  | entered henabled hentry hindex hrest => exact .entered henabled hentry hindex hrest

theorem drop (hst : Stacked handlers hands k (rs ++ rs')) (hlast : rs.getLast? = some r) :
    r.entry ≤ k ∧ Stacked handlers hands r.entry rs' := by
  induction rs generalizing k with
  | nil => cases hlast
  | cons x rs ih =>
    obtain ⟨hrest, hk⟩ := hst.uncons
    have hle : x.entry ≤ k := by omega
    cases rs with
    | nil =>
      cases hlast
      exact ⟨hle, hrest⟩
    | cons y rs =>
      obtain ⟨hle', hrest'⟩ := ih hrest (by rwa [getLast?_cons_cons] at hlast)
      exact ⟨Int.le_trans hle' hle, hrest'⟩

end Stacked

structure Framed (hands : HandlerAddr → Handler) (info : ThreadInfo) (rs : List Region) : Prop where
  high : info.nextIndex ≤ maxIntrHandlers
  least : -1 ≤ info.returnIndex
  most : info.returnIndex ≤ info.nextIndex
  shake : info.shakeOnPost = none
  stacked : Stacked info.handlers hands info.nextIndex rs

namespace Framed

theorem init (hands : HandlerAddr → Handler) (junk : ThreadInfo) : Framed hands junk.init [] := by
  have hnext : junk.init.nextIndex = 0 := rfl
  have hret : junk.init.returnIndex = 0 := rfl
  have hmax : (0 : ℤ) ≤ maxIntrHandlers := by decide
  refine ⟨?_, ?_, ?_, rfl, .nil⟩
  · rw [hnext]
    exact hmax
  · omega
  · omega

theorem nonneg (hf : Framed hands info rs) : 0 ≤ info.nextIndex := hf.stacked.nonneg

theorem kin (hf : Framed hands info rs) (hkin : Kin info info' hands hands') :
    Framed hands' info' rs := by
  obtain ⟨hhandlers, hnext, hret, hshake⟩ := frame_eq_iff.mp hkin.frame
  refine ⟨by rw [hnext]; exact hf.high, by rw [hret]; exact hf.least,
    by rw [hnext, hret]; exact hf.most, hshake.trans hf.shake, ?_⟩
  rw [hhandlers, hnext]
  exact hf.stacked.congr (fun _ _ => rfl) (fun x _ => hkin.index _) fun x _ => hkin.returnIndex _

theorem newRoutine (hf : Framed hands info rs) :
    Framed hands { info with returnIndex := info.nextIndex } rs :=
  ⟨hf.high, Int.le_trans (by decide) hf.nonneg, Int.le_refl _, hf.shake, hf.stacked⟩

theorem elsewhere (hf : Framed hands info rs) (hfree : ∀ r ∈ rs, r.hand ≠ h) (hand : Handler) :
    Framed (update hands h hand) info rs := by
  refine ⟨hf.high, hf.least, hf.most, hf.shake, hf.stacked.congr (fun _ _ => rfl) ?_ ?_⟩
  · exact fun x hx => by rw [update_of_ne (hfree x hx)]
  · exact fun x hx => by rw [update_of_ne (hfree x hx)]

theorem enabled (hf : Framed hands info rs) (hnext : info.nextIndex < maxIntrHandlers)
    (hfree : ∀ r ∈ rs, r.hand ≠ h) (hret : (hands h).returnIndex = -1)
    (handled handling : Bool) :
    Framed (update hands h { hands h with index := info.nextIndex }) (info.enabled h)
      (⟨h, info.nextIndex, true, handled, handling⟩ :: rs) := by
  have hupdated := hf.elsewhere hfree { hands h with index := info.nextIndex }
  have hmost := hf.most
  refine ⟨?_, hf.least, ?_, hf.shake, .enabled rfl rfl (update_self _ _ _) ?_ ?_ ?_⟩
  · rw [ThreadInfo.enabled]
    dsimp only
    omega
  · rw [ThreadInfo.enabled]
    dsimp only
    omega
  · rw [update_self]
  · rw [update_self]
    exact hret
  · refine hupdated.stacked.congr (fun j hj => update_of_ne (Int.ne_of_lt hj) _ _) ?_ ?_
    · exact fun x _ => rfl
    · exact fun x _ => rfl

theorem entered (hf : Framed hands info rs) (hindex : (hands h).index < 0)
    (handled handling : Bool) :
    Framed hands info (⟨h, info.nextIndex, false, handled, handling⟩ :: rs) :=
  ⟨hf.high, hf.least, hf.most, hf.shake, .entered rfl rfl hindex hf.stacked⟩

theorem disabled (hf : Framed hands info rs) (hj : j ≤ maxIntrHandlers)
    (hst : Stacked info.handlers hands j rs') : Framed hands (info.disabled hands j) rs' := by
  have hnonneg := hst.nonneg
  by_cases hzero : j = 0
  · have hret : (info.disabled hands j).returnIndex = 0 := if_pos hzero
    refine ⟨hj, by omega, ?_, hf.shake, hst⟩
    rw [hret]
    exact hnonneg
  · obtain ⟨r, -, hhand, -, hr⟩ := hst.at_lt (j := j - 1) (by omega) (by omega)
    have hret : (info.disabled hands j).returnIndex = -1 := by
      rw [ThreadInfo.disabled, if_neg hzero, hhand, hr]
    refine ⟨hj, by omega, ?_, hf.shake, hst⟩
    rw [hret]
    exact Int.le_trans (by decide) hnonneg

theorem unchanged (hf : Framed hands info rs) (hpos : 0 < info.nextIndex)
    (hst : Stacked info.handlers hands info.nextIndex rs') : Framed hands { info with
      returnIndex := (hands (info.handlers (info.nextIndex - 1))).returnIndex } rs' := by
  obtain ⟨r, -, hhand, -, hr⟩ := hst.at_lt (j := info.nextIndex - 1) (by omega) (by omega)
  have hret : (hands (info.handlers (info.nextIndex - 1))).returnIndex = -1 := by rw [hhand, hr]
  have hmost : -1 ≤ info.nextIndex := by omega
  rw [hret]
  exact ⟨hf.high, Int.le_refl _, hmost, hf.shake, hst⟩

theorem handling (hf : Framed hands info (r :: rs)) (b : Bool) :
    Framed hands info ({ r with handling := b } :: rs) :=
  ⟨hf.high, hf.least, hf.most, hf.shake, hf.stacked.handling b⟩

end Framed

def Opened (hands : HandlerAddr → Handler) (rs : List Region) : Option (Addr × ThreadInfo) → Prop
  | none => rs = []
  | some x => Framed hands x.2 rs

theorem Opened.supplied {th : Option (Addr × ThreadInfo)} (hopen : Opened hands rs th) (o : Outside) :
    Framed hands (supplied th o).2 rs := by
  cases th with
  | none =>
    obtain rfl : rs = [] := hopen
    exact .init hands o.fresh.junk
  | some x => exact hopen

def indexOf (th : Option (Addr × ThreadInfo)) : ℤ := (th.map fun x => x.2.nextIndex).getD 0

section Thread

variable {self : ThreadId} {hs : List HandlerAddr} {held : Bool}
  {th : Option (Addr × ThreadInfo)} {s : Taskwide}

theorem At.thread_self (hat : At self hs held th hands s) : s.thread self = th.map Prod.snd := by
  rw [← hat.thread, Option.map_bind, Taskwide.thread]
  congr 1
  funext a
  simp [Option.map_map, comp_def]

theorem At.index_self (hat : At self hs held th hands s) : s.index self = indexOf th := by
  rw [Taskwide.index, hat.thread_self, Option.map_map]
  rfl

end Thread

structure Seen (id : ThreadId) (hs : List HandlerAddr) (rs : List Region) (k : ℤ)
    (th : Option (Addr × ThreadInfo)) (hands : HandlerAddr → Handler) (s : Taskwide) : Prop where
  view : At id hs false th hands s
  opened : Opened hands rs th
  index : indexOf th = k

namespace Seen

variable {self source : ThreadId} {hs : List HandlerAddr} {th : Option (Addr × ThreadInfo)}
  {s : Taskwide} {o : Outside}

theorem taskIndex (hseen : Seen self hs rs k th hands s) : s.index self = k :=
  hseen.view.index_self.trans hseen.index

theorem close (hseen : Seen self hs rs k th hands s) {hs' : List HandlerAddr} (hsub : hs' ⊆ hs) :
    Seen self hs' rs k th hands s := ⟨hseen.view.close hsub, hseen.opened, hseen.index⟩

theorem newRoutine (hseen : Seen self hs rs k th hands s) (hself : self ≠ 0) (o : Outside) :
    ∃ th' t, intrNewRoutine self o s = .ok ((), t) ∧ Seen self hs rs k th' hands t := by
  cases th with
  | none =>
    obtain ⟨t, hrun, hat⟩ := hseen.view.newRoutine_none (o := o) hself
    exact ⟨none, t, hrun, hat, hseen.opened, hseen.index⟩
  | some x =>
    obtain ⟨t, hrun, hat⟩ := hseen.view.newRoutine (o := o) hself
    exact ⟨_, t, hrun, hat, Framed.newRoutine hseen.opened, hseen.index⟩

theorem openRegion (hseen : Seen self hs rs k th hands s) (hfree : ∀ r ∈ rs, r.hand ≠ h)
    (rtype : Bits) : ∃ t, writeHandler h (·.region rtype) s = .ok ((), t) ∧
      Seen self (h :: hs) rs k th (update hands h ((hands h).region rtype)) t := by
  obtain ⟨t, hrun, hat⟩ := hseen.view.openRegion h rtype
  refine ⟨t, hrun, hat, ?_, hseen.index⟩
  cases th with
  | none => exact hseen.opened
  | some x => exact Framed.elsewhere hseen.opened hfree _

theorem pending (hseen : Seen self hs rs k th hands s) (hself : self ≠ 0) (hh : h ∈ hs)
    (o : Outside) : Stops (intrPending self h true o) s ∨
      ∃ b th' hands' t, intrPending self h true o s = .ok (b, t) ∧
        Seen self hs rs k th' hands' t ∧ (b = true → th'.isSome = true) ∧
        (hands' h).index = (hands h).index ∧ (hands' h).returnIndex = (hands h).returnIndex := by
  cases th with
  | none =>
    obtain ⟨t, hrun, hat⟩ := hseen.view.pending_none (o := o) hself (inr hh) true
    exact inr ⟨false, none, hands, t, hrun, ⟨hat, hseen.opened, hseen.index⟩, by simp, rfl, rfl⟩
  | some x =>
    rcases hseen.view.pending (o := o) hself (inr hh) with
      hstop | ⟨b, t, info', hands', hrun, hat, hkin⟩
    · exact inl hstop
    · have hnext : info'.nextIndex = x.2.nextIndex := (frame_eq_iff.mp hkin.frame).2.1
      exact inr ⟨b, some (x.1, info'), hands', t, hrun,
        ⟨hat, Framed.kin hseen.opened hkin, hnext.trans hseen.index⟩, fun _ => rfl,
        hkin.index h, hkin.returnIndex h⟩

theorem enable (hseen : Seen self hs rs k th hands s) (hself : self ≠ 0) (hh : h ∈ hs)
    (hfree : ∀ r ∈ rs, r.hand ≠ h) (hk : k < maxIntrHandlers)
    (hret : (hands h).returnIndex = -1) (handled handling : Bool) (o : Outside) :
    Stops (intrEnableHandler self h o) s ∨
      ∃ ret th' hands' t, intrEnableHandler self h o s = .ok (ret, t) ∧
        Seen self hs (⟨h, k, true, handled, handling⟩ :: rs) (k + 1) th' hands' t := by
  have hframed := hseen.opened.supplied o
  have hnext : (supplied th o).2.nextIndex = k := by
    rw [← hseen.index]
    cases th <;> rfl
  rcases hseen.view.enableHandler (o := o) hself hh (Prod.eta (supplied th o)).symm
    hframed.nonneg (by omega) with hstop | ⟨t, hrun, hat⟩
  · exact inl hstop
  · refine inr ⟨_, _, _, t, hrun, hat, ?_, ?_⟩
    · rw [← hnext]
      exact hframed.enabled (by omega) hfree hret handled handling
    · rw [← hnext]
      rfl

theorem disable (hseen : Seen self hs (r :: rs) k th hands s) (hself : self ≠ 0)
    (hh : r.hand ∈ hs) (o : Outside) :
    ∃ ret th' t, intrDisableHandler self r.hand o s = .ok (ret, t) ∧
      Seen self hs rs r.entry th' hands t := by
  cases th with
  | none => cases hseen.opened
  | some x =>
    have hframed : Framed hands x.2 (r :: rs) := hseen.opened
    have hhigh := hframed.high
    obtain ⟨hrest, ⟨hentry, hindex⟩ | ⟨hentry, hindex⟩⟩ := hframed.stacked.uncons
    · have hlow := hrest.nonneg
      obtain ⟨t, hrun, hat⟩ := hseen.view.disableHandler (o := o) hself (inr hh) (by omega)
        (by omega)
      rw [hindex] at hat
      exact ⟨_, _, t, hrun, hat, hframed.disabled (by omega) hrest, rfl⟩
    · obtain ⟨t, hrun, hat⟩ := hseen.view.disableHandler_unset (o := o) hindex
      refine ⟨_, _, t, hrun, hat, ⟨hhigh, hframed.least, hframed.most, hframed.shake, ?_⟩, hentry⟩
      rw [hentry]
      exact hrest

theorem exit (hseen : Seen self hs (r :: rs) k th hands s) (hself : self ≠ 0) (hh : r.hand ∈ hs)
    (o : Outside) : ∃ th' t, intrExitHandler self r.hand o s = .ok ((), t) ∧
      Seen self hs (r :: rs) k th' hands t := by
  cases th with
  | none => cases hseen.opened
  | some x =>
    have hframed : Framed hands x.2 (r :: rs) := hseen.opened
    obtain ⟨t, hrun, hat⟩ := hseen.view.exitHandler (o := o) hself (inr hh) hframed.nonneg
    have hkin : Kin x.2 (x.2.exited (hands r.hand)) hands hands :=
      ⟨rfl, fun _ => rfl, fun _ => rfl⟩
    exact ⟨_, t, hrun, hat, hframed.kin hkin, hseen.index⟩

theorem deliver (hseen : Seen self hs rs k th hands s) (hself : self ≠ 0) (source : ThreadId)
    (deliveryType interruptType : Bits) (o : Outside) :
    ∃ ret t, intrDeliverInterrupt source self deliveryType interruptType o s = .ok (ret, t) ∧
      Seen self hs rs k th hands t := by
  cases th with
  | none =>
    obtain ⟨ret, t, hrun, hat⟩ := hseen.view.deliverInterrupt_none (o := o) hself source
      deliveryType interruptType
    exact ⟨ret, t, hrun, hat, hseen.opened, hseen.index⟩
  | some x =>
    obtain ⟨ret, t, hrun, hat⟩ := hseen.view.deliverInterrupt (o := o) hself
      (Framed.nonneg hseen.opened) source deliveryType interruptType
    exact ⟨ret, t, hrun, hat, hseen.opened, hseen.index⟩

theorem post (hseen : Seen self hs rs k th hands s) (hself : self ≠ 0) (source : ThreadId)
    (deliveryType interruptType : Bits) (error code subcode : ℤ) (o : Outside) :
    th = none ∧
        Stops (intrPostInterrupt source self deliveryType interruptType error code subcode o) s ∨
      ∃ ret th' t, intrPostInterrupt source self deliveryType interruptType error code subcode o s =
        .ok (ret, t) ∧ Seen self hs rs k th' hands t := by
  have hframed := hseen.opened.supplied o
  have hnext : (supplied th o).2.nextIndex = k := by
    rw [← hseen.index]
    cases th <;> rfl
  rcases hseen.view.postInterrupt (o := o) hself (Prod.eta (supplied th o)).symm hframed.nonneg
    hframed.shake source deliveryType interruptType error code subcode with
    hstop | ⟨ret, t, info', hrun, hat, hframe⟩
  · exact inl hstop
  · have hkept : info'.nextIndex = (supplied th o).2.nextIndex := (frame_eq_iff.mp hframe).2.1
    exact inr ⟨ret, _, t, hrun, hat, hframed.kin (Kin.record hframe hands), hkept.trans hnext⟩

theorem region (hseen : Seen self hs rs k th hands s) (hself : self ≠ 0)
    (hfree : ∀ r ∈ rs, r.hand ≠ h) (hk : k < maxIntrHandlers) (rtype : Bits) (top handled : Bool)
    (o : Outside) : Stops (intrRegion self h rtype top o) s ∨
      ∃ b th' hands' t, intrRegion self h rtype top o s = .ok (b, t) ∧
        Seen self (h :: hs) (⟨h, k, !b, handled, b⟩ :: rs) (if b then k else k + 1) th' hands' t := by
  obtain ⟨th₁, s₁, htop, hseen₁⟩ : ∃ th₁ s₁, newRoutineAtTop self top o s = .ok ((), s₁) ∧
      Seen self hs rs k th₁ hands s₁ := by
    cases top with
    | true => exact hseen.newRoutine hself o
    | false => exact ⟨th, s, rfl, hseen⟩
  obtain ⟨s₂, hwrite, hseen₂⟩ := hseen₁.openRegion hfree rtype
  have hopened : update hands h ((hands h).region rtype) h = (hands h).region rtype :=
    update_self _ _ _
  have hmem : h ∈ h :: hs := mem_cons_self
  rw [intrRegion]
  rcases hseen₂.pending hself hmem o with
    hstop | ⟨b, th', hands', s₃, hpending, hseen₃, hhas, hindex, hret⟩
  · exact inl (Stops.after htop (Stops.after hwrite (hstop.bind _)))
  rw [hopened] at hindex hret
  cases b with
  | true =>
    refine inr ⟨true, th', hands', s₃, ?_, hseen₃.view, ?_, hseen₃.index⟩
    · rw [run_bind htop, run_bind hwrite, run_bind hpending]
      rfl
    · cases th' with
      | none => cases hhas rfl
      | some x =>
        have hframed : Framed hands' x.2 rs := hseen₃.opened
        have hnext : x.2.nextIndex = k := hseen₃.index
        have hunset : (hands' h).index < 0 := by
          rw [hindex]
          exact Int.negSucc_lt_zero 0
        have hentered := hframed.entered hunset handled true
        rwa [hnext] at hentered
  | false =>
    rcases hseen₃.enable hself hmem hfree hk hret handled false o with
      hstop | ⟨ret, th₄, hands₄, t, henable, hseen₄⟩
    · exact inl (Stops.after htop (Stops.after hwrite (Stops.after hpending (hstop.bind _))))
    · refine inr ⟨false, th₄, hands₄, t, ?_, hseen₄⟩
      rw [run_bind htop, run_bind hwrite, run_bind hpending]
      exact run_bind henable

theorem handler (hseen : Seen self hs (r :: rs) k th hands s) (hself : self ≠ 0)
    (hh : r.hand ∈ hs) (o : Outside) : Stops (intrHandler self r.hand o) s ∨
      ∃ b th' hands' t, intrHandler self r.hand o s = .ok (b, t) ∧
        if b then Seen self hs (r :: rs) k th' hands' t
        else Seen self hs rs r.entry th' hands' t := by
  rw [intrHandler]
  rcases hseen.pending hself hh o with
    hstop | ⟨b, th', hands', s₁, hpending, hseen₁, -, -, -⟩
  · exact inl (hstop.bind _)
  cases b with
  | true => exact inr ⟨true, th', hands', s₁, by rw [run_bind hpending]; rfl, hseen₁⟩
  | false =>
    obtain ⟨ret, th₂, t, hdisable, hseen₂⟩ := hseen₁.disable hself hh o
    refine inr ⟨false, th₂, hands', t, ?_, hseen₂⟩
    rw [run_bind hpending]
    exact run_bind hdisable

theorem end_ (hseen : Seen self hs (r :: rs) k th hands s) (hself : self ≠ 0) (hh : r.hand ∈ hs)
    (o : Outside) : ∃ th' t, intrEnd self r.hand o s = .ok ((), t) ∧
      Seen self hs rs r.entry th' hands t := by
  obtain ⟨th₁, s₁, hexit, hseen₁⟩ := hseen.exit hself hh o
  obtain ⟨ret, th', t, hdisable, hseen'⟩ := hseen₁.disable hself hh o
  refine ⟨th', t, ?_, hseen'⟩
  rw [intrEnd, run_bind hexit]
  exact run_ignoring hdisable

theorem return_ (hseen : Seen self hs (rs ++ rs') k th hands s) (hself : self ≠ 0)
    (hrecords : ∀ x ∈ rs ++ rs', x.hand ∈ hs) (hh : h ∈ hs) (hlast : rs.getLast? = some r)
    (o : Outside) : ∃ a info, th = some (a, info) ∧
      (intrReturn self h o s = .error .outsideHandlers ∧
          ¬(0 < info.nextIndex ∧ info.returnIndex = r.entry) ∨
        ∃ t, intrReturn self h o s = .ok ((), t) ∧ 0 < info.nextIndex ∧
          t.index self = info.returnIndex ∧
          (info.returnIndex = r.entry → ∃ th', Seen self hs rs' r.entry th' hands t)) := by
  cases th with
  | none =>
    obtain ⟨rfl, -⟩ := append_eq_nil_iff.mp hseen.opened
    cases hlast
  | some x =>
    obtain ⟨a, info⟩ := x
    have hframed : Framed hands info (rs ++ rs') := hseen.opened
    obtain ⟨hle, hrest⟩ := hframed.stacked.drop hlast
    have hlow := hrest.nonneg
    have hhigh := hframed.high
    have hmost := hframed.most
    refine ⟨a, info, rfl, ?_⟩
    by_cases htop : info.nextIndex = info.returnIndex
    · by_cases hpos : 0 < info.nextIndex
      · obtain ⟨t, info', hrun, hat, hframe⟩ :=
          hseen.view.intrReturn_top (o := o) hself (inr hh) htop hpos hhigh
        have hnext : info'.nextIndex = info.nextIndex := (frame_eq_iff.mp hframe).2.1
        have hindex : indexOf (some (a, info')) = info.returnIndex := hnext.trans htop
        refine inr ⟨t, hrun, hpos, hat.index_self.trans hindex, fun hret => ?_⟩
        have hst : Stacked info.handlers hands info.nextIndex rs' := by
          rw [htop, hret]
          exact hrest
        exact ⟨some (a, info'), hat, (hframed.unchanged hpos hst).kin (Kin.record hframe hands),
          hindex.trans hret⟩
      · refine inl ⟨?_, fun hfair => hpos hfair.1⟩
        exact hseen.view.intrReturn_outside hself (inr hh) (inl ⟨htop, by omega⟩)
    · by_cases hneg : info.returnIndex < 0
      · refine inl ⟨?_, fun hfair => by omega⟩
        exact hseen.view.intrReturn_outside hself (inr hh) (inr ⟨htop, hneg⟩)
      · obtain ⟨x, hx, hhand, hindex, -⟩ :=
          hframed.stacked.at_lt (j := info.returnIndex) (by omega) (by omega)
        obtain ⟨t, info', hrun, hat, hframe⟩ := hseen.view.intrReturn_pop (o := o) hself
          (inr hh) htop (by omega) (by rw [hhand]; exact hrecords x hx) (by rw [hhand]; exact hindex)
        have hnext : info'.nextIndex = info.returnIndex := (frame_eq_iff.mp hframe).2.1
        refine inr ⟨t, hrun, by omega, hat.index_self.trans hnext, fun hret => ?_⟩
        have hframed' : Framed hands (info.disabled hands info.returnIndex) rs' := by
          rw [hret]
          exact hframed.disabled (by omega) hrest
        exact ⟨some (a, info'), hat, hframed'.kin (Kin.record hframe hands), hnext.trans hret⟩

end Seen

end MachUS.Interrupt
