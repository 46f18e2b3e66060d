import MachUS.Rpc.Replies

namespace MachUS.Rpc

open Transition Handler List

namespace Handler

def waiting (h : Handler) : Bool :=
  match h.phase with
  | .looping => h.waitCnt = 0
  | .messaging rcvRequest => rcvRequest
  | .invoking _ => false
  | .exited => false
  | .faulted => false

def running (h : Handler) : Bool := h.phase ≠ .exited

structure Counted (h : Handler) : Prop where
  waitCnt : h.waitCnt ≤ 1
  looped : h.phase ≠ .looping → h.phase ≠ .exited → h.waitCnt = 1

theorem counted_fresh (stack : Stack) : (fresh stack).Counted :=
  ⟨Nat.zero_le 1, fun h => absurd rfl h⟩

theorem waiting_looping {h : Handler} (hphase : h.phase = .looping) (hh : h.Counted) :
    h.waiting.toInt = 1 - h.waitCnt := by
  have hle := hh.waitCnt
  have hcnt : h.waitCnt = 0 ∨ h.waitCnt = 1 := by omega
  rcases hcnt with hcnt | hcnt <;> simp [waiting, hphase, hcnt]

theorem running_of_waiting {h : Handler} (hh : h.waiting = true) : h.running = true := by
  cases hphase : h.phase with
  | exited => simp [waiting, hphase] at hh
  | _ => simp [running, hphase]

end Handler

namespace ObjectServer

variable {cfg : Config} {s s' : ObjectServer} {th : ℕ} {h h' : Handler}

def waiters (s : ObjectServer) : ℕ := s.threads.countP Handler.waiting

def runners (s : ObjectServer) : ℕ := s.threads.countP Handler.running

structure Ahead (cfg : Config) (w c : ℤ) (s : ObjectServer) : Prop where
  threads : ∀ h ∈ s.threads, h.Counted
  waiting : s.threadsWaiting = s.waiters + w
  count : s.threadCount = s.runners + c
  bound : cfg.maxThreads ≠ 0 → s.threadCount ≤ max 1 cfg.maxThreads

theorem countP_set_add (p : Handler → Bool) {l : List Handler} (hth : l[th]? = some h)
    (h' : Handler) :
    ((l.set th h').countP p : ℤ) + (p h).toInt = l.countP p + (p h').toInt := by
  obtain ⟨hlt, heq⟩ := List.getElem?_eq_some_iff.mp hth
  have hpos : p h = true → 0 < l.countP p := fun hp =>
    countP_pos_iff.mpr ⟨h, heq ▸ getElem_mem hlt, hp⟩
  rw [countP_set hlt, heq]
  cases hp : p h with
  | false => cases p h' <;> simp
  | true =>
    have hpos := hpos hp
    cases p h' <;> simp <;> omega

variable {w c : ℤ}

theorem Ahead.set (hs : s.Ahead cfg w c) (hth : s.threads[th]? = some h)
    (hcounted : h'.Counted) (hw : w + h.waiting.toInt = h'.waiting.toInt)
    (hc : c + h.running.toInt = h'.running.toInt) : (s.setHandler th h').Ahead cfg 0 0 := by
  refine ⟨fun hd hmem => ?_, ?_, ?_, hs.bound⟩
  · rcases mem_or_eq_of_mem_set hmem with hmem | rfl
    · exact hs.threads hd hmem
    · exact hcounted
  · have hset := countP_set_add Handler.waiting hth h'
    have hold := hs.waiting
    simp only [waiters, setHandler] at hold ⊢
    omega
  · have hset := countP_set_add Handler.running hth h'
    have hold := hs.count
    simp only [runners, setHandler] at hold ⊢
    omega

theorem Ahead.count_waiting (hs : s.Ahead cfg w c) (adj : ℤ) :
    Ahead cfg (w + adj) c { s with threadsWaiting := s.threadsWaiting + adj } := by
  refine ⟨hs.threads, ?_, hs.count, hs.bound⟩
  have hold := hs.waiting
  simp only [waiters] at hold ⊢
  omega

theorem Ahead.count_out (hs : s.Ahead cfg w c) :
    Ahead cfg w (c - 1) { s with threadCount := s.threadCount - 1 } := by
  refine ⟨hs.threads, hs.waiting, ?_, fun hmax => ?_⟩
  · have hold := hs.count
    simp only [runners] at hold ⊢
    omega
  · have hold := hs.bound hmax
    simp only
    omega

def forked (s : ObjectServer) (stack : Stack) : ObjectServer :=
  { s with
    threadsWaiting := s.threadsWaiting + 1
    threadCount := s.threadCount + 1
    threads := s.threads ++ [Handler.fresh stack] }

theorem Ahead.forked (hs : s.Ahead cfg w c)
    (hroom : s.threadCount < cfg.maxThreads ∨ cfg.maxThreads = 0) (stack : Stack) :
    (s.forked stack).Ahead cfg w c := by
  have hwaiting := hs.waiting
  have hcount := hs.count
  rw [waiters] at hwaiting
  rw [runners] at hcount
  refine ⟨fun hd hmem => ?_, ?_, ?_, fun hmax => ?_⟩
  · rcases mem_append.mp hmem with hmem | hmem
    · exact hs.threads hd hmem
    · obtain rfl := mem_singleton.mp hmem
      exact counted_fresh stack
  · simp [ObjectServer.forked, waiters, hwaiting, Handler.fresh, Handler.waiting]
    omega
  · simp [ObjectServer.forked, runners, hcount, Handler.fresh, Handler.running]
    omega
  · simp only [ObjectServer.forked]
    omega

inductive Adjustment (cfg : Config) (s : ObjectServer) (adj : ℤ) (exitOk : Bool) (stack : Stack) :
    ObjectServer × Verdict → Prop
  | exits (hmany : cfg.maxWaiting < s.threadsWaiting + adj) (hadj : 0 ≤ adj) (hok : exitOk = true) :
    Adjustment cfg s adj exitOk stack
      ({ s with
          threadsWaiting := s.threadsWaiting + adj - 1
          threadCount := s.threadCount - 1 }, .exits)
  | sends (hadj : 0 ≤ adj) (hok : exitOk = false) :
    Adjustment cfg s adj exitOk stack
      ({ s with threadsWaiting := s.threadsWaiting + adj - 1 }, .waits false)
  | forks (hroom : s.threadCount < cfg.maxThreads ∨ cfg.maxThreads = 0) :
    Adjustment cfg s adj exitOk stack
      (forked { s with threadsWaiting := s.threadsWaiting + adj } stack, .waits (0 ≤ adj))
  | stays :
    Adjustment cfg s adj exitOk stack
      ({ s with threadsWaiting := s.threadsWaiting + adj }, .waits (0 ≤ adj))

theorem adjustThreads_adjustment (cfg : Config) (s : ObjectServer) (adj : ℤ) (exitOk : Bool)
    (stack : Stack) : Adjustment cfg s adj exitOk stack (s.adjustThreads cfg adj exitOk stack) := by
  simp only [adjustThreads]
  split_ifs with hmany hok hroom
  · exact .exits hmany.1 hmany.2 hok
  · exact .sends hmany.2 (by simpa using hok)
  · exact .forks hroom.2
  · exact .stays

structure Busy (h : Handler) : Prop where
  waitCnt : h.waitCnt = 1
  phase : h.phase = .looping ∨ (∃ mid, h.phase = .invoking mid) ∨ h.phase = .faulted

theorem Busy.counted (hh : Busy h) : h.Counted := ⟨hh.waitCnt.le, fun _ _ => hh.waitCnt⟩

theorem Busy.waiting (hh : Busy h) : h.waiting = false := by
  obtain hphase | ⟨mid, hphase⟩ | hphase := hh.phase
  · simp [Handler.waiting, hphase, hh.waitCnt]
  · simp [Handler.waiting, hphase]
  · simp [Handler.waiting, hphase]

theorem Busy.running (hh : Busy h) : h.running = true := by
  obtain hphase | ⟨mid, hphase⟩ | hphase := hh.phase
  · simp [Handler.running, hphase]
  · simp [Handler.running, hphase]
  · simp [Handler.running, hphase]

def Serves (s : ObjectServer) (th : ℕ) (s' : ObjectServer) : Prop :=
  ∃ s₁ h', s' = setHandler s₁ th h' ∧ Busy h' ∧ s₁.threads = s.threads ∧
    s₁.threadsWaiting = s.threadsWaiting ∧ s₁.threadCount = s.threadCount

theorem Busy.serves (hh : Busy h) (s : ObjectServer) (th : ℕ) : s.Serves th (s.setHandler th h) :=
  ⟨s, h, rfl, hh, rfl, rfl, rfl⟩

theorem Busy.incomingInvoke (hh : Busy h) (s : ObjectServer) (th : ℕ) :
    s.Serves th (s.incomingInvoke th h) := by
  rw [ObjectServer.incomingInvoke]
  rcases unpackRequest s.tables h.req.request.incoming h.req.request.mem with trap | result | ⟨mid, cur⟩
  · refine Busy.serves ?_ s th
    exact ⟨hh.waitCnt, .inr (.inr rfl)⟩
  · refine Busy.serves ?_ s th
    exact ⟨hh.waitCnt, hh.phase⟩
  · refine Busy.serves ?_ s th
    exact ⟨hh.waitCnt, .inr (.inl ⟨mid, rfl⟩)⟩

theorem Busy.dispatch (hh : Busy h) (s : ObjectServer) (th : ℕ) (ret : ℤ) :
    s.Serves th (s.dispatch th h ret) := by
  rw [ObjectServer.dispatch]
  rcases s.tables.lookupExternalPort h.req.localPort with - | obj
  · exact hh.serves s th
  · split_ifs
    · refine Busy.serves ?_ s th
      exact ⟨hh.waitCnt, hh.phase⟩
    · exact hh.serves s th
    · exact hh.serves s th
    · exact hh.incomingInvoke s th

theorem Busy.copeWith (hh : Busy h) (s : ObjectServer) (th : ℕ) (a : Answer) :
    s.Serves th (s.copeWith th h a) := by
  have hset (failing : Bool) : Busy { h with sendingFailure := failing } := ⟨hh.waitCnt, hh.phase⟩
  rw [ObjectServer.copeWith]
  split_ifs
  · exact hh.serves s th
  · exact (hset false).serves s th
  · exact (hset true).dispatch s th a.ret
  · exact hh.serves s th
  · exact hh.serves s th
  · rcases a.received with - | q
    · exact (hset false).serves s th
    · have hreceived : Busy { h with
          sendingFailure := false
          req := Message.ofRequest s.calls.length q
          rep := h.req } := ⟨hh.waitCnt, hh.phase⟩
      exact hreceived.dispatch { s with calls := s.calls ++ [⟨th, q, s.tables, none, none⟩] } th
        machMsgSuccess

theorem recordSend_counters (s : ObjectServer) (h : Handler) (a : Answer) :
    (s.recordSend h a).threadsWaiting = s.threadsWaiting ∧
      (s.recordSend h a).threadCount = s.threadCount := by
  rw [recordSend]
  split_ifs
  · exact ⟨rfl, rfl⟩
  · cases h.rep.serial <;> exact ⟨rfl, rfl⟩

theorem Ahead.congr (hs : s.Ahead cfg w c) (hthreads : s'.threads = s.threads)
    (hwaiting : s'.threadsWaiting = s.threadsWaiting) (hcount : s'.threadCount = s.threadCount) :
    s'.Ahead cfg w c := by
  refine ⟨hthreads ▸ hs.threads, ?_, ?_, hcount ▸ hs.bound⟩
  · rw [hwaiting, hs.waiting, waiters, waiters, hthreads]
  · rw [hcount, hs.count, runners, runners, hthreads]

def Survives (cfg : Config) (th : ℕ) (s' : ObjectServer) : Prop :=
  (∃ h', s'.threads[th]? = some h' ∧ h'.running = true) ∨ cfg.maxWaiting ≤ s'.threadsWaiting

theorem Ahead.serves (hs : s.Ahead cfg w 0) (hth : s.threads[th]? = some h)
    (hw : w + h.waiting.toInt = 0) (hrunning : h.running = true) (hserves : s.Serves th s') :
    s'.Ahead cfg 0 0 ∧ Survives cfg th s' := by
  obtain ⟨s₁, h', rfl, hbusy, hthreads, hwaiting, hcount⟩ := hserves
  constructor
  · refine (hs.congr hthreads hwaiting hcount).set (hthreads ▸ hth) hbusy.counted ?_ ?_
    · rw [hw, hbusy.waiting, Bool.toInt_false]
    · rw [hrunning, hbusy.running, zero_add]
  · have hlt : th < s₁.threads.length := hthreads ▸ (List.getElem?_eq_some_iff.mp hth).1
    exact Or.inl ⟨h', getElem?_set_self hlt, hbusy.running⟩

section

variable (hs : s.Ahead cfg 0 0) (hth : s.threads[th]? = some h)

include hs hth

theorem Ahead.endMessage
    {rcvRequest : Bool} (hphase : h.phase = .messaging rcvRequest) (a : Answer) (stack : Stack) :
    (s.endMessage cfg th h rcvRequest a stack).Ahead cfg 0 0 ∧
      Survives cfg th (s.endMessage cfg th h rcvRequest a stack) := by
  have hrunning : h.running = true := by simp [Handler.running, hphase]
  have hcnt : h.waitCnt = 1 :=
    (hs.threads h (mem_of_getElem? hth)).looped (by simp [hphase]) (by simp [hphase])
  rw [ObjectServer.endMessage]
  generalize hadjusted : (if rcvRequest then (s.adjustThreads cfg (-1) false stack).1 else s) = s₁
  have hs₁ : s₁.Ahead cfg (-h.waiting.toInt) 0 ∧ s₁.threads[th]? = some h := by
    subst hadjusted
    cases rcvRequest with
    | false => simpa [Handler.waiting, hphase] using And.intro hs hth
    | true =>
      refine ⟨?_, by simpa using getElem?_adjustThreads cfg (-1) false stack hth⟩
      have hless : Ahead cfg (-1) 0 { s with threadsWaiting := s.threadsWaiting + -1 } := by
        simpa using hs.count_waiting (-1)
      have hadjustment := adjustThreads_adjustment cfg s (-1) false stack
      simp only [Handler.waiting, hphase, Bool.toInt_true, if_true]
      generalize s.adjustThreads cfg (-1) false stack = adjusted at hadjustment
      cases hadjustment with
      | exits _ hadj _ => exact absurd hadj (by decide)
      | sends hadj _ => exact absurd hadj (by decide)
      | forks hroom => exact hless.forked hroom stack
      | stays => exact hless
  generalize hrecorded : (if h.sends rcvRequest then s₁.recordSend h a else s₁) = s₂
  have hs₂ : s₂.Ahead cfg (-h.waiting.toInt) 0 ∧ s₂.threads[th]? = some h := by
    subst hrecorded
    split_ifs
    · have hthreads := recordSend_threads s₁ h a
      obtain ⟨hwaiting, hcount⟩ := recordSend_counters s₁ h a
      exact ⟨hs₁.1.congr hthreads hwaiting hcount, hthreads ▸ hs₁.2⟩
    · exact hs₁
  have hbusy : Busy { h with phase := .looping, sendReply := false } := ⟨hcnt, .inl rfl⟩
  exact hs₂.1.serves hs₂.2 (by omega) hrunning (hbusy.copeWith s₂ th a)

theorem Ahead.endInvoke {mid : Method} (hphase : h.phase = .invoking mid) (retval : ℤ) :
    (s.endInvoke th h mid retval).Ahead cfg 0 0 ∧
      Survives cfg th (s.endInvoke th h mid retval) := by
  have hcnt : h.waitCnt = 1 :=
    (hs.threads h (mem_of_getElem? hth)).looped (by simp [hphase]) (by simp [hphase])
  refine hs.serves hth (by simp [Handler.waiting, hphase]) (by simp [Handler.running, hphase]) ?_
  rw [ObjectServer.endInvoke]
  have hcall (f : Call → Call) (h' : Handler) (hh' : Busy h') :
      s.Serves th ((s.modifyCall h.req.serial f).setHandler th h') := by
    cases h.req.serial with
    | none => exact hh'.serves s th
    | some i => exact ⟨_, h', rfl, hh', rfl, rfl, rfl⟩
  split_ifs
  · exact hcall _ _ ⟨hcnt, .inl rfl⟩
  · exact hcall _ _ ⟨hcnt, .inl rfl⟩

theorem Ahead.beginMessage (hphase : h.phase = .looping) (stack : Stack) :
    (s.beginMessage cfg th h stack).Ahead cfg 0 0 := by
  have hwas := waiting_looping hphase (hs.threads h (mem_of_getElem? hth))
  have hrunning : h.running = true := by simp [Handler.running, hphase]
  have hth' := getElem?_adjustThreads cfg h.waitCnt (!h.sendReply) stack hth
  have hadjustment := adjustThreads_adjustment cfg s h.waitCnt (!h.sendReply) stack
  have hmessaging (rcvRequest : Bool) :
      Counted { h with
        phase := .messaging rcvRequest
        waitCnt := 1
        rep := h.addressed rcvRequest } := ⟨le_refl 1, fun _ _ => rfl⟩
  have hless := hs.count_waiting (h.waitCnt - 1)
  have hmore := hs.count_waiting h.waitCnt
  simp only [← add_sub_assoc] at hless
  rw [ObjectServer.beginMessage]
  generalize s.adjustThreads cfg h.waitCnt (!h.sendReply) stack = adjusted at hth' hadjustment
  cases hadjustment with
  | exits _ _ _ =>
    have hexited : Counted { h with phase := .exited } :=
      ⟨(hs.threads h (mem_of_getElem? hth)).waitCnt, fun _ h' => absurd rfl h'⟩
    refine hless.count_out.set hth' hexited ?_ ?_
    · rw [hwas]
      simp [Handler.waiting]
    · rw [hrunning]
      simp [Handler.running]
  | sends _ _ =>
    refine hless.set hth' (hmessaging false) ?_ (by rw [hrunning]; rfl)
    rw [hwas]
    simp [Handler.waiting]
  | forks hroom =>
    refine (hmore.forked hroom stack).set hth' (hmessaging true) ?_ (by rw [hrunning]; rfl)
    rw [hwas]
    simp [Handler.waiting]
  | stays =>
    refine hmore.set hth' (hmessaging true) ?_ (by rw [hrunning]; rfl)
    rw [hwas]
    simp [Handler.waiting]

end

theorem survives_beginMessage (hth : s.threads[th]? = some h) (stack : Stack) :
    Survives cfg th (s.beginMessage cfg th h stack) := by
  have hlt := (List.getElem?_eq_some_iff.mp
    (getElem?_adjustThreads cfg h.waitCnt (!h.sendReply) stack hth)).1
  have hadjustment := adjustThreads_adjustment cfg s h.waitCnt (!h.sendReply) stack
  rw [beginMessage]
  generalize s.adjustThreads cfg h.waitCnt (!h.sendReply) stack = adjusted at hlt hadjustment
  cases hadjustment with
  | exits hmany _ _ =>
    refine Or.inr ?_
    simp only [setHandler]
    omega
  | sends _ _ => exact Or.inl ⟨_, getElem?_set_self hlt, rfl⟩
  | forks _ => exact Or.inl ⟨_, getElem?_set_self hlt, rfl⟩
  | stays => exact Or.inl ⟨_, getElem?_set_self hlt, rfl⟩

variable {e : HandlerEvent}

theorem Ahead.next (hs : s.Ahead cfg 0 0) (h : s.next cfg e = some s') :
    s'.Ahead cfg 0 0 ∧ ∀ th, e.thread = some th → Survives cfg th s' := by
  obtain ⟨th, hd, stack, rfl, hth, hphase, rfl⟩ |
    ⟨th, hd, rcvRequest, a, stack, rfl, hth, hphase, -, rfl⟩ |
    ⟨th, hd, mid, retval, rfl, hth, hphase, rfl⟩ | ⟨t, rfl, rfl⟩ := next_cases h
  · refine ⟨hs.beginMessage hth hphase stack, fun th' heq => ?_⟩
    cases heq
    exact survives_beginMessage hth stack
  · obtain ⟨hkept, hsurvives⟩ := hs.endMessage hth hphase a stack
    refine ⟨hkept, fun th' heq => ?_⟩
    cases heq
    exact hsurvives
  · obtain ⟨hkept, hsurvives⟩ := hs.endInvoke hth hphase retval
    refine ⟨hkept, fun th' heq => ?_⟩
    cases heq
    exact hsurvives
  · exact ⟨hs.congr rfl rfl rfl, nofun⟩

theorem Ahead.waiters_pos (hmax : 1 ≤ cfg.maxWaiting) (hs : s.Ahead cfg 0 0)
    (hmany : cfg.maxWaiting ≤ s.threadsWaiting) : 1 ≤ s.waiters := by
  have hwaiting := hs.waiting
  omega

theorem runners_pos_of_waiters (hs : 1 ≤ s.waiters) : 1 ≤ s.runners := by
  obtain ⟨h, hmem, hwaiting⟩ := countP_pos_iff.mp hs
  exact countP_pos_iff.mpr ⟨h, hmem, running_of_waiting hwaiting⟩

theorem runners_pos_next (hmax : 1 ≤ cfg.maxWaiting) (hs : s.Ahead cfg 0 0) (hpos : 1 ≤ s.runners)
    (h : s.next cfg e = some s') : 1 ≤ s'.runners := by
  obtain ⟨hs', hsurvives⟩ := hs.next h
  rcases hthread : e.thread with - | th
  · cases e with
    | redefines t =>
      cases h
      exact hpos
    | _ => simp [HandlerEvent.thread] at hthread
  · rcases hsurvives th hthread with ⟨h', hth', hrunning⟩ | hmany
    · exact countP_pos_iff.mpr ⟨h', mem_of_getElem? hth', hrunning⟩
    · exact runners_pos_of_waiters (hs'.waiters_pos hmax hmany)

theorem ahead_start (cfg : Config) (t : Tables) (stack : Stack) : (start t stack).Ahead cfg 0 0 := by
  refine ⟨fun h hmem => ?_, rfl, rfl, fun _ => le_max_left 1 cfg.maxThreads⟩
  obtain rfl := mem_singleton.mp hmem
  exact counted_fresh stack

theorem Reachable.accounted (hmax : 1 ≤ cfg.maxWaiting) (hs : s.Reachable cfg) :
    s.Ahead cfg 0 0 ∧ 1 ≤ s.runners := by
  obtain ⟨t, stack, hrun⟩ := hs
  refine invariant (I := fun s => s.Ahead cfg 0 0 ∧ 1 ≤ s.runners)
    (fun x e y hx _ hy => ?_) hrun ⟨ahead_start cfg t stack, le_refl 1⟩
  exact ⟨(hx.1.next hy).1, runners_pos_next hmax hx.1 hx.2 hy⟩

def Exits (s s' : ObjectServer) (th : ℕ) : Prop :=
  ∃ h h', s.threads[th]? = some h ∧ h.running = true ∧
    s'.threads[th]? = some h' ∧ h'.running = false

theorem Ahead.exit_leaves_waiter (hmax : 1 ≤ cfg.maxWaiting) (hs : s.Ahead cfg 0 0)
    (h : s.next cfg e = some s') (hexit : s.Exits s' th) : 1 ≤ s'.waiters := by
  obtain ⟨hd, hd', hth, hrunning, hth', hgone⟩ := hexit
  obtain ⟨hs', hsurvives⟩ := hs.next h
  have hthread : e.thread = some th := by
    by_contra hne
    cases hth'.symm.trans (next_others h hth hne)
    cases hrunning.symm.trans hgone
  rcases hsurvives th hthread with ⟨h'', hth'', hrunning'⟩ | hmany
  · cases hth''.symm.trans hth'
    cases hrunning'.symm.trans hgone
  · exact hs'.waiters_pos hmax hmany

theorem handler_threads_accounted {cfg : Config} (hmax : 1 ≤ cfg.maxWaiting) {s : ObjectServer}
    (hs : s.Reachable cfg) :
    s.threadsWaiting = s.waiters ∧ s.threadCount = s.runners ∧
      (cfg.maxThreads ≠ 0 → s.threadCount ≤ max 1 cfg.maxThreads) ∧ 1 ≤ s.threadCount ∧
      ∀ e s' th, s.next cfg e = some s' → s.Exits s' th → 1 ≤ s'.waiters := by
  obtain ⟨hahead, hpos⟩ := hs.accounted hmax
  have hwaiting := hahead.waiting
  have hcount := hahead.count
  refine ⟨by omega, by omega, hahead.bound, by omega, fun e s' th h hexit => ?_⟩
  exact hahead.exit_leaves_waiter hmax h hexit

end ObjectServer

namespace Sample

def twoWaiting : Config := ⟨2, 2, 3⟩

def forks : List HandlerEvent := arrives 7

end Sample

namespace ObjectServer

theorem handler_threads_accounted_forks :
    ∃ s : ObjectServer, s.Reachable Sample.twoWaiting ∧ s.threadsWaiting = 2 ∧ s.threadCount = 3 ∧
      s.threadsWaiting = s.waiters ∧ s.threadCount = s.runners ∧
      (Sample.twoWaiting.maxThreads ≠ 0 → s.threadCount ≤ max 1 Sample.twoWaiting.maxThreads) ∧
      1 ≤ s.threadCount ∧
      ∀ e s' th, s.next Sample.twoWaiting e = some s' → s.Exits s' th → 1 ≤ s'.waiters := by
  have hcheck : check (next Sample.twoWaiting) (start Sample.callTables Sample.stack)
      Sample.forks (fun s => decide (s.threadsWaiting = 2 ∧ s.threadCount = 3)) = true := by
    decide +kernel
  obtain ⟨s, hs, htest⟩ := exec_of_check hcheck
  have hreach : s.Reachable Sample.twoWaiting :=
    ⟨_, _, run_of_exec (free_admits _ _) hs⟩
  obtain ⟨hwaiting, hcount⟩ := of_decide_eq_true htest
  exact ⟨s, hreach, hwaiting, hcount, handler_threads_accounted (by decide) hreach⟩

end ObjectServer

end MachUS.Rpc
