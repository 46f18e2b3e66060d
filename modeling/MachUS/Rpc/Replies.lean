import MachUS.Rpc.Containment
import MachUS.Rpc.HandlerInvariant

namespace MachUS.Rpc

open Relation Memory Transition Handler Option

def Call.RightCode (c : Call) (code : ℤ) : Prop :=
  match c.failed, c.returned with
  | some ret, _ => code = ret
  | none, some retval => code = retval
  | none, none => ∃ result, c.unpacked = .ok (.error result) ∧ code = result.code

def Handler.remaining (h : Handler) : ℕ :=
  match h.phase with
  | .looping => if h.sendReply then 2 else 0
  | .messaging _ => if h.sendReply then 1 else 0
  | .invoking _ => 3
  | .exited => 0
  | .faulted => 0

theorem Handler.remaining_le (h : Handler) : h.remaining ≤ 3 := by
  cases hphase : h.phase <;> cases hsend : h.sendReply <;> simp [remaining, hphase, hsend]

namespace ObjectServer

def Replied (s : ObjectServer) (i : ℕ) (c : Call) : Prop :=
  if c.request.remotePort = machPortNull then s.repliesTo i = []
  else ∃ r, s.repliesTo i = [r] ∧ r.port = c.request.remotePort ∧ c.RightCode r.code

variable {s : ObjectServer}

theorem Settled.replied_iff {i : ℕ} {c : Call} (h : s.Settled i c) :
    s.Replied i c ↔ c.request.remotePort = machPortNull ∨ (c.CallsRpc ∧ c.failed = none) := by
  rw [Replied]
  rcases h with ⟨hnone, hrpc⟩ | ⟨hrpc, hfailed, hport, retval, hret, hone⟩
  · split_ifs with hport
    · simp [hnone, hport]
    · rw [hnone]
      constructor
      · rintro ⟨r, hr, -⟩
        simp at hr
      · rintro (h | h)
        · exact absurd h hport
        · exact absurd h.1 (hrpc h.2)
  · rw [if_neg hport, hone]
    exact ⟨fun _ => Or.inr ⟨hrpc, hfailed⟩, fun _ => ⟨_, rfl, rfl, by simp [Call.RightCode, hfailed, hret]⟩⟩

theorem incomingInvoke_eq (s : ObjectServer) (th : ℕ) (h : Handler) :
    ∃ h', s.incomingInvoke th h = s.setHandler th h' ∧ h'.req.serial = h.req.serial := by
  rw [incomingInvoke]
  rcases unpackRequest s.tables h.req.request.incoming h.req.request.mem with trap | result | ⟨mid, cur⟩
  · exact ⟨_, rfl, rfl⟩
  · exact ⟨_, rfl, rfl⟩
  · exact ⟨_, rfl, rfl⟩

theorem dispatch_eq (s : ObjectServer) (th : ℕ) (h : Handler) (ret : ℤ) :
    ∃ h', s.dispatch th h ret = s.setHandler th h' ∧ h'.req.serial = h.req.serial := by
  rw [dispatch]
  rcases s.tables.lookupExternalPort h.req.localPort with - | obj
  · exact ⟨_, rfl, rfl⟩
  · split_ifs
    · exact ⟨_, rfl, rfl⟩
    · exact ⟨_, rfl, rfl⟩
    · exact ⟨_, rfl, rfl⟩
    · exact s.incomingInvoke_eq th h

variable {h : Handler}

theorem copeWith_eq (s : ObjectServer) (th : ℕ) (a : Answer)
    (hphase : h.phase = .looping) (hsend : h.sendReply = false) :
    ∃ s₁ h', s.copeWith th h a = setHandler s₁ th h' ∧ s₁.threads = s.threads ∧
      (h'.owes = true → h'.req.serial = some s.calls.length) := by
  have hidle (h' : Handler) (hp : h'.phase = .looping) (hs' : h'.sendReply = false) :
      h'.owes = true → h'.req.serial = some s.calls.length := by
    simp [owes, hp, hs']
  rw [copeWith, Answer.sendError_eq, if_neg Bool.false_ne_true]
  split_ifs
  · exact ⟨s, h, rfl, rfl, hidle h hphase hsend⟩
  · exact ⟨s, h, rfl, rfl, hidle h hphase hsend⟩
  · exact ⟨s, h, rfl, rfl, hidle h hphase hsend⟩
  · rcases a.received with - | q
    · exact ⟨s, _, rfl, rfl, hidle _ hphase hsend⟩
    · obtain ⟨h', heq, hserial⟩ := dispatch_eq
        { s with calls := s.calls ++ [⟨th, q, s.tables, none, none⟩] } th
        { h with
          sendingFailure := false
          req := Message.ofRequest s.calls.length q
          rep := h.req } machMsgSuccess
      exact ⟨_, h', heq, rfl, fun _ => hserial⟩

structure Moves (s : ObjectServer) (th : ℕ) (h : Handler) (s' : ObjectServer) (h' : Handler) :
    Prop where
  own : s'.threads[th]? = some h'
  others : ∀ th' hd, th' ≠ th → s.threads[th']? = some hd → s'.threads[th']? = some hd
  nearer : h'.owes = true → h'.req.serial = some s.calls.length ∨ h'.remaining < h.remaining

variable {th : ℕ}

theorem Moves.of_setHandler {s s₁ : ObjectServer} {h h' : Handler} (hth : s.threads[th]? = some h)
    (hkeep : ∀ (th' : ℕ) hd, s.threads[th']? = some hd → s₁.threads[th']? = some hd)
    (hnearer : h'.owes = true → h'.req.serial = some s.calls.length ∨ h'.remaining < h.remaining) :
    s.Moves th h (s₁.setHandler th h') h' := by
  refine ⟨?_, fun th' hd hne hth' => ?_, hnearer⟩
  · exact List.getElem?_set_self (List.getElem?_eq_some_iff.mp (hkeep th h hth)).1
  · exact (List.getElem?_set_ne (Ne.symm hne)).trans (hkeep th' hd hth')

theorem moves_beginMessage
    (hth : s.threads[th]? = some h) (hphase : h.phase = .looping) (cfg : Config) (stack : Stack) :
    ∃ h', s.Moves th h (s.beginMessage cfg th h stack) h' := by
  have hkeep (th' : ℕ) (hd : Handler) (hth' : s.threads[th']? = some hd) :=
    getElem?_adjustThreads cfg h.waitCnt (!h.sendReply) stack hth'
  rw [beginMessage]
  revert hkeep
  rcases s.adjustThreads cfg h.waitCnt (!h.sendReply) stack with ⟨s', - | rcvRequest⟩
  · intro hkeep
    exact ⟨_, .of_setHandler hth hkeep fun howes => by simp [owes] at howes⟩
  · intro hkeep
    refine ⟨_, .of_setHandler hth hkeep fun howes => Or.inr ?_⟩
    have hsend : h.sendReply = true := howes
    simp [remaining, hphase, hsend]

theorem moves_endMessage {rcvRequest : Bool}
    (hth : s.threads[th]? = some h) (a : Answer) (cfg : Config) (stack : Stack) :
    ∃ h', s.Moves th h (s.endMessage cfg th h rcvRequest a stack) h' := by
  rw [endMessage]
  generalize hadjusted : (if rcvRequest then (s.adjustThreads cfg (-1) false stack).1 else s) = s₁
  have hkeep (th' : ℕ) (hd : Handler) (hth' : s.threads[th']? = some hd) :
      s₁.threads[th']? = some hd := by
    subst hadjusted
    split_ifs
    · exact getElem?_adjustThreads cfg _ _ stack hth'
    · exact hth'
  have hcalls : s₁.calls = s.calls := by
    subst hadjusted
    split_ifs
    · exact (adjustThreads_calls cfg _ _ stack s).1
    · rfl
  generalize hrecorded : (if h.sends rcvRequest then s₁.recordSend h a else s₁) = s₂
  have hsame : s₂.threads = s₁.threads ∧ s₂.calls.length = s₁.calls.length := by
    subst hrecorded
    split_ifs
    · exact ⟨recordSend_threads s₁ h a, recordSend_length s₁ h a⟩
    · exact ⟨rfl, rfl⟩
  obtain ⟨s₃, h', heq, hthreads, hserial⟩ :=
    copeWith_eq s₂ th (h := { h with phase := .looping, sendReply := false }) a rfl rfl
  simp only [heq]
  refine ⟨h', .of_setHandler hth (fun th' hd hth' => ?_) fun howes => Or.inl ?_⟩
  · rw [hthreads, hsame.1]
    exact hkeep th' hd hth'
  · rw [hserial howes, hsame.2, hcalls]

theorem moves_endInvoke {mid : Method}
    (hth : s.threads[th]? = some h) (hphase : h.phase = .invoking mid) (retval : ℤ) :
    ∃ h', s.Moves th h (s.endInvoke th h mid retval) h' := by
  have hkeep (f : Call → Call) (th' : ℕ) (hd : Handler) (hth' : s.threads[th']? = some hd) :
      (s.modifyCall h.req.serial f).threads[th']? = some hd := by
    rwa [modifyCall_threads]
  rw [endInvoke]
  split_ifs
  · exact ⟨_, .of_setHandler hth (hkeep _) fun _ => Or.inr (by simp [remaining, hphase])⟩
  · exact ⟨_, .of_setHandler hth (hkeep _) fun _ => Or.inr (by simp [remaining, hphase])⟩

theorem next_moves {cfg : Config} {s s' : ObjectServer} {e : HandlerEvent}
    (hnext : s.next cfg e = some s') (he : e.thread = some th) :
    ∃ h h', s.threads[th]? = some h ∧ s.Moves th h s' h' := by
  obtain ⟨th', hd, stack, rfl, hth, hphase, rfl⟩ |
    ⟨th', hd, rcvRequest, a, stack, rfl, hth, hphase, -, rfl⟩ |
    ⟨th', hd, mid, retval, rfl, hth, hphase, rfl⟩ | ⟨t, rfl, -⟩ := next_cases hnext
  · cases he
    exact ⟨hd, (moves_beginMessage hth hphase cfg stack).imp fun _ hm => ⟨hth, hm⟩⟩
  · cases he
    exact ⟨hd, (moves_endMessage hth a cfg stack).imp fun _ hm => ⟨hth, hm⟩⟩
  · cases he
    exact ⟨hd, (moves_endInvoke hth hphase retval).imp fun _ hm => ⟨hth, hm⟩⟩
  · simp [HandlerEvent.thread] at he

theorem next_others {cfg : Config} {s s' : ObjectServer} {e : HandlerEvent}
    (hnext : s.next cfg e = some s') (hth : s.threads[th]? = some h)
    (hne : e.thread ≠ some th) : s'.threads[th]? = some h := by
  rcases he : e.thread with - | th'
  · cases e with
    | redefines t =>
      cases hnext
      exact hth
    | _ => simp [HandlerEvent.thread] at he
  · obtain ⟨_, _, -, hmoves⟩ := next_moves hnext he
    exact hmoves.others th h (fun heq => hne (heq ▸ he)) hth

theorem exists_next (hth : s.threads[th]? = some h)
    (howes : h.owes = true) (cfg : Config) (stack : Stack) :
    ∃ e s', HandlerEvent.thread e = some th ∧ s.next cfg e = some s' := by
  cases hphase : h.phase with
  | looping =>
    exact ⟨.adjusts th stack, s.beginMessage cfg th h stack, rfl, by simp [next, hth, hphase]⟩
  | messaging rcvRequest =>
    obtain ⟨a, hfits⟩ : ∃ a : Answer, a.Fits (h.sends rcvRequest) rcvRequest h.rep.remotePort := by
      refine ⟨⟨machSendInvalidDest, false, none, true⟩, ?_⟩
      simp [Answer.Fits, machSendInvalidDest, machMsgSuccess]
    exact ⟨.answered th a stack, s.endMessage cfg th h rcvRequest a stack, rfl,
      by simp [next, hth, hphase, hfits]⟩
  | invoking mid =>
    exact ⟨.returns th 0, s.endInvoke th h mid 0, rfl, by simp [next, hth, hphase]⟩
  | exited => simp [owes, hphase] at howes
  | faulted => simp [owes, hphase] at howes

structure InHand (cfg : Config) (s : ObjectServer) (i th : ℕ) (h : Handler) : Prop where
  thread : s.threads[th]? = some h
  owes : h.owes = true
  serial : h.req.serial = some i
  goesOn : ∃ e s', HandlerEvent.thread e = some th ∧ s.next cfg e = some s'
  nearer : ∀ e s', HandlerEvent.thread e = some th → s.next cfg e = some s' →
    ∃ h', s'.threads[th]? = some h' ∧
      (h'.owes = true → h'.req.serial = some i → h'.remaining < h.remaining)
  others : ∀ e s', HandlerEvent.thread e ≠ some th → s.next cfg e = some s' →
    s'.threads[th]? = some h
  bound : h.remaining ≤ 3

theorem Inv.inHand (hs : s.Inv) (cfg : Config) {i th : ℕ}
    (howed : s.OwedBy i th) : ∃ h, s.InHand cfg i th h := by
  obtain ⟨h, hth, howes, hserial⟩ := howed
  obtain ⟨i', c, hi', hc, -⟩ := (hs.threads th h hth).owed howes
  obtain rfl : i' = i := some.inj (hi'.symm.trans hserial)
  refine ⟨h, hth, howes, hserial, exists_next hth howes cfg ⟨h.req, h.rep, false⟩, fun e s' he hnext => ?_,
    fun e s' he hnext => next_others hnext hth he, h.remaining_le⟩
  obtain ⟨hd, h', hth', hmoves⟩ := next_moves hnext he
  cases hth'.symm.trans hth
  refine ⟨h', hmoves.own, fun howes' hserial' => ?_⟩
  rcases hmoves.nearer howes' with hnew | hnearer
  · have hlt := (List.getElem?_eq_some_iff.mp hc).1
    rw [hserial', some.injEq] at hnew
    omega
  · exact hnearer

theorem replied_once_iff {cfg : Config} {s : ObjectServer} (hs : s.Reachable cfg) {i : ℕ} {c : Call}
    (hc : s.calls[i]? = some c) (hord : c.Ordinary) :
    (∃ h, s.InHand cfg i c.handler h) ∨
      (s.Replied i c ↔ c.request.remotePort = machPortNull ∨ (c.CallsRpc ∧ c.failed = none)) := by
  rcases hs.inv.calls i c hc hord with howed | hsettled
  · exact Or.inl (hs.inv.inHand cfg howed)
  · exact Or.inr hsettled.replied_iff

end ObjectServer

namespace Sample

def callTables : Tables :=
  { tables with
    lookupMsgid := fun id => if id = 7 then some ⟨[109], { inIntType with rpc := true }⟩ else none
    lookupExternalPort := fun p => if p = 5 then some 0 else none }

def call (id : ℤ) : Request where
  incoming := incoming 32
  mem := storeWord (storeWord (storeWord (integers 1) 1020 id) 1008 9) 1012 5

def stack : Stack :=
  ⟨⟨none, 0, 0, 0, 0, call 0⟩, ⟨none, 0, 0, 0, 0, call 0⟩, true⟩

def oneThread : Config := ⟨0, 1, 1⟩

def arrives (id : ℤ) : List HandlerEvent :=
  [.adjusts 0 stack, .answered 0 ⟨machMsgSuccess, false, some (call id), false⟩ stack]

def serves : List HandlerEvent :=
  arrives 7 ++ [.returns 0 42, .adjusts 0 stack, .answered 0 ⟨0x10004003, true, none, false⟩ stack]

theorem exists_call (es : List HandlerEvent) (test : ObjectServer → Call → Bool)
    (h : check (ObjectServer.next oneThread) (ObjectServer.start callTables stack) es
      (fun s => match s.calls[0]? with
        | some c => decide c.Ordinary && test s c
        | none => false) = true) :
    ∃ (s : ObjectServer) (c : Call), s.Reachable oneThread ∧ s.calls[0]? = some c ∧ c.Ordinary ∧
      test s c = true := by
  obtain ⟨s, hs, hcheck⟩ := exec_of_check h
  cases hc : s.calls[0]? with
  | none => simp [hc] at hcheck
  | some c =>
    simp only [hc, Bool.and_eq_true, decide_eq_true_eq] at hcheck
    exact ⟨s, c, ⟨_, _, run_of_exec (free_admits _ _) hs⟩, hc, hcheck⟩

end Sample

namespace ObjectServer

theorem unknown_method_gets_no_reply :
    ∃ (s : ObjectServer) (c : Call), s.Reachable Sample.oneThread ∧ s.calls[0]? = some c ∧
      c.Ordinary ∧ c.tables.lookupMsgid c.request.id = none ∧ c.request.remotePort = 9 ∧
      (∀ h, ¬s.InHand Sample.oneThread 0 c.handler h) ∧ ¬s.Replied 0 c := by
  obtain ⟨s, c, hs, hc, hord, htest⟩ := Sample.exists_call (Sample.arrives 8)
    (fun s c => (c.tables.lookupMsgid c.request.id).isNone &&
      decide (c.request.remotePort = 9) && s.threads.all (!·.owes) && decide (s.sent = []))
    (by decide +kernel)
  simp only [Bool.and_eq_true, isNone_iff_eq_none, decide_eq_true_eq, List.all_eq_true,
    Bool.not_eq_true'] at htest
  obtain ⟨⟨⟨hid, hport⟩, hidle⟩, hsent⟩ := htest
  refine ⟨s, c, hs, hc, hord, hid, hport, fun h hhand => ?_, ?_⟩
  · have hnot := hidle h (List.mem_of_getElem? hhand.thread)
    exact absurd hhand.owes (by simp [hnot])
  · rw [Replied, if_neg (by rw [hport]; decide), repliesTo, hsent]
    rintro ⟨r, hr, -⟩
    simp at hr

theorem replied_once_iff_serves :
    ∃ (s : ObjectServer) (c : Call), s.Reachable Sample.oneThread ∧ s.calls[0]? = some c ∧
      c.Ordinary ∧ s.sent = [⟨some 0, 9, 42⟩] ∧
      ((∃ h, s.InHand Sample.oneThread 0 c.handler h) ∨
        (s.Replied 0 c ↔
          c.request.remotePort = machPortNull ∨ (c.CallsRpc ∧ c.failed = none))) := by
  obtain ⟨s, c, hs, hc, hord, htest⟩ := Sample.exists_call Sample.serves
    (fun s _ => decide (s.sent = [⟨some 0, 9, 42⟩])) (by decide +kernel)
  exact ⟨s, c, hs, hc, hord, of_decide_eq_true htest, replied_once_iff hs hc hord⟩

end ObjectServer

end MachUS.Rpc
