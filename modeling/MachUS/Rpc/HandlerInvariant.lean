import MachUS.Rpc.Handler

namespace MachUS.Rpc

open Option Handler List Or

def Handler.owes (h : Handler) : Bool :=
  match h.phase with
  | .looping => h.sendReply
  | .messaging _ => h.sendReply
  | .invoking _ => true
  | .exited => false
  | .faulted => false

namespace Call

variable (c : Call)

def unpacked : Outcome (Except Ret (Method × Cursor)) :=
  unpackRequest c.tables c.request.incoming c.request.mem

structure Ordinary : Prop where
  registered : (c.tables.lookupExternalPort c.request.localPort).isSome = true
  notification : c.request.id ≠ machNotifyNoSenders
  abort : c.request.id ≠ abortId

instance : Decidable c.Ordinary :=
  decidable_of_iff
    ((c.tables.lookupExternalPort c.request.localPort).isSome = true ∧
      c.request.id ≠ machNotifyNoSenders ∧ c.request.id ≠ abortId)
    ⟨fun h => ⟨h.1, h.2.1, h.2.2⟩, fun h => ⟨h.registered, h.notification, h.abort⟩⟩

def CallsRpc : Prop := ∃ mid cur, c.unpacked = .ok (.ok (mid, cur)) ∧ mid.argType.rpc = true

end Call

namespace ObjectServer

def repliesTo (s : ObjectServer) (i : ℕ) : List Reply := s.sent.filter (·.serial = some i)

def Settled (s : ObjectServer) (i : ℕ) (c : Call) : Prop :=
  (s.repliesTo i = [] ∧ (c.failed = none → ¬c.CallsRpc)) ∨
    (c.CallsRpc ∧ c.failed = none ∧ c.request.remotePort ≠ machPortNull ∧
      ∃ retval, c.returned = some retval ∧
        s.repliesTo i = [⟨some i, c.request.remotePort, retval⟩])

end ObjectServer

structure Handler.Serves (h : Handler) (i : ℕ) (c : Call) : Prop where
  port : h.req.remotePort = c.request.remotePort
  unfailed : c.failed = none
  invoking : ∀ mid, h.phase = .invoking mid →
    ∃ cur, c.unpacked = .ok (.ok (mid, cur))
  replying : (∀ mid, h.phase ≠ .invoking mid) →
    c.CallsRpc ∧ h.rep.serial = some i ∧ c.returned = some h.rep.retval
  addressed : ∀ rcvRequest, h.phase = .messaging rcvRequest → h.rep.remotePort = h.req.remotePort

namespace ObjectServer

structure Sound (s : ObjectServer) (th : ℕ) (h : Handler) : Prop where
  owed : h.owes = true → ∃ i c, h.req.serial = some i ∧ s.calls[i]? = some c ∧ c.handler = th ∧
    s.repliesTo i = [] ∧ h.Serves i c
  sending : h.phase = .messaging false → h.sendReply = true

def OwedBy (s : ObjectServer) (i th : ℕ) : Prop :=
  ∃ h, s.threads[th]? = some h ∧ h.owes = true ∧ h.req.serial = some i

structure Inv (s : ObjectServer) : Prop where
  threads : ∀ th h, s.threads[th]? = some h → s.Sound th h
  calls : ∀ i c, s.calls[i]? = some c → c.Ordinary → s.OwedBy i c.handler ∨ s.Settled i c
  sent : ∀ r ∈ s.sent, ∃ i < s.calls.length, r.serial = some i

structure Apart (s : ObjectServer) (th i : ℕ) : Prop where
  threads : ∀ th' h, th' ≠ th → s.threads[th']? = some h → s.Sound th' h
  calls : ∀ j c, j ≠ i → s.calls[j]? = some c → c.Ordinary →
    (c.handler ≠ th ∧ s.OwedBy j c.handler) ∨ s.Settled j c
  own : ∀ c, s.calls[i]? = some c → c.handler = th
  sent : ∀ r ∈ s.sent, ∃ j < s.calls.length, r.serial = some j

variable {h : Handler} {th : ℕ}

theorem Sound.congr {s s' : ObjectServer} (hs : s.Sound th h)
    (hkeep : ∀ i c, s.calls[i]? = some c → c.handler = th →
      s'.calls[i]? = some c ∧ (s.repliesTo i = [] → s'.repliesTo i = [])) : s'.Sound th h := by
  refine ⟨fun howes => ?_, hs.sending⟩
  obtain ⟨i, c, hi, hc, hth, hnone, hserves⟩ := hs.owed howes
  obtain ⟨hc', hnone'⟩ := hkeep i c hc hth
  exact ⟨i, c, hi, hc', hth, hnone' hnone, hserves⟩

variable {s : ObjectServer}

theorem Sound.idle (howes : h.owes = false) (hphase : h.phase ≠ .messaging false) : s.Sound th h :=
  ⟨fun h' => absurd (howes.symm.trans h') (by simp), fun h' => absurd h' hphase⟩

theorem Inv.apart_owed (hs : s.Inv) {th i : ℕ}
    (hth : s.threads[th]? = some h) (howes : h.owes = true) (hi : h.req.serial = some i) :
    s.Apart th i := by
  obtain ⟨i', c, hi', hc, hhandler, -⟩ := (hs.threads th h hth).owed howes
  obtain rfl : i' = i := some.inj (hi'.symm.trans hi)
  refine ⟨fun th' h' _ h'' => hs.threads th' h' h'', fun j c' hj hc' hord => ?_, fun c' hc' => ?_,
    hs.sent⟩
  · rcases hs.calls j c' hc' hord with howed | hsettled
    · refine inl ⟨fun heq => hj ?_, howed⟩
      obtain ⟨h', hth', -, hserial⟩ := howed
      rw [heq, hth] at hth'
      cases hth'
      exact some.inj (hserial.symm.trans hi)
    · exact inr hsettled
  · exact some.inj (hc'.symm.trans hc) ▸ hhandler

theorem Inv.apart_idle (hs : s.Inv)
    (hth : s.threads[th]? = some h) (howes : h.owes = false) : s.Apart th s.calls.length := by
  refine ⟨fun th' h' _ h'' => hs.threads th' h' h'', fun j c hj hc hord => ?_, fun c hc => ?_,
    hs.sent⟩
  · rcases hs.calls j c hc hord with howed | hsettled
    · refine inl ⟨fun heq => ?_, howed⟩
      obtain ⟨h', hth', howes', -⟩ := howed
      rw [heq, hth] at hth'
      cases hth'
      cases howes.symm.trans howes'
    · exact inr hsettled
  · simp at hc

theorem calls_modifyCall_self (s : ObjectServer) (i : ℕ) (f : Call → Call) :
    (s.modifyCall (some i) f).calls[i]? = s.calls[i]?.map f := by
  simp [modifyCall]

theorem calls_modifyCall_ne {i j : ℕ} (hj : j ≠ i) (f : Call → Call) :
    (s.modifyCall (some i) f).calls[j]? = s.calls[j]? := by
  simp [modifyCall, Ne.symm hj]

namespace Apart

variable {s : ObjectServer} {th i : ℕ}

theorem settle (hs : s.Apart th i) (hi : ∀ c, s.calls[i]? = some c → c.Ordinary → s.Settled i c) :
    s.Apart th s.calls.length := by
  refine ⟨hs.threads, fun j c _ hc hord => ?_, fun c hc => ?_, hs.sent⟩
  · by_cases hj : j = i
    · subst hj
      exact inr (hi c hc hord)
    · exact hs.calls j c hj hc hord
  · simp at hc

theorem attach (hs : s.Apart th i) (hth : th < s.threads.length) (hsound : s.Sound th h)
    (hi : ∀ c, s.calls[i]? = some c → c.Ordinary →
      (h.owes = true ∧ h.req.serial = some i) ∨ s.Settled i c) : (s.setHandler th h).Inv := by
  refine ⟨fun th' h' hth' => ?_, fun j c hc hord => ?_, hs.sent⟩
  · by_cases heq : th' = th
    · subst heq
      simp only [setHandler, getElem?_set_self hth, some.injEq] at hth'
      obtain rfl := hth'
      exact hsound.congr fun _ _ hc _ => ⟨hc, id⟩
    · simp only [setHandler, getElem?_set_ne (Ne.symm heq)] at hth'
      exact (hs.threads th' h' heq hth').congr fun _ _ hc _ => ⟨hc, id⟩
  · by_cases hj : j = i
    · subst hj
      refine (hi c hc hord).imp_left fun ⟨howes, hserial⟩ => ⟨h, ?_, howes, hserial⟩
      rw [hs.own c hc]
      exact getElem?_set_self hth
    · refine (hs.calls j c hj hc hord).imp_left fun ⟨hne, h', hth', howes, hserial⟩ =>
        ⟨h', ?_, howes, hserial⟩
      simpa only [setHandler, getElem?_set_ne (Ne.symm hne)] using hth'

theorem attach_idle (hs : s.Apart th s.calls.length) (hth : th < s.threads.length)
    (howes : h.owes = false) (hphase : h.phase ≠ .messaging false) : (s.setHandler th h).Inv :=
  hs.attach hth (.idle howes hphase) fun c hc => by simp at hc

theorem modifyCall (hs : s.Apart th i) {f : Call → Call} (hf : ∀ c, (f c).handler = c.handler) :
    (s.modifyCall (some i) f).Apart th i := by
  refine ⟨fun th' h hth' h' => (hs.threads th' h hth' h').congr fun j c hc hhandler => ?_,
    fun j c hj hc hord => ?_, fun c hc => ?_, fun r hr => ?_⟩
  · have hj : j ≠ i := by
      rintro rfl
      exact hth' (hhandler.symm.trans (hs.own c hc))
    exact ⟨(calls_modifyCall_ne hj f).trans hc, id⟩
  · exact hs.calls j c hj ((calls_modifyCall_ne hj f).symm.trans hc) hord
  · rw [calls_modifyCall_self, map_eq_some_iff] at hc
    obtain ⟨c', hc', rfl⟩ := hc
    exact (hf c').trans (hs.own c' hc')
  · simpa [ObjectServer.modifyCall] using hs.sent r hr

theorem repliesTo_append {j : ℕ} {r : Reply} :
    repliesTo { s with sent := s.sent ++ [r] } j =
      s.repliesTo j ++ if r.serial = some j then [r] else [] := by
  simp only [repliesTo, filter_append]
  split_ifs with h <;> simp [h]

theorem send (hs : s.Apart th i) (hi : i < s.calls.length) {r : Reply} (hr : r.serial = some i) :
    Apart { s with sent := s.sent ++ [r] } th i := by
  have hother : ∀ j, j ≠ i →
      repliesTo { s with sent := s.sent ++ [r] } j = s.repliesTo j := fun j hj => by
    rw [repliesTo_append, hr, if_neg (fun h => hj (some.inj h).symm), append_nil]
  refine ⟨fun th' h hth' h' => (hs.threads th' h hth' h').congr fun j c hc hhandler => ?_,
    fun j c hj hc hord => ?_, hs.own, fun r' hr' => ?_⟩
  · refine ⟨hc, fun hnone => (hother j ?_).trans hnone⟩
    rintro rfl
    exact hth' (hhandler.symm.trans (hs.own c hc))
  · refine (hs.calls j c hj hc hord).imp_right fun hsettled => ?_
    rw [Settled, hother j hj]
    exact hsettled
  · rcases mem_append.mp hr' with hold | hnew
    · exact hs.sent r' hold
    · obtain rfl := mem_singleton.mp hnew
      exact ⟨i, hi, hr⟩

theorem arrive (hs : s.Apart th s.calls.length) {c : Call} (hc : c.handler = th) :
    Apart { s with calls := s.calls ++ [c] } th s.calls.length := by
  refine ⟨fun th' h hth' h' => (hs.threads th' h hth' h').congr fun j c' hc' _ => ?_,
    fun j c' hj hc' hord => ?_, fun c' hc' => ?_, fun r hr => ?_⟩
  · exact ⟨by simpa [List.getElem?_append_left (List.getElem?_eq_some_iff.mp hc').1] using hc', id⟩
  · refine hs.calls j c' hj ?_ hord
    simp only [List.getElem?_append, List.getElem?_singleton] at hc'
    split_ifs at hc' with hlt heq
    · exact hc'
    · omega
  · simp only [getElem?_concat_length, some.injEq] at hc'
    exact hc' ▸ hc
  · obtain ⟨j, hj, hserial⟩ := hs.sent r hr
    refine ⟨j, ?_, hserial⟩
    rw [length_append]
    omega

theorem incomingInvoke (hs : s.Apart th i) {c : Call} (hth : th < s.threads.length)
    (hphase : h.phase = .looping) (hsend : h.sendReply = false) (hserial : h.req.serial = some i)
    (hc : s.calls[i]? = some c) (htables : c.tables = s.tables) (hreq : h.req.request = c.request)
    (hport : h.req.remotePort = c.request.remotePort) (hfailed : c.failed = none)
    (hnone : s.repliesTo i = []) : (s.incomingInvoke th h).Inv := by
  have hunpacked : unpackRequest s.tables h.req.request.incoming h.req.request.mem = c.unpacked := by
    rw [Call.unpacked, htables, hreq]
  have hidle : ∀ c', s.calls[i]? = some c' → (¬c.CallsRpc) → s.Settled i c' := fun c' hc' hrpc => by
    cases hc'.symm.trans hc
    exact inl ⟨hnone, fun _ => hrpc⟩
  rw [ObjectServer.incomingInvoke, hunpacked]
  rcases hu : c.unpacked with trap | result | ⟨mid, cur⟩
  · refine hs.attach hth (.idle rfl (by simp)) fun c' hc' _ => inr (hidle c' hc' ?_)
    rintro ⟨mid, cur, h', -⟩
    simp [hu] at h'
  · refine hs.attach hth (.idle ?_ ?_) fun c' hc' _ => inr (hidle c' hc' ?_)
    · simp [owes, hphase, hsend]
    · simp [hphase]
    · rintro ⟨mid, cur, h', -⟩
      simp [hu] at h'
  · refine hs.attach hth ⟨fun _ => ?_, by simp⟩ fun c' _ _ => inl ⟨rfl, hserial⟩
    refine ⟨i, c, hserial, hc, hs.own c hc, hnone, ⟨hport, hfailed, ?_, ?_, by simp⟩⟩
    · rintro mid' ⟨⟩
      exact ⟨cur, hu⟩
    · intro h'
      exact absurd rfl (h' mid)

theorem receive (hs : s.Apart th s.calls.length) (hth : th < s.threads.length)
    (hphase : h.phase = .looping) (hsend : h.sendReply = false) (hfailure : h.sendingFailure = false)
    (q : Request) : (s.receive th h q).Inv := by
  have hnone : s.repliesTo s.calls.length = [] := by
    refine filter_eq_nil_iff.mpr fun r hr => ?_
    obtain ⟨j, hj, hserial⟩ := hs.sent r hr
    simp only [hserial, some.injEq, decide_eq_true_eq]
    omega
  have harrived := hs.arrive (c := ⟨th, q, s.tables, none, none⟩) rfl
  have hidle (h' : Handler) (hp : h'.phase = .looping) (hs' : h'.sendReply = false)
      (hord : ¬Call.Ordinary ⟨th, q, s.tables, none, none⟩) :
      (ObjectServer.setHandler { s with calls := s.calls ++ [⟨th, q, s.tables, none, none⟩] }
        th h').Inv := by
    refine harrived.attach hth (.idle ?_ ?_) fun c hc hc' => ?_
    · simp [owes, hp, hs']
    · simp [hp]
    · simp only [getElem?_concat_length, some.injEq] at hc
      exact absurd hc' (hc ▸ hord)
  rw [ObjectServer.receive]
  generalize hmsg : Message.ofRequest s.calls.length q = msg
  have hid : msg.id = q.id := by rw [← hmsg, Message.ofRequest]
  have hlocal : msg.localPort = q.localPort := by rw [← hmsg, Message.ofRequest]
  rw [dispatch]
  rcases hobj : s.tables.lookupExternalPort msg.localPort with - | obj
  · refine hidle _ hphase hsend fun h' => ?_
    have hreg : (s.tables.lookupExternalPort q.localPort).isSome = true := h'.registered
    rw [← hlocal, hobj] at hreg
    cases hreg
  · simp only [hfailure, Bool.false_eq_true, if_false]
    split_ifs with hnotify habort
    · exact hidle _ hphase hsend fun h' => h'.notification (hid.symm.trans hnotify)
    · exact hidle _ hphase hsend fun h' => h'.abort (hid.symm.trans habort)
    · subst hmsg
      exact harrived.incomingInvoke hth hphase hsend rfl getElem?_concat_length rfl rfl rfl rfl
        hnone

end Apart

section

variable (cfg : Config) (adj : ℤ) (exitOk : Bool) (stack : Stack)

include cfg adj exitOk stack

theorem adjustThreads_calls
    (s : ObjectServer) : (s.adjustThreads cfg adj exitOk stack).1.calls = s.calls ∧
      (s.adjustThreads cfg adj exitOk stack).1.sent = s.sent := by
  simp only [adjustThreads]
  split_ifs <;> exact ⟨rfl, rfl⟩

theorem adjustThreads_threads
    (s : ObjectServer) : (s.adjustThreads cfg adj exitOk stack).1.threads = s.threads ∨
      (s.adjustThreads cfg adj exitOk stack).1.threads = s.threads ++ [fresh stack] := by
  simp only [adjustThreads]
  split_ifs <;> simp

theorem getElem?_adjustThreads (hth : s.threads[th]? = some h) :
    (s.adjustThreads cfg adj exitOk stack).1.threads[th]? = some h := by
  rcases adjustThreads_threads cfg adj exitOk stack s with heq | heq
  · rw [heq, hth]
  · rw [heq, List.getElem?_append_left (List.getElem?_eq_some_iff.mp hth).1, hth]

end

theorem Inv.adjustThreads (hs : s.Inv) (cfg : Config) (adj : ℤ) (exitOk : Bool)
    (stack : Stack) : (s.adjustThreads cfg adj exitOk stack).1.Inv := by
  obtain ⟨hcalls, hsent⟩ := adjustThreads_calls cfg adj exitOk stack s
  have hreplies (i : ℕ) : (s.adjustThreads cfg adj exitOk stack).1.repliesTo i = s.repliesTo i := by
    rw [repliesTo, hsent, repliesTo]
  have hsound {th : ℕ} {h : Handler} (h' : s.Sound th h) :
      (s.adjustThreads cfg adj exitOk stack).1.Sound th h :=
    h'.congr fun i c hc _ => ⟨hcalls ▸ hc, (hreplies i).trans⟩
  refine ⟨fun th h hth => ?_, fun i c hc hord => ?_, ?_⟩
  · rcases adjustThreads_threads cfg adj exitOk stack s with heq | heq
    · exact hsound (hs.threads th h (heq ▸ hth))
    · rw [heq, List.getElem?_append, List.getElem?_singleton] at hth
      split_ifs at hth with hlt hnew
      · exact hsound (hs.threads th h hth)
      · cases hth
        exact .idle rfl (by simp [fresh])
  · rcases hs.calls i c (hcalls ▸ hc) hord with ⟨h, hth, howed⟩ | hsettled
    · exact inl ⟨h, getElem?_adjustThreads cfg adj exitOk stack hth, howed⟩
    · right
      rw [Settled, hreplies]
      exact hsettled
  · rw [hsent, hcalls]
    exact hs.sent

theorem Answer.sendError_eq (a : Answer) : a.sendError = false := by
  have h : errGetSystem a.ret ≠ errMachIpc := by
    rw [errGetSystem, errMachIpc, errSystem]
    omega
  simp [Answer.sendError, h]

theorem Apart.copeWith (hs : s.Apart th s.calls.length)
    (hth : th < s.threads.length) (hphase : h.phase = .looping) (hsend : h.sendReply = false)
    (a : Answer) : (s.copeWith th h a).Inv := by
  have hidle (h' : Handler) (hp : h'.phase = .looping) (hs' : h'.sendReply = false) :
      (s.setHandler th h').Inv :=
    hs.attach_idle hth (by simp [owes, hp, hs']) (by simp [hp])
  rw [ObjectServer.copeWith, Answer.sendError_eq, if_neg Bool.false_ne_true]
  split_ifs
  · exact hidle h hphase hsend
  · exact hidle h hphase hsend
  · exact hidle h hphase hsend
  · rcases a.received with - | q
    · exact hidle _ hphase hsend
    · exact hs.receive (h := { h with sendingFailure := false }) hth hphase hsend rfl q

theorem modifyCall_threads (s : ObjectServer) (serial : Option ℕ) (f : Call → Call) :
    (s.modifyCall serial f).threads = s.threads := by
  cases serial <;> rfl

theorem modifyCall_length (s : ObjectServer) (serial : Option ℕ) (f : Call → Call) :
    (s.modifyCall serial f).calls.length = s.calls.length := by
  cases serial <;> simp [modifyCall]

theorem recordSend_threads (s : ObjectServer) (h : Handler) (a : Answer) :
    (s.recordSend h a).threads = s.threads := by
  rw [recordSend]
  split_ifs
  · rfl
  · exact s.modifyCall_threads _ _

theorem recordSend_length (s : ObjectServer) (h : Handler) (a : Answer) :
    (s.recordSend h a).calls.length = s.calls.length := by
  rw [recordSend]
  split_ifs
  · rfl
  · exact s.modifyCall_length _ _

variable {rcvRequest : Bool}

section

variable (hs : s.Inv) (hth : s.threads[th]? = some h) (hphase : h.phase = .messaging rcvRequest)

include hs hth hphase

theorem Inv.recordSend (howes : h.owes = true) {a : Answer}
    (ha : a.Fits (h.sends rcvRequest) rcvRequest h.rep.remotePort) :
    (s.recordSend h a).Apart th (s.recordSend h a).calls.length := by
  obtain ⟨i, c, hi, hc, -, hnone, hserves⟩ := (hs.threads th h hth).owed howes
  obtain ⟨hrpc, hserial, hret⟩ := hserves.replying fun mid => by simp [hphase]
  have hport := (hserves.addressed _ hphase).trans hserves.port
  have hapart := hs.apart_owed hth howes hi
  rw [ObjectServer.recordSend]
  split_ifs with hdelivered
  · refine (hapart.send (List.getElem?_eq_some_iff.mp hc).1 hserial).settle fun c' hc' _ => ?_
    cases hc'.symm.trans hc
    refine inr ⟨hrpc, hserves.unfailed, hport ▸ (ha.2.2 hdelivered).2, _, hret, ?_⟩
    rw [Apart.repliesTo_append, hnone, Message.toReply, hserial, hport]
    simp
  · rw [hserial]
    refine (hapart.modifyCall (f := fun c => { c with failed := some a.ret }) fun _ => rfl).settle
      fun c' hc' _ => ?_
    rw [calls_modifyCall_self, hc, map_some, some.injEq] at hc'
    exact inl ⟨hnone, fun h' => by simp [← hc'] at h'⟩

theorem Inv.endMessage {a : Answer}
    (ha : a.Fits (h.sends rcvRequest) rcvRequest h.rep.remotePort) (cfg : Config) (stack : Stack) :
    (s.endMessage cfg th h rcvRequest a stack).Inv := by
  rw [ObjectServer.endMessage]
  generalize hadjusted : (if rcvRequest then (s.adjustThreads cfg (-1) false stack).1 else s) = s'
  have hs' : s'.Inv ∧ s'.threads[th]? = some h := by
    subst hadjusted
    split_ifs
    · exact ⟨hs.adjustThreads cfg _ _ stack, getElem?_adjustThreads cfg _ _ stack hth⟩
    · exact ⟨hs, hth⟩
  have hlt : th < s'.threads.length := (List.getElem?_eq_some_iff.mp hs'.2).1
  have howes : h.owes = h.sends rcvRequest := by
    have hsending := (hs.threads th h hth).sending
    cases rcvRequest with
    | false => simp [owes, Handler.sends, hphase, hsending hphase]
    | true => simp [owes, Handler.sends, hphase]
  cases hsends : h.sends rcvRequest with
  | false =>
    exact (hs'.1.apart_idle hs'.2 (howes.trans hsends)).copeWith hlt rfl rfl a
  | true =>
    refine (hs'.1.recordSend hs'.2 hphase (howes.trans hsends) ha).copeWith ?_ rfl rfl a
    rwa [recordSend_threads]

end

theorem adjustThreads_verdict (cfg : Config) (adj : ℕ) (exitOk : Bool) (stack : Stack)
    (s : ObjectServer) :
    ((s.adjustThreads cfg adj exitOk stack).2 = .exits → exitOk = true) ∧
      ((s.adjustThreads cfg adj exitOk stack).2 = .waits false → exitOk = false) := by
  simp only [adjustThreads]
  split_ifs <;> simp_all

section

variable (hs : s.Inv) (hth : s.threads[th]? = some h) (hphase : h.phase = .looping)

include hs hth hphase

theorem Inv.addressed (hsends : rcvRequest = false → h.sendReply = true) :
    (s.setHandler th { h with phase := .messaging rcvRequest, waitCnt := 1, rep := h.addressed rcvRequest }).Inv := by
  have hlt := (List.getElem?_eq_some_iff.mp hth).1
  cases hsend : h.sendReply with
  | false =>
    refine (hs.apart_idle hth (by simp [owes, hphase, hsend])).attach_idle hlt rfl ?_
    rintro ⟨⟩
    simp [hsend] at hsends
  | true =>
    have howes : h.owes = true := by simp [owes, hphase, hsend]
    obtain ⟨i, c, hi, hc, hhandler, hnone, hserves⟩ := (hs.threads th h hth).owed howes
    obtain ⟨hrpc, hserial, hret⟩ := hserves.replying fun mid => by simp [hphase]
    have hrep : h.addressed rcvRequest =
        { h.rep with remotePort := h.req.remotePort, localPort := machPortNull } := by
      simp [Handler.addressed, Handler.sends, hsend]
    rw [hrep]
    refine (hs.apart_owed hth howes hi).attach hlt ⟨fun _ => ?_, fun _ => rfl⟩
      fun _ _ _ => inl ⟨rfl, hi⟩
    exact ⟨i, c, hi, hc, hhandler, hnone, hserves.port, hserves.unfailed, by simp,
      fun _ => ⟨hrpc, hserial, hret⟩, fun _ _ => rfl⟩

theorem Inv.beginMessage (cfg : Config) (stack : Stack) : (s.beginMessage cfg th h stack).Inv := by
  have hs' := hs.adjustThreads cfg h.waitCnt (!h.sendReply) stack
  have hth' := getElem?_adjustThreads cfg h.waitCnt (!h.sendReply) stack hth
  have hverdict := adjustThreads_verdict cfg h.waitCnt (!h.sendReply) stack s
  rw [ObjectServer.beginMessage]
  revert hs' hth' hverdict
  rcases s.adjustThreads cfg h.waitCnt (!h.sendReply) stack with ⟨s', - | rcvRequest⟩
  · intro hs' hth' hverdict
    have hsend : h.sendReply = false := by simpa using hverdict.1 rfl
    exact (hs'.apart_idle hth' (by simp [owes, hphase, hsend])).attach_idle
      (List.getElem?_eq_some_iff.mp hth').1 rfl (by simp)
  · intro hs' hth' hverdict
    exact hs'.addressed hth' hphase fun h' => by simpa using hverdict.2 (by rw [h'])

end

theorem Inv.endInvoke (hs : s.Inv) {mid : Method}
    (hth : s.threads[th]? = some h) (hphase : h.phase = .invoking mid) (retval : ℤ) :
    (s.endInvoke th h mid retval).Inv := by
  have howes : h.owes = true := by simp [owes, hphase]
  obtain ⟨i, c, hi, hc, hhandler, hnone, hserves⟩ := (hs.threads th h hth).owed howes
  obtain ⟨cur, hcur⟩ := hserves.invoking mid hphase
  have hapart := (hs.apart_owed hth howes hi).modifyCall
    (f := fun c => { c with returned := some retval }) fun _ => rfl
  have hlt : th < (s.modifyCall (some i) fun c => { c with returned := some retval }).threads.length :=
    (List.getElem?_eq_some_iff.mp hth).1
  rw [ObjectServer.endInvoke, hi]
  split_ifs with hrpc
  · refine hapart.attach hlt ⟨fun _ => ⟨i, { c with returned := some retval }, hi, ?_, hhandler, hnone,
      ⟨hserves.port, hserves.unfailed, by simp, fun _ => ⟨⟨mid, cur, hcur, hrpc⟩, hi, rfl⟩, by simp⟩⟩,
      by simp⟩ fun _ _ _ => inl ⟨rfl, hi⟩
    rw [calls_modifyCall_self, hc, map_some]
  · refine hapart.attach hlt (.idle rfl (by simp)) fun c' hc' _ => inr (inl ⟨hnone, fun _ => ?_⟩)
    rw [calls_modifyCall_self, hc, map_some, some.injEq] at hc'
    rintro ⟨mid', cur', hcur', hrpc'⟩
    rw [← hc'] at hcur'
    cases Except.ok.inj (hcur'.symm.trans hcur)
    exact hrpc hrpc'

variable {cfg : Config}

theorem next_cases {s s' : ObjectServer} {e : HandlerEvent} (h : s.next cfg e = some s') :
    (∃ th h stack, e = .adjusts th stack ∧ s.threads[th]? = some h ∧ h.phase = .looping ∧
      s' = s.beginMessage cfg th h stack) ∨
    (∃ th h rcvRequest a stack, e = .answered th a stack ∧ s.threads[th]? = some h ∧
      h.phase = .messaging rcvRequest ∧
      a.Fits (h.sends rcvRequest) rcvRequest h.rep.remotePort ∧
      s' = s.endMessage cfg th h rcvRequest a stack) ∨
    (∃ th h mid retval, e = .returns th retval ∧ s.threads[th]? = some h ∧
      h.phase = .invoking mid ∧ s' = s.endInvoke th h mid retval) ∨
    ∃ t, e = .redefines t ∧ s' = { s with tables := t } := by
  cases e with
  | adjusts th stack =>
    simp only [next] at h
    split at h
    · rename_i hd hth
      split_ifs at h with hphase
      exact inl ⟨th, hd, stack, rfl, hth, hphase, (some.inj h).symm⟩
    · simp at h
  | answered th a stack =>
    simp only [next] at h
    split at h
    · rename_i hd hth
      split at h
      · rename_i rcvRequest hphase
        split_ifs at h with hfits
        exact inr (inl ⟨th, hd, rcvRequest, a, stack, rfl, hth, hphase, hfits, (some.inj h).symm⟩)
      · simp at h
    · simp at h
  | returns th retval =>
    simp only [next] at h
    split at h
    · rename_i hd hth
      split at h
      · rename_i mid hphase
        exact inr (inr (inl ⟨th, hd, mid, retval, rfl, hth, hphase, (some.inj h).symm⟩))
      · simp at h
    · simp at h
  | redefines t => exact inr (inr (inr ⟨t, rfl, (some.inj h).symm⟩))

theorem Inv.next {s s' : ObjectServer} {e : HandlerEvent} (hs : s.Inv)
    (h : s.next cfg e = some s') : s'.Inv := by
  obtain ⟨th, hd, stack, -, hth, hphase, rfl⟩ |
    ⟨th, hd, rcvRequest, a, stack, -, hth, hphase, hfits, rfl⟩ |
    ⟨th, hd, mid, retval, -, hth, hphase, rfl⟩ | ⟨t, -, rfl⟩ := next_cases h
  · exact hs.beginMessage hth hphase cfg stack
  · exact hs.endMessage hth hphase hfits cfg stack
  · exact hs.endInvoke hth hphase retval
  · exact ⟨fun th h' hth => (hs.threads th h' hth).congr fun _ _ hc _ => ⟨hc, id⟩, hs.calls, hs.sent⟩

theorem inv_start (t : Tables) (stack : Stack) : (start t stack).Inv := by
  refine ⟨fun th h hth => ?_, fun i c hc => ?_, fun r hr => ?_⟩
  · simp only [start, List.getElem?_singleton] at hth
    split_ifs at hth
    cases hth
    exact .idle rfl (by simp [fresh])
  · simp [start] at hc
  · simp [start] at hr

theorem Reachable.inv (hs : s.Reachable cfg) : s.Inv := by
  obtain ⟨t, stack, hrun⟩ := hs
  exact Transition.invariant (fun _ _ _ hx _ hy => hx.next hy) hrun (inv_start t stack)

end ObjectServer

end MachUS.Rpc
