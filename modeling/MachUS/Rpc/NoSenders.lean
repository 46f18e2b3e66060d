import MachUS.Rpc.PortLedger

namespace MachUS.Rpc

open Relation Transition Or List

def Item.notCount : Item → Option ℕ
  | .message => none
  | .noSenders c => some c

namespace ExternalPort

def Awaited (s : ExternalPort) : Prop :=
  s.request = true ∨ (∃ x ∈ s.queue, x.notCount ≠ none) ∨
    ∃ j ∈ s.jobs, j.item.notCount ≠ none ∧ j.stage ≠ .handled

structure Reclaimable (s : ExternalPort) : Prop where
  entry : s.registered = true ↔ s.external = true ∧ s.noSenders = false
  tableRefs : s.tableRefs = if s.registered then 1 else 0
  refs : s.refCnt + s.released.length = s.locals + s.tableRefs + s.nextSeqno
  awaited : s.registered = true → Awaited s

def Armed (s : ExternalPort) : PortEvent → Prop
  | .transfer => s.noSenders = false
  | .receive => s.seqno < 2 ^ 32 - 1
  | .receiveFails _ => s.seqno < 2 ^ 32 - 1
  | .handle i => ∀ j ∈ s.jobs[i]?, j.stage = .found → ∀ c ∈ j.item.notCount, c = s.mscount
  | _ => True

instance Armed.decidable (s : ExternalPort) : ∀ e, Decidable (Armed s e)
  | .transfer => inferInstanceAs (Decidable (s.noSenders = false))
  | .receive | .receiveFails _ => inferInstanceAs (Decidable (s.seqno < 2 ^ 32 - 1))
  | .handle i => inferInstanceAs (Decidable (∀ j ∈ s.jobs[i]?, j.stage = .found →
      ∀ c ∈ j.item.notCount, c = s.mscount))
  | .sent | .lost | .copyRight | .dropRight | .post | .reference | .dereference =>
    inferInstanceAs (Decidable True)

instance Awaited.decidable (s : ExternalPort) : Decidable (Awaited s) :=
  inferInstanceAs (Decidable (s.request = true ∨ (∃ x ∈ s.queue, x.notCount ≠ none) ∨
    ∃ j ∈ s.jobs, j.item.notCount ≠ none ∧ j.stage ≠ .handled))

variable {s s' : ExternalPort} {e : PortEvent}

theorem Armed.counted (h : Armed s e) : Counted s e := by
  cases e <;> first | exact h | trivial

namespace Awaited

theorem of_queue (h : Awaited s) (hrequest : s.request = s'.request)
    (hqueue : s.queue ⊆ s'.queue) (hjobs : s.jobs = s'.jobs) : Awaited s' := by
  rcases h with h | ⟨x, hx, hnote⟩ | h
  · exact inl (hrequest ▸ h)
  · exact inr (inl ⟨x, hqueue hx, hnote⟩)
  · exact inr (inr (hjobs ▸ h))

theorem pop {item : Item} {rest : List Item} (h : Awaited s) (hqueue : s.queue = item :: rest)
    (seqno : ℕ) :
    Awaited { s with
      queue := rest
      seqno := s.seqno + 1
      jobs := s.jobs ++ [⟨item, seqno, .received⟩]
      delivered := s.delivered ++ [seqno] } := by
  rcases h with h | ⟨x, hx, hnote⟩ | ⟨j, hj, hnote⟩
  · exact inl h
  · rw [hqueue] at hx
    rcases mem_cons.mp hx with rfl | hx
    · exact inr (inr ⟨_, mem_append_right _ (mem_singleton_self _), hnote, Stage.noConfusion⟩)
    · exact inr (inl ⟨x, hx, hnote⟩)
  · exact inr (inr ⟨j, mem_append_left _ hj, hnote⟩)

theorem skip {rest : List Item} (h : Awaited s) (hqueue : s.queue = .message :: rest) :
    Awaited { s with queue := rest, seqno := s.seqno + 1 } := by
  rcases h with h | ⟨x, hx, hnote⟩ | h
  · exact inl h
  · rw [hqueue] at hx
    rcases mem_cons.mp hx with rfl | hx
    · exact absurd rfl hnote
    · exact inr (inl ⟨x, hx, hnote⟩)
  · exact inr (inr h)

theorem stage {l l' : List Job} {j : Job} (h : Awaited s) (hjobs : s.jobs = l ++ j :: l')
    {stage : Stage} (hstage : j.item.notCount ≠ none → stage ≠ .handled)
    (hrequest : s'.request = s.request) (hqueue : s'.queue = s.queue)
    (hjobs' : s'.jobs = l ++ { j with stage := stage } :: l') : Awaited s' := by
  rw [Awaited, hrequest, hqueue, hjobs']
  rcases h with h | h | ⟨i, hi, hnote, hopen⟩
  · exact inl h
  · exact inr (inl h)
  · refine inr (inr ?_)
    rw [hjobs] at hi
    rcases mem_append.mp hi with hi | hi
    · exact ⟨i, mem_append_left _ hi, hnote, hopen⟩
    · rcases mem_cons.mp hi with rfl | hi
      · exact ⟨_, mem_append_right _ (mem_cons_self), hnote, hstage hnote⟩
      · exact ⟨i, by simp [hi], hnote, hopen⟩

theorem erase {l l' : List Job} {j : Job} {released : List ℕ} (h : Awaited s)
    (hjobs : s.jobs = l ++ j :: l') (hstage : j.stage = .handled) :
    Awaited { s with jobs := l ++ l', released := released } := by
  rcases h with h | h | ⟨i, hi, hnote, hopen⟩
  · exact inl h
  · exact inr (inl h)
  · refine inr (inr ⟨i, ?_, hnote, hopen⟩)
    rw [hjobs] at hi
    rcases mem_append.mp hi with hi | hi
    · exact mem_append_left _ hi
    · rcases mem_cons.mp hi with rfl | hi
      · exact absurd hstage hopen
      · exact mem_append_right _ hi

end Awaited

theorem dereference_registered (hreg : s.registered = (s.external && !s.noSenders))
    (hr : s.dereference.registered = true) :
    s.registered = true ∧ s.dereference.request = s.request ∧ s.dereference.queue = s.queue ∧
      s.dereference.jobs = s.jobs := by
  rw [dereference] at hr ⊢
  split_ifs at hr ⊢ with hzero hone
  · exact ⟨hr, rfl, rfl, rfl⟩
  · cases hext : s.external with
    | false => simp [destructor, hext, hreg] at hr
    | true => cases hno : s.noSenders <;> simp [destructor, hext, hreg, hno] at hr
  · exact ⟨hr, rfl, rfl, rfl⟩

theorem awaited_dereference (hreg : s.registered = (s.external && !s.noSenders))
    (hw : s.registered = true → Awaited s) :
    s.dereference.registered = true → Awaited s.dereference := by
  intro hr
  obtain ⟨hr, hrequest, hqueue, hjobs⟩ := dereference_registered hreg hr
  exact (hw hr).of_queue hrequest.symm (by rw [hqueue]; exact Subset.refl _) hjobs.symm

theorem awaited_next (h : Ledger 0 s) (hw : s.registered = true → Awaited s) (he : Effect s e s')
    (ha : Armed s e) : s'.registered = true → Awaited s' := by
  cases he with
  | first hext hlocal => exact fun _ => inl rfl
  | again hext hno => exact hw
  | revive hext hno => exact absurd (hno.symm.trans ha) (by decide)
  | sent htransit hext => exact hw
  | lost htransit => exact hw
  | copyRight hsenders => exact hw
  | dropRight hsenders hquiet => exact hw
  | lastRight hsenders hrequest =>
    exact fun _ => inr (inl ⟨_, mem_append_right _ (mem_singleton_self _), Option.some_ne_none _⟩)
  | post hsenders =>
    exact fun hr => (hw hr).of_queue rfl (subset_append_left _ _) rfl
  | receive hqueue => exact fun hr => (hw hr).pop hqueue _
  | receiveFails a hqueue => exact fun hr => (hw hr).skip hqueue
  | found hjobs hstage hreg =>
    exact fun hr => (hw hr).stage hjobs (fun _ => by decide) rfl rfl rfl
  | retry hjobs hstage hreg => exact fun hr => absurd (hreg.symm.trans hr) (by decide)
  | unknown hjobs hstage hreg => exact fun hr => absurd (hreg.symm.trans hr) (by decide)
  | @invoke l l' j hjobs hstage hitem =>
    have hnot : j.item.notCount = none := by
      have hj : j ∈ s.jobs[l.length]? := by simp [hjobs]
      cases hx : j.item with
      | message => rfl
      | noSenders c => exact absurd (ha j hj hstage c (by simp [hx, Item.notCount])) (hitem c hx)
    exact fun hr => (hw hr).stage hjobs (fun hne => absurd hnot hne) rfl rfl rfl
  | repeated hjobs hstage hitem hreg => exact fun hr => absurd (hreg.symm.trans hr) (by decide)
  | unexport hjobs hstage hitem hreg =>
    exact awaited_dereference (by simp) fun hr => (nomatch hr)
  | release hjobs hstage =>
    exact awaited_dereference h.registered fun hr => (hw hr).erase hjobs hstage
  | reference hlocal => exact hw
  | dereference hlocal => exact awaited_dereference h.registered hw

theorem reclaimable (h : Ledger 0 s) (hw : s.registered = true → Awaited s) : Reclaimable s := by
  refine ⟨?_, ?_, by simpa using h.refs, hw⟩
  · rw [h.registered]
    simp
  · rw [h.tableRefs]
    cases s.registered <;> rfl

theorem exported_object_reclaimable
    (hrun : ReflTransGen (Under next Armed) create s) : Reclaimable s := by
  have hinv : Ledger 0 s ∧ (s.registered = true → Awaited s) := by
    refine invariant (I := fun s => Ledger 0 s ∧ (s.registered = true → Awaited s))
      (fun x e y hx ha hy => ?_) hrun ⟨Ledger.create, fun hr => (nomatch hr)⟩
    have he := hx.1.effect ha.counted hy
    exact ⟨hx.1.next he ha.counted, awaited_next hx.1 hx.2 he ha⟩
  exact reclaimable hinv.1 hinv.2

def reclaimed : List PortEvent :=
  [.transfer, .sent, .copyRight, .post, .dropRight, .dropRight, .receive, .receive, .handle 0,
    .handle 0, .handle 1, .handle 1]

theorem exported_object_reclaimable_exchange :
    ∃ s, ReflTransGen (Under next Armed) create s ∧ s.noSenders = true ∧
      s.dispatched = [0, 1] ∧ Reclaimable s := by
  obtain ⟨s, hexec, htest⟩ := exec_of_check
    (show check next create reclaimed
      (fun s => s.noSenders && s.dispatched == [0, 1]) = true by decide +kernel)
  have hrun := run_of_exec (P := Armed) (by decide +kernel) hexec
  rw [Bool.and_eq_true, beq_iff_eq] at htest
  exact ⟨s, hrun, htest.1, htest.2, exported_object_reclaimable hrun⟩

def exportedAgain : List PortEvent :=
  [.transfer, .sent, .dropRight, .transfer, .receive, .handle 0, .handle 0, .handle 0, .sent,
    .dropRight]

theorem stale_notification_disarms :
    ∃ s, ReflTransGen (Under next Free) create s ∧ s.registered = true ∧
      s.senders + s.inTransit = 0 ∧ ¬Reclaimable s := by
  obtain ⟨s, hexec, htest⟩ := exec_of_check
    (show check next create exportedAgain
      (fun s => s.registered && (s.senders + s.inTransit == 0 && !decide (Awaited s))) = true
      by decide +kernel)
  have hrun := run_of_exec (free_admits create exportedAgain) hexec
  simp only [Bool.and_eq_true, beq_iff_eq, Bool.not_eq_true', decide_eq_false_iff_not] at htest
  obtain ⟨hreg, hsenders, hnot⟩ := htest
  exact ⟨s, hrun, hreg, hsenders, fun h => hnot (h.awaited hreg)⟩

end ExternalPort

end MachUS.Rpc
