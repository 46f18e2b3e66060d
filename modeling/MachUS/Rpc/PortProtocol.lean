import MachUS.Rpc.PortLedger

namespace MachUS.Rpc

open Relation Transition List

namespace ExternalPort

def undispatched (s : ExternalPort) : List Job :=
  s.jobs.filter fun j => j.stage ≠ .handled

def covered (s : ExternalPort) : List Job :=
  s.jobs.filter fun j => j.seqno < s.nextSeqno

structure Serviced (s : ExternalPort) : Prop where
  delivered : s.delivered.Nodup
  dispatched : (s.dispatched ++ s.undispatched.map Job.seqno).Perm s.delivered
  findable : ∀ j ∈ s.jobs, ¬Looked j → s.registered = true
  released : (s.released ++ s.covered.map Job.seqno).Perm (range s.nextSeqno)
  refs : s.refCnt + s.released.length = s.locals + s.tableRefs + s.nextSeqno
  destroyed : s.destroyed = true → s.undispatched = []

instance Looked.decidable (j : Job) : Decidable (Looked j) :=
  inferInstanceAs (Decidable (j.stage = .found ∨ j.stage = .handled))

def Orderly (s : ExternalPort) : PortEvent → Prop
  | .transfer => s.mscount < 2 ^ 32 - 1
  | .receive => s.seqno < 2 ^ 32 - 1
  | .receiveFails _ => False
  | .handle i => ∀ j ∈ s.jobs[i]?, j.stage = .found → j.item = .noSenders s.mscount →
      ∀ k ∈ s.jobs, Looked k
  | _ => True

instance Orderly.decidable (s : ExternalPort) : ∀ e, Decidable (Orderly s e)
  | .transfer => inferInstanceAs (Decidable (s.mscount < 2 ^ 32 - 1))
  | .receive => inferInstanceAs (Decidable (s.seqno < 2 ^ 32 - 1))
  | .receiveFails _ => inferInstanceAs (Decidable False)
  | .handle i => inferInstanceAs (Decidable (∀ j ∈ s.jobs[i]?, j.stage = .found →
      j.item = .noSenders s.mscount → ∀ k ∈ s.jobs, Looked k))
  | .sent | .lost | .copyRight | .dropRight | .post | .reference | .dereference =>
    inferInstanceAs (Decidable True)

variable {s s' : ExternalPort} {e : PortEvent}

theorem Orderly.counted (h : Orderly s e) : Counted s e := by
  cases e <;> first | exact h | exact h.elim | trivial

structure Quiet (s : ExternalPort) : Prop where
  queue : s.queue = []
  senders : s.senders = 0
  inTransit : s.inTransit = 0

def LastWord (s : ExternalPort) (c : ℕ) : Prop :=
  c ≤ s.makeSends ∧ (c = s.makeSends → s.senders = 0 ∧ s.queue = [])

structure Ordered (s : ExternalPort) : Prop where
  counts : s.external = true → s.makeSends + s.inTransit ≤ s.mscount
  bound : s.mscount < 2 ^ 32
  queued : ∀ l c l', s.queue = l ++ .noSenders c :: l' →
    c ≤ s.makeSends ∧ (c = s.makeSends → s.senders = 0 ∧ l' = [])
  pending : ∀ j ∈ s.jobs, ∀ c, j.item = .noSenders c → j.stage ≠ .handled → LastWord s c
  quiet : s.registered = false → Quiet s
  looked : s.registered = false → ∀ j ∈ s.jobs, Looked j
  delivered : s.delivered = range s.seqno
  held : (s.released ++ s.jobs.map Job.seqno).Perm (range s.seqno)
  dispatched : (s.dispatched ++ s.undispatched.map Job.seqno).Perm (range s.seqno)

theorem create_ordered : Ordered create := by
  refine ⟨?_, ?_, ?_, ?_, fun _ => ⟨rfl, rfl, rfl⟩, ?_, rfl, .nil, .nil⟩ <;> simp [create]

theorem LastWord.strict {c : ℕ} (h : LastWord s c) (hs : s.senders ≠ 0 ∨ s.queue ≠ []) :
    c < s.makeSends := by
  refine lt_of_le_of_ne h.1 fun heq => ?_
  obtain ⟨hsenders, hqueue⟩ := h.2 heq
  rcases hs with hs | hs
  · exact hs hsenders
  · exact hs hqueue

namespace Ordered

theorem queued_strict (h : Ordered s) (hs : s.senders ≠ 0) {l l' : List Item} {c : ℕ}
    (hqueue : s.queue = l ++ .noSenders c :: l') : c < s.makeSends := by
  obtain ⟨hle, hlast⟩ := h.queued l c l' hqueue
  exact lt_of_le_of_ne hle fun heq => hs (hlast heq).1

theorem kept (h : Ordered s) : Ordered s.kept :=
  { h with quiet := fun hr => { h.quiet hr with } }

theorem ended (h : Ordered s) (hreg : s.registered = false) : Ordered s.ended where
  counts := fun hx => (nomatch hx)
  bound := h.bound
  queued := by simp [ExternalPort.ended]
  pending := fun j hj c hc hs => ⟨(h.pending j hj c hc hs).1, fun _ => ⟨rfl, rfl⟩⟩
  quiet := fun _ => ⟨rfl, rfl, (h.quiet hreg).inTransit⟩
  looked := fun _ => h.looked hreg
  delivered := h.delivered
  held := h.held
  dispatched := h.dispatched

end Ordered

theorem dereference_calm (hreg : s.registered = (s.external && !s.noSenders))
    (hidle : s.external = false → s.queue = [] ∧ s.senders = 0 ∧ s.request = false)
    (hcalm : s.dereference.suspended = false) :
    s.dereference = s.kept ∨ s.registered = false ∧ s.dereference = s.ended := by
  rw [dereference] at hcalm ⊢
  split_ifs at hcalm ⊢ with hzero hone
  · cases hext : s.external with
    | false =>
      obtain ⟨hqueue, hsenders, hrequest⟩ := hidle hext
      refine Or.inr ⟨by rw [hreg, hext]; rfl, ?_⟩
      simp [destructor, ExternalPort.ended, hqueue, hsenders, hrequest]
    | true =>
      cases hno : s.noSenders with
      | false => simp [destructor, hext, hreg, hno] at hcalm
      | true =>
        refine Or.inr ⟨by rw [hreg, hext, hno]; rfl, ?_⟩
        simp [destructor, ExternalPort.ended, hno]
  · exact Or.inl rfl

theorem Ordered.dereference (h : Ordered s) (hreg : s.registered = (s.external && !s.noSenders))
    (hidle : s.external = false → s.queue = [] ∧ s.senders = 0 ∧ s.request = false)
    (hcalm : s.dereference.suspended = false) : Ordered s.dereference := by
  rcases dereference_calm hreg hidle hcalm with heq | ⟨hr, heq⟩
  · rw [heq]
    exact h.kept
  · rw [heq]
    exact h.ended hr

section Jobs

variable {l l' : List Job} {j : Job}

theorem undispatched_open (hjobs : s.jobs = l ++ j :: l') (hstage : j.stage ≠ .handled) :
    s.undispatched = l.filter (fun j => j.stage ≠ .handled) ++
      j :: l'.filter fun j => j.stage ≠ .handled := by
  rw [undispatched, hjobs, filter_append, filter_cons_of_pos (by simpa using hstage)]

theorem undispatched_handled (hjobs : s.jobs = l ++ j :: l') (hstage : j.stage = .handled) :
    s.undispatched = l.filter (fun j => j.stage ≠ .handled) ++
      l'.filter fun j => j.stage ≠ .handled := by
  rw [undispatched, hjobs, filter_append, filter_cons_of_neg (by simpa using hstage)]

theorem dispatched_perm {numbers : List ℕ} (hjobs : s.jobs = l ++ j :: l')
    (hstage : j.stage = .found) (hjobs' : s'.jobs = l ++ { j with stage := .handled } :: l')
    (h : (s.dispatched ++ s.undispatched.map Job.seqno).Perm numbers) :
    ((s.dispatched ++ [j.seqno]) ++ s'.undispatched.map Job.seqno).Perm numbers := by
  refine Perm.trans ?_ h
  rw [undispatched_open hjobs (by simp [hstage]), undispatched_handled hjobs' rfl,
    append_assoc, map_append, map_append, map_cons,
    singleton_append]
  exact Perm.append_left _ perm_middle.symm

theorem released_perm {numbers released : List ℕ}
    (h : (released ++ (l ++ j :: l').map Job.seqno).Perm numbers) :
    ((released ++ [j.seqno]) ++ (l ++ l').map Job.seqno).Perm numbers := by
  refine Perm.trans ?_ h
  rw [append_assoc, map_append, map_append, map_cons, singleton_append]
  exact Perm.append_left _ perm_middle.symm

end Jobs

namespace Ordered

theorem queued_append (h : Ordered s) (hs : s.senders ≠ 0) {item : Item} {senders : ℕ}
    (hitem : ∀ c, item = .noSenders c → c = s.makeSends ∧ senders = 0) :
    ∀ l c l', s.queue ++ [item] = l ++ .noSenders c :: l' →
      c ≤ s.makeSends ∧ (c = s.makeSends → senders = 0 ∧ l' = []) := by
  intro l c l' heq
  rcases eq_nil_or_concat l' with rfl | ⟨l₁, x, rfl⟩
  · obtain ⟨-, hlast⟩ := append_inj' heq rfl
    obtain ⟨hc, hsenders⟩ := hitem c (head_eq_of_cons_eq hlast)
    exact ⟨hc.le, fun _ => ⟨hsenders, rfl⟩⟩
  · rw [concat_eq_append, ← cons_append, ← append_assoc] at heq
    obtain ⟨hqueue, -⟩ := append_inj' heq rfl
    have hlt := h.queued_strict hs hqueue
    exact ⟨hlt.le, fun hc => absurd hc hlt.ne⟩

theorem stage {l l' : List Job} {j : Job} (h : Ordered s) (hjobs : s.jobs = l ++ j :: l')
    (hstage : j.stage = .found) :
    Ordered { s with
      jobs := l ++ { j with stage := .handled } :: l'
      dispatched := s.dispatched ++ [j.seqno] } := by
  have hpending := h.pending
  have hlooked := h.looked
  have hheld := h.held
  rw [hjobs] at hpending hlooked hheld
  refine { h with
    pending := forall_mem_stage hpending fun _ _ hs => absurd rfl hs
    quiet := fun hr => { h.quiet hr with }
    looked := fun hr => forall_mem_stage (hlooked hr) (Or.inr rfl)
    held := ?_
    dispatched := dispatched_perm hjobs hstage rfl h.dispatched }
  rw [map_seqno_stage]
  exact hheld

section

variable (h : Ordered s) (hl : Ledger 0 s)

include h hl

theorem next (he : Effect s e s') (ho : Orderly s e) (hl' : Ledger 0 s') : Ordered s' := by
  have hbound := h.bound
  cases he with
  | first hext hlocal =>
    have hreg : s.registered = false := by rw [hl.registered, hext]; rfl
    obtain ⟨-, hjobs, hrel, hdel, hdis, -⟩ := hl.unused hext (destroyed_of_local hl hlocal)
    have htransit := (h.quiet hreg).inTransit
    refine ⟨fun _ => by simp [htransit], by simp, by simp, by simp [hjobs], fun hr => (nomatch hr),
      by simp [hjobs], by simp [hdel], by simp [hrel, hjobs], by simp [undispatched, hdis, hjobs]⟩
  | again hext hno =>
    have hadd : Word.add s.mscount 1 = s.mscount + 1 := Word.add_of_lt (by
      simp only [Orderly] at ho
      omega)
    have hcounts := h.counts hext
    have hreg : s.registered = true := by rw [hl.registered, hext, hno]; rfl
    refine { h with
      counts := fun _ => by simp only; omega
      bound := by simp only [Orderly] at ho; simp only; omega
      quiet := fun hr => absurd (hreg.symm.trans hr) (by decide) }
  | revive hext hno =>
    have hadd : Word.add s.mscount 1 = s.mscount + 1 := Word.add_of_lt (by
      simp only [Orderly] at ho
      omega)
    have hcounts := h.counts hext
    exact { h with
      counts := fun _ => by simp only; omega
      bound := by simp only [Orderly] at ho; simp only; omega
      quiet := fun hr => (nomatch hr)
      looked := fun hr => (nomatch hr) }
  | sent htransit hext =>
    have hcounts := h.counts hext
    have hadd : Word.add s.makeSends 1 = s.makeSends + 1 := Word.add_of_lt (by omega)
    refine { h with
      counts := fun _ => by simp only; omega
      queued := fun l c l' hqueue => ?_
      pending := fun j hj c hc hs => ?_
      quiet := fun hr => absurd (h.quiet hr).inTransit htransit }
    · have hle := (h.queued l c l' hqueue).1
      exact ⟨by simp only; omega, fun hc => by simp only at hc; omega⟩
    · have hle := (h.pending j hj c hc hs).1
      exact ⟨by simp only; omega, fun hc => by simp only at hc; omega⟩
  | lost htransit =>
    refine { h with
      counts := fun hx => ?_
      quiet := fun hr => absurd (h.quiet hr).inTransit htransit }
    have hcounts := h.counts hx
    simp only
    omega
  | copyRight hsenders =>
    refine { h with
      queued := fun l c l' hqueue => ?_
      pending := fun j hj c hc hs => ?_
      quiet := fun hr => absurd (h.quiet hr).senders hsenders }
    · have hlt := h.queued_strict hsenders hqueue
      exact ⟨hlt.le, fun hc => absurd hc hlt.ne⟩
    · have hlt := (h.pending j hj c hc hs).strict (Or.inl hsenders)
      exact ⟨hlt.le, fun hc => absurd hc hlt.ne⟩
  | dropRight hsenders hquiet =>
    refine { h with
      queued := fun l c l' hqueue => ?_
      pending := fun j hj c hc hs => ?_
      quiet := fun hr => absurd (h.quiet hr).senders hsenders }
    · have hlt := h.queued_strict hsenders hqueue
      exact ⟨hlt.le, fun hc => absurd hc hlt.ne⟩
    · have hlt := (h.pending j hj c hc hs).strict (Or.inl hsenders)
      exact ⟨hlt.le, fun hc => absurd hc hlt.ne⟩
  | lastRight hsenders hrequest =>
    have hs : s.senders ≠ 0 := by omega
    refine { h with
      queued := h.queued_append hs fun c hc => ⟨(Item.noSenders.inj hc).symm, rfl⟩
      pending := fun j hj c hc hopen => ?_
      quiet := fun hr => absurd (h.quiet hr).senders hs }
    have hlt := (h.pending j hj c hc hopen).strict (Or.inl hs)
    exact ⟨hlt.le, fun hc => absurd hc hlt.ne⟩
  | post hsenders =>
    refine { h with
      queued := h.queued_append hsenders fun c hc => (nomatch hc)
      pending := fun j hj c hc hopen => ?_
      quiet := fun hr => absurd (h.quiet hr).senders hsenders }
    have hlt := (h.pending j hj c hc hopen).strict (Or.inl hsenders)
    exact ⟨hlt.le, fun hc => absurd hc hlt.ne⟩
  | @receive item rest hqueue =>
    have hne : s.queue ≠ [] := by simp [hqueue]
    have hreg : s.registered = true := by
      cases hr : s.registered with
      | true => rfl
      | false => exact absurd (h.quiet hr).queue hne
    refine { h with
      queued := fun l c l' heq => ?_
      pending := fun j hj c hc hopen => ?_
      quiet := fun hr => absurd (hreg.symm.trans hr) (by decide)
      looked := fun hr => absurd (hreg.symm.trans hr) (by decide)
      delivered := ?_
      held := ?_
      dispatched := ?_ }
    · exact h.queued (item :: l) c l' (by rw [hqueue, cons_append]; exact congrArg _ heq)
    · rcases mem_append.mp hj with hj | hj
      · have hlt := (h.pending j hj c hc hopen).strict (Or.inr hne)
        exact ⟨hlt.le, fun hc => absurd hc hlt.ne⟩
      · obtain rfl := mem_singleton.mp hj
        obtain rfl : item = .noSenders c := hc
        exact h.queued [] c rest hqueue
    · simp only [h.delivered, range_succ]
    · simp only [map_append, map_singleton, range_succ, ← append_assoc]
      exact h.held.append_right _
    · simp only [undispatched, filter_append, map_append, range_succ, ← append_assoc]
      exact h.dispatched.append_right _
  | receiveFails a hqueue => exact ho.elim
  | @found l l' j hjobs hstage hreg =>
    have hpending := h.pending
    have hheld := h.held
    have hdispatched := h.dispatched
    have hopen : j.stage ≠ .handled := fun hs => hstage (Or.inr hs)
    rw [undispatched_open hjobs hopen] at hdispatched
    rw [hjobs] at hpending hheld
    refine { h with
      pending := forall_mem_stage hpending fun c hc _ => hpending j (by simp) c hc hopen
      quiet := fun hr => absurd (hreg.symm.trans hr) (by decide)
      looked := fun hr => absurd (hreg.symm.trans hr) (by decide)
      held := by rw [map_seqno_stage]; exact hheld
      dispatched := ?_ }
    rw [undispatched_open rfl (by simp)]
    simpa using hdispatched
  | @retry l l' j hjobs hstage hreg =>
    have hlooked := h.looked hreg j (by simp [hjobs])
    simp [Looked, hstage] at hlooked
  | @unknown l l' j hjobs hstage hreg =>
    have hlooked := h.looked hreg j (by simp [hjobs])
    simp [Looked, hstage] at hlooked
  | invoke hjobs hstage hitem => exact h.stage hjobs hstage
  | repeated hjobs hstage hitem hreg =>
    have hstep := h.stage hjobs hstage
    exact { hstep with quiet := fun hr => { hstep.quiet hr with } }
  | @unexport l l' j hjobs hstage hitem hreg =>
    have hext : s.external = true := by
      have hr := hl.registered
      rw [hreg] at hr
      simpa using (Bool.and_eq_true_iff.mp hr.symm).1
    have hmem : j ∈ s.jobs := by simp [hjobs]
    have hcounts := h.counts hext
    have hlast := h.pending j hmem _ hitem (by simp [hstage])
    have hmade : s.mscount = s.makeSends := by
      have := hlast.1
      omega
    obtain ⟨hsenders, hqueue⟩ := hlast.2 hmade
    have hlooked : ∀ k ∈ l ++ j :: l', Looked k := by
      rw [← hjobs]
      exact ho j (by simp [hjobs]) hstage hitem
    have hstep := h.stage hjobs hstage
    refine Ordered.dereference ?_ (by simp) (fun hx => absurd (hext.symm.trans hx) (by decide))
      hl'.calm.1
    exact { hstep with
      quiet := fun _ => ⟨hqueue, hsenders, by simp only; omega⟩
      looked := fun _ => forall_mem_stage hlooked (Or.inr rfl) }
  | @release l l' j hjobs hstage =>
    have hpending := h.pending
    have hlooked := h.looked
    have hheld := h.held
    have hdispatched := h.dispatched
    rw [undispatched_handled hjobs hstage] at hdispatched
    rw [hjobs] at hpending hlooked hheld
    refine Ordered.dereference ?_ hl.registered hl.idle hl'.calm.1
    exact { h with
      pending := forall_mem_erase hpending
      quiet := fun hr => { h.quiet hr with }
      looked := fun hr => forall_mem_erase (hlooked hr)
      held := released_perm hheld
      dispatched := by
        rw [undispatched, filter_append]
        exact hdispatched }
  | reference hlocal => exact { h with quiet := fun hr => { h.quiet hr with } }
  | dereference hlocal =>
    refine Ordered.dereference ?_ hl.registered hl.idle hl'.calm.1
    exact { h with quiet := fun hr => { h.quiet hr with } }

theorem released_covered : (s.released ++ s.covered.map Job.seqno).Perm (range s.nextSeqno) := by
  have hfilter := h.held.filter fun n => n < s.nextSeqno
  have hpast : s.released.filter (fun n => n < s.nextSeqno) = s.released :=
    filter_eq_self.mpr fun n hn => by simpa using hl.past n hn
  rw [filter_append, hpast, filter_map] at hfilter
  refine hfilter.trans ?_
  rw [perm_ext_iff_of_nodup (nodup_range.filter _) nodup_range]
  intro n
  have horder := hl.order
  simp only [mem_filter, mem_range, decide_eq_true_eq]
  omega

theorem serviced : Serviced s where
  delivered := by
    rw [h.delivered]
    exact nodup_range
  dispatched := by
    rw [h.delivered]
    exact h.dispatched
  findable := by
    intro j hj hnot
    cases hr : s.registered with
    | true => rfl
    | false => exact absurd (h.looked hr j hj) hnot
  released := h.released_covered hl
  refs := hl.refs
  destroyed := by
    intro hd
    have hreg : s.registered = false := by rw [hl.registered, (hl.destroyed hd).2]; rfl
    rw [undispatched, filter_eq_nil_iff]
    intro j hj
    exact absurd (hd.symm.trans (hl.looked_alive hj (h.looked hreg j hj))) (by decide)

end

end Ordered

theorem messages_dispatched_once
    (hrun : ReflTransGen (Under next Orderly) create s) : Serviced s := by
  have hinv : Ledger 0 s ∧ Ordered s := by
    refine invariant (I := fun s => Ledger 0 s ∧ Ordered s)
      (fun x e y hx ho hy => ?_) hrun ⟨Ledger.create, create_ordered⟩
    have he := hx.1.effect ho.counted hy
    have hl := hx.1.next he ho.counted
    exact ⟨hl, hx.2.next hx.1 he ho hl⟩
  exact hinv.2.serviced hinv.1

def crossed : List PortEvent :=
  [.transfer, .sent, .copyRight, .post, .dropRight, .post, .dropRight, .receive, .receive,
    .receive, .handle 1, .handle 2, .handle 0, .handle 2, .handle 2, .handle 0, .handle 1]

theorem messages_dispatched_once_crossed :
    ∃ s, ReflTransGen (Under next Orderly) create s ∧ s.dispatched = [2, 0, 1] ∧
      s.noSenders = true ∧ Serviced s := by
  obtain ⟨s, hexec, htest⟩ := exec_of_check
    (show check next create crossed
      (fun s => s.dispatched == [2, 0, 1] && s.noSenders) = true by decide +kernel)
  have hrun := run_of_exec (P := Orderly) (by decide +kernel) hexec
  rw [Bool.and_eq_true, beq_iff_eq] at htest
  exact ⟨s, hrun, htest.1, htest.2, messages_dispatched_once hrun⟩

def overtaken : List PortEvent :=
  [.transfer, .sent, .post, .dropRight, .receive, .receive, .handle 1, .handle 1, .handle 1,
    .handle 0, .handle 0]

theorem overtaken_message_dropped :
    ∃ s, ReflTransGen (Under next Free) create s ∧ s.destroyed = false ∧
      s.delivered = [0, 1] ∧ s.dispatched = [1] ∧ s.jobs = [] ∧ ¬Serviced s := by
  obtain ⟨s, hexec, htest⟩ := exec_of_check
    (show check next create overtaken
      (fun s => !s.destroyed && (s.delivered == [0, 1] && (s.dispatched == [1] && s.jobs == [])))
      = true by decide +kernel)
  have hrun := run_of_exec (free_admits create overtaken) hexec
  simp only [Bool.and_eq_true, beq_iff_eq, Bool.not_eq_true'] at htest
  obtain ⟨hd, hdelivered, hdispatched, hjobs⟩ := htest
  refine ⟨s, hrun, hd, hdelivered, hdispatched, hjobs, fun h => ?_⟩
  have hlen := h.dispatched.length_eq
  simp [undispatched, hdelivered, hdispatched, hjobs] at hlen

end ExternalPort

end MachUS.Rpc
