import MachUS.Rpc.ExternalPort

namespace MachUS.Rpc

open List ExternalPort Nat Word

namespace Answer

theorem receiveError_eq_false (a : Answer) : a.receiveError = false := by
  have hlt : errGetSystem a.ret < errMachIpc := by
    have hmod : errGetSystem a.ret < 64 := Int.emod_lt_of_pos _ (by decide)
    exact hmod.trans (by decide)
  rw [receiveError, decide_eq_false hlt.ne, Bool.false_and]

end Answer

namespace ExternalPort

theorem seqnoLoop_eq {seqno : ℕ} (hseq : seqno < 2 ^ 32 - 1) (k n : ℕ) (hk : k < n)
    (s : ExternalPort) (hs : s.nextSeqno + k = seqno + 1) :
    seqnoLoop n seqno s = some { s with refCnt := s.refCnt + k, nextSeqno := seqno + 1 } := by
  induction k generalizing n s with
  | zero =>
    obtain ⟨n, rfl⟩ := exists_eq_succ_of_ne_zero hk.ne_bot
    have hnext : s.nextSeqno = seqno + 1 := hs
    rw [seqnoLoop, if_neg (by omega), ← hnext]
    rfl
  | succ k ih =>
    obtain ⟨n, rfl⟩ := exists_eq_succ_of_ne_zero (ne_zero_of_lt hk)
    have hadd : add s.nextSeqno 1 = s.nextSeqno + 1 := add_of_lt (by omega)
    rw [seqnoLoop, if_pos (by omega), hadd, ih n (by omega) _ (by simp only; omega)]
    simp only [Option.some.injEq]
    congr 1
    omega

theorem referenceWithSeqno_eq {seqno : ℕ} (hseq : seqno < 2 ^ 32 - 1) (s : ExternalPort) :
    s.referenceWithSeqno seqno =
      { s with
        refCnt := s.refCnt + (seqno + 1 - s.nextSeqno)
        nextSeqno := max s.nextSeqno (seqno + 1) } := by
  rw [referenceWithSeqno]
  rcases Nat.lt_or_ge seqno s.nextSeqno with hlt | hge
  · rw [seqnoLoop, if_neg (by omega), max_eq_left (by omega), Nat.sub_eq_zero_of_le (by omega)]
    rfl
  · rw [seqnoLoop_eq hseq (seqno + 1 - s.nextSeqno) (2 ^ 32 + 1) (by omega) s (by omega),
      max_eq_right (by omega)]

def Looked (j : Job) : Prop := j.stage = .found ∨ j.stage = .handled

structure Ledger (extra : ℕ) (s : ExternalPort) : Prop where
  registered : s.registered = (s.external && !s.noSenders)
  tableRefs : s.tableRefs = s.registered.toNat
  refs : s.refCnt + s.released.length = s.locals + s.tableRefs + s.nextSeqno + extra
  distinct : (s.released ++ s.jobs.map Job.seqno).Nodup
  numbered : ∀ j ∈ s.jobs, j.seqno < s.seqno
  past : ∀ n ∈ s.released, n < s.nextSeqno
  looked : ∀ j ∈ s.jobs, Looked j → j.seqno < s.nextSeqno
  order : s.nextSeqno ≤ s.seqno
  bound : s.seqno < 2 ^ 32
  destroyed : s.destroyed = true → s.refCnt = 0 ∧ s.external = false
  alive : s.destroyed = false → 0 < s.refCnt
  calm : s.suspended = false ∧ s.endless = false
  idle : s.external = false → s.queue = [] ∧ s.senders = 0 ∧ s.request = false
  unused : s.external = false → s.destroyed = false →
    s.seqno = 0 ∧ s.jobs = [] ∧ s.released = [] ∧ s.delivered = [] ∧ s.dispatched = [] ∧
      s.noSenders = false

def ended (s : ExternalPort) : ExternalPort :=
  { s with
    refCnt := 0
    destroyed := true
    external := false
    queue := []
    senders := 0
    request := false }

def kept (s : ExternalPort) : ExternalPort := { s with refCnt := s.refCnt - 1 }

namespace Ledger

variable {s : ExternalPort} {extra : ℕ}

theorem create : Ledger 0 create := by
  refine ⟨rfl, rfl, rfl, .nil, ?_, ?_, ?_, ?_, ?_, ?_, ?_, ?_, ?_, ?_⟩ <;>
    simp [ExternalPort.create]

theorem released_le (h : Ledger extra s) : s.released.length ≤ s.nextSeqno := by
  have hsub : s.released ⊆ range s.nextSeqno := fun n hn => mem_range.mpr (h.past n hn)
  have hnodup := h.distinct.sublist (sublist_append_left _ _)
  simpa using (hnodup.subperm hsub).length_le

theorem dereference_cases (h : Ledger 1 s) (hd : s.destroyed = false) :
    1 < s.refCnt ∧ s.dereference = s.kept ∨
      s.refCnt = 1 ∧ s.registered = false ∧ s.locals = 0 ∧ s.dereference = s.ended := by
  have hpos := h.alive hd
  have hle := h.released_le
  have hrefs := h.refs
  have htable := h.tableRefs
  rw [dereference, if_neg hpos.ne']
  by_cases hone : s.refCnt = 1
  · rw [if_pos hone]
    have hzero : s.registered.toNat = 0 := by omega
    have hreg : s.registered = false := by
      cases hr : s.registered
      · rfl
      · rw [hr] at hzero
        cases hzero
    refine Or.inr ⟨hone, hreg, by omega, ?_⟩
    have hidle := h.idle
    cases hext : s.external with
    | false =>
      obtain ⟨hqueue, hsenders, hrequest⟩ := hidle hext
      simp [destructor, ended, hqueue, hsenders, hrequest]
    | true => simp [destructor, ended, hreg]
  · rw [if_neg hone]
    exact Or.inl ⟨by omega, rfl⟩

theorem kept (h : Ledger 1 s) (hlt : 1 < s.refCnt) : Ledger 0 s.kept := by
  have hrefs := h.refs
  refine { h with refs := ?_, destroyed := fun hd => ?_, alive := fun _ => ?_ }
  · simp only [ExternalPort.kept]
    omega
  · have hzero := (h.destroyed hd).1
    omega
  · simp only [ExternalPort.kept]
    omega

theorem ended (h : Ledger 1 s) (hone : s.refCnt = 1) (hreg : s.registered = false) :
    Ledger 0 s.ended := by
  have hrefs := h.refs
  refine { h with
    registered := ?_, refs := ?_, destroyed := fun _ => ⟨rfl, rfl⟩, alive := fun hd => (nomatch hd),
    idle := fun _ => ⟨rfl, rfl, rfl⟩, unused := fun _ hd => (nomatch hd) }
  · exact hreg
  · simp only [ExternalPort.ended]
    omega

theorem dereference (h : Ledger 1 s) (hd : s.destroyed = false) : Ledger 0 s.dereference := by
  rcases h.dereference_cases hd with ⟨hlt, heq⟩ | ⟨hone, hreg, -, heq⟩
  · rw [heq]
    exact h.kept hlt
  · rw [heq]
    exact h.ended hone hreg

end Ledger

def Counted (s : ExternalPort) : PortEvent → Prop
  | .receive => s.seqno < 2 ^ 32 - 1
  | .receiveFails _ => s.seqno < 2 ^ 32 - 1
  | _ => True

inductive Effect (s : ExternalPort) : PortEvent → ExternalPort → Prop where
  | first (hext : s.external = false) (hlocal : s.locals ≠ 0) :
    Effect s .transfer
      { s with
        external := true
        queue := []
        seqno := 0
        makeSends := 0
        senders := 0
        request := true
        registered := true
        refCnt := s.refCnt + 1
        tableRefs := s.tableRefs + 1
        mscount := 1
        nextSeqno := 0
        noSenders := false
        inTransit := s.inTransit + 1 }
  | again (hext : s.external = true) (hno : s.noSenders = false) :
    Effect s .transfer
      { s with mscount := add s.mscount 1, inTransit := s.inTransit + 1 }
  | revive (hext : s.external = true) (hno : s.noSenders = true) :
    Effect s .transfer
      { s with
        mscount := add s.mscount 1
        inTransit := s.inTransit + 1
        noSenders := false
        registered := true
        refCnt := s.refCnt + 1
        tableRefs := s.tableRefs + 1 }
  | sent (htransit : s.inTransit ≠ 0) (hext : s.external = true) :
    Effect s .sent
      { s with
        inTransit := s.inTransit - 1
        makeSends := add s.makeSends 1
        senders := s.senders + 1 }
  | lost (htransit : s.inTransit ≠ 0) :
    Effect s .lost { s with inTransit := s.inTransit - 1 }
  | copyRight (hsenders : s.senders ≠ 0) :
    Effect s .copyRight { s with senders := s.senders + 1 }
  | dropRight (hsenders : s.senders ≠ 0)
    (hquiet : ¬(s.senders = 1 ∧ s.request = true ∧ 1 ≤ s.makeSends)) :
    Effect s .dropRight { s with senders := s.senders - 1 }
  | lastRight (hsenders : s.senders = 1) (hrequest : s.request = true) :
    Effect s .dropRight
      { s with senders := 0, request := false, queue := s.queue ++ [.noSenders s.makeSends] }
  | post (hsenders : s.senders ≠ 0) : Effect s .post { s with queue := s.queue ++ [.message] }
  | receive {item : Item} {rest : List Item} (hqueue : s.queue = item :: rest) :
    Effect s .receive
      { s with
        queue := rest
        seqno := s.seqno + 1
        jobs := s.jobs ++ [⟨item, s.seqno, .received⟩]
        delivered := s.delivered ++ [s.seqno] }
  | receiveFails {rest : List Item} (a : Answer) (hqueue : s.queue = .message :: rest) :
    Effect s (.receiveFails a) { s with queue := rest, seqno := s.seqno + 1 }
  | found {l l' : List Job} {j : Job} (hjobs : s.jobs = l ++ j :: l')
    (hstage : ¬Looked j) (hreg : s.registered = true) :
    Effect s (.handle l.length)
      { s with
        refCnt := s.refCnt + (j.seqno + 1 - s.nextSeqno)
        nextSeqno := max s.nextSeqno (j.seqno + 1)
        jobs := l ++ { j with stage := .found } :: l' }
  | retry {l l' : List Job} {j : Job} (hjobs : s.jobs = l ++ j :: l')
    (hstage : j.stage = .received) (hreg : s.registered = false) :
    Effect s (.handle l.length) { s with jobs := l ++ { j with stage := .retrying } :: l' }
  | unknown {l l' : List Job} {j : Job} (hjobs : s.jobs = l ++ j :: l')
    (hstage : j.stage = .retrying) (hreg : s.registered = false) :
    Effect s (.handle l.length) { s with jobs := l ++ l' }
  | invoke {l l' : List Job} {j : Job} (hjobs : s.jobs = l ++ j :: l')
    (hstage : j.stage = .found) (hitem : ∀ c, j.item = .noSenders c → c ≠ s.mscount) :
    Effect s (.handle l.length)
      { s with
        jobs := l ++ { j with stage := .handled } :: l'
        dispatched := s.dispatched ++ [j.seqno] }
  | repeated {l l' : List Job} {j : Job} (hjobs : s.jobs = l ++ j :: l')
    (hstage : j.stage = .found) (hitem : j.item = .noSenders s.mscount)
    (hreg : s.registered = false) :
    Effect s (.handle l.length)
      { s with
        jobs := l ++ { j with stage := .handled } :: l'
        dispatched := s.dispatched ++ [j.seqno]
        noSenders := true }
  | unexport {l l' : List Job} {j : Job} (hjobs : s.jobs = l ++ j :: l')
    (hstage : j.stage = .found) (hitem : j.item = .noSenders s.mscount)
    (hreg : s.registered = true) :
    Effect s (.handle l.length)
      (dereference
        { s with
          jobs := l ++ { j with stage := .handled } :: l'
          dispatched := s.dispatched ++ [j.seqno]
          noSenders := true
          registered := false
          tableRefs := s.tableRefs - 1 })
  | release {l l' : List Job} {j : Job} (hjobs : s.jobs = l ++ j :: l')
    (hstage : j.stage = .handled) :
    Effect s (.handle l.length)
      (dereference
        { s with jobs := l ++ l', released := s.released ++ [j.seqno] })
  | reference (hlocal : s.locals ≠ 0) :
    Effect s .reference { s with locals := s.locals + 1, refCnt := s.refCnt + 1 }
  | dereference (hlocal : s.locals ≠ 0) :
    Effect s .dereference (dereference { s with locals := s.locals - 1 })

variable {s : ExternalPort} {j : Job}

theorem handle_effect (hbound : s.seqno < 2 ^ 32)
    (hnum : ∀ j ∈ s.jobs, j.seqno < s.seqno) {i : ℕ} (hj : s.jobs[i]? = some j) :
    Effect s (.handle i) (s.handle i j) := by
  obtain ⟨l, l', hjobs, rfl⟩ : ∃ l l', s.jobs = l ++ j :: l' ∧ l.length = i := by
    obtain ⟨hi, rfl⟩ := List.getElem?_eq_some_iff.mp hj
    exact ⟨s.jobs.take i, s.jobs.drop (i + 1), by simp, by simp [hi.le]⟩
  have hset (j' : Job) : s.jobs.set l.length j' = l ++ j' :: l' := by simp [hjobs]
  have herase : s.jobs.eraseIdx l.length = l ++ l' := by simp [hjobs, eraseIdx_append]
  have hseq : j.seqno < 2 ^ 32 - 1 := by
    have := hnum j (by simp [hjobs])
    omega
  obtain ⟨item, seqno, stage⟩ := j
  cases stage with
  | received =>
    simp only [handle, lookup, hset, referenceWithSeqno_eq hseq]
    split_ifs with hreg
    · exact .found hjobs (by simp [Looked]) hreg
    · exact .retry hjobs rfl (by simpa using hreg)
  | retrying =>
    simp only [handle, lookup, hset, herase, referenceWithSeqno_eq hseq]
    split_ifs with hreg
    · exact .found hjobs (by simp [Looked]) hreg
    · exact .unknown hjobs rfl (by simpa using hreg)
  | found =>
    simp only [handle, dispatch, hset]
    cases item with
    | message => exact .invoke hjobs rfl (by simp)
    | noSenders c =>
      simp only [noRemoteSenders]
      split_ifs with hc
      · subst hc
        simp only [deregisterExternalPort]
        split_ifs with hreg
        · exact .unexport hjobs rfl rfl hreg
        · exact .repeated hjobs rfl rfl (by simpa using hreg)
      · exact .invoke hjobs rfl (by simpa using hc)
  | handled =>
    simp only [handle, release, herase]
    exact .release hjobs rfl

theorem Ledger.effect {s s' : ExternalPort} {e : PortEvent} (h : Ledger 0 s) (he : Counted s e)
    (hs' : s.next e = some s') : Effect s e s' := by
  have hbound := h.bound
  rw [next, if_neg (by simp [h.calm])] at hs'
  cases e with
  | transfer =>
    simp only [move, Option.ite_none_left_eq_some, Option.some.injEq] at hs'
    obtain ⟨hlocal, rfl⟩ := hs'
    simp only [getTransferPort]
    split_ifs with hext hno
    · exact .revive hext hno
    · exact .again hext (by simpa using hno)
    · exact .first (by simpa using hext) hlocal
  | sent =>
    simp only [move, Option.ite_none_left_eq_some, Option.some.injEq, not_or] at hs'
    obtain ⟨⟨htransit, hext⟩, rfl⟩ := hs'
    exact .sent htransit (by simpa using hext)
  | lost =>
    simp only [move, Option.ite_none_left_eq_some, Option.some.injEq] at hs'
    obtain ⟨htransit, rfl⟩ := hs'
    exact .lost htransit
  | copyRight =>
    simp only [move, Option.ite_none_left_eq_some, Option.some.injEq] at hs'
    obtain ⟨hsenders, rfl⟩ := hs'
    exact .copyRight hsenders
  | dropRight =>
    simp only [move, Option.ite_none_left_eq_some, Option.some.injEq] at hs'
    obtain ⟨hsenders, rfl⟩ := hs'
    rw [dropRight]
    have hone : s.senders - 1 = 0 ↔ s.senders = 1 := by omega
    split_ifs with hlast
    · have hzero : s.senders - 1 = 0 := hlast.1
      simp only [hzero]
      exact .lastRight (hone.mp hzero) hlast.2.1
    · exact .dropRight hsenders fun hc => hlast ⟨hone.mpr hc.1, hc.2⟩
  | post =>
    simp only [move, Option.ite_none_left_eq_some, Option.some.injEq] at hs'
    obtain ⟨hsenders, rfl⟩ := hs'
    exact .post hsenders
  | receive =>
    have hadd : add s.seqno 1 = s.seqno + 1 := add_of_lt (by simp only [Counted] at he; omega)
    simp only [move] at hs'
    split at hs'
    · cases hs'
    · cases hs'
      simp only [receive, hadd]
      exact .receive ‹_›
  | receiveFails a =>
    have hadd : add s.seqno 1 = s.seqno + 1 := add_of_lt (by simp only [Counted] at he; omega)
    simp only [move] at hs'
    split at hs'
    · cases hs'
      simp only [receiveFails, a.receiveError_eq_false, hadd]
      exact .receiveFails a ‹_›
    · cases hs'
  | handle i =>
    simp only [move, Option.map_eq_some_iff] at hs'
    obtain ⟨j, hj, rfl⟩ := hs'
    exact handle_effect hbound h.numbered hj
  | reference =>
    simp only [move, Option.ite_none_left_eq_some, Option.some.injEq] at hs'
    obtain ⟨hlocal, rfl⟩ := hs'
    exact .reference hlocal
  | dereference =>
    simp only [move, Option.ite_none_left_eq_some, Option.some.injEq] at hs'
    obtain ⟨hlocal, rfl⟩ := hs'
    exact .dereference hlocal

theorem destroyed_of_local (h : Ledger 0 s) (hlocal : s.locals ≠ 0) : s.destroyed = false := by
  cases hd : s.destroyed with
  | false => rfl
  | true =>
    have hrefs := h.refs
    have hle := h.released_le
    have hzero := (h.destroyed hd).1
    omega

theorem destroyed_of_external {extra : ℕ} (h : Ledger extra s)
    (hext : s.external = true) : s.destroyed = false := by
  cases hd : s.destroyed with
  | false => rfl
  | true => rw [(h.destroyed hd).2] at hext; cases hext

theorem Ledger.looked_alive (h : Ledger 0 s) (hj : j ∈ s.jobs)
    (hl : Looked j) : s.destroyed = false := by
  cases hd : s.destroyed with
  | false => rfl
  | true =>
    have hrefs := h.refs
    have hzero := (h.destroyed hd).1
    have hsub : j.seqno :: s.released ⊆ range s.nextSeqno := by
      intro n hn
      rcases mem_cons.mp hn with rfl | hn
      · exact mem_range.mpr (h.looked j hj hl)
      · exact mem_range.mpr (h.past n hn)
    have hnodup : (j.seqno :: s.released).Nodup := by
      have hd' := h.distinct
      rw [nodup_append] at hd'
      exact nodup_cons.mpr ⟨fun hmem => hd'.2.2 _ hmem _ (mem_map_of_mem hj) rfl, hd'.1⟩
    have hlen := (hnodup.subperm hsub).length_le
    simp at hlen
    omega

theorem map_seqno_stage (l l' : List Job) (j : Job) (stage : Stage) :
    (l ++ { j with stage := stage } :: l').map Job.seqno = (l ++ j :: l').map Job.seqno := by
  simp

variable {l l' : List Job}

theorem forall_mem_stage {stage : Stage} {P : Job → Prop}
    (h : ∀ i ∈ l ++ j :: l', P i) (hj : P { j with stage := stage }) :
    ∀ i ∈ l ++ { j with stage := stage } :: l', P i := by
  intro i hi
  rcases mem_append.mp hi with hi | hi
  · exact h i (mem_append_left _ hi)
  · rcases mem_cons.mp hi with rfl | hi
    · exact hj
    · exact h i (by simp [hi])

theorem forall_mem_erase {P : Job → Prop} (h : ∀ i ∈ l ++ j :: l', P i) : ∀ i ∈ l ++ l', P i := by
  intro i hi
  rcases mem_append.mp hi with hi | hi
  · exact h i (mem_append_left _ hi)
  · exact h i (by simp [hi])

theorem Ledger.stage (h : Ledger 0 s)
    (hjobs : s.jobs = l ++ j :: l') (hj : Looked j) (stage : Stage) (dispatched : List ℕ) :
    Ledger 0 { s with jobs := l ++ { j with stage := stage } :: l', dispatched := dispatched } := by
  have hnum := h.numbered
  have hlook := h.looked
  have hdist := h.distinct
  rw [hjobs] at hnum hlook hdist
  refine { h with
    distinct := ?_, numbered := forall_mem_stage hnum (hnum j (by simp)),
    looked := forall_mem_stage hlook fun _ => hlook j (by simp) hj,
    unused := fun hx hd => absurd (h.unused hx hd).2.1 (by simp [hjobs]) }
  rw [map_seqno_stage]
  exact hdist

theorem Ledger.next {s s' : ExternalPort} {e : PortEvent} (h : Ledger 0 s)
    (he : Effect s e s') (hc : Counted s e) : Ledger 0 s' := by
  have hrefs := h.refs
  cases he with
  | first hext hlocal =>
    have hd := destroyed_of_local h hlocal
    obtain ⟨hseq, hjobs, hrel, -, -, -⟩ := h.unused hext hd
    have hreg : s.registered = false := by rw [h.registered, hext]; rfl
    have htable := h.tableRefs
    have horder := h.order
    rw [hreg] at htable
    rw [hrel] at hrefs
    refine ⟨rfl, by simp [htable], ?_, by simp [hjobs, hrel], by simp [hjobs], by simp [hrel],
      by simp [hjobs], le_refl _, by simp, ?_, fun _ => succ_pos _, h.calm,
      fun hx => (nomatch hx), fun hx => (nomatch hx)⟩
    · simp only [hrel, length_nil] at hrefs ⊢
      omega
    · intro hx
      simp [hd] at hx
  | again hext hno => exact { h with }
  | revive hext hno =>
    have hreg : s.registered = false := by rw [h.registered, hno, hext]; rfl
    have htable := h.tableRefs
    rw [hreg] at htable
    have hd := destroyed_of_external h hext
    refine { h with
      registered := by simp [hext], tableRefs := by simp [htable], refs := ?_,
      destroyed := fun hx => absurd (hd.symm.trans hx) (by decide), alive := fun _ => succ_pos _,
      unused := fun hx => absurd (hext.symm.trans hx) (by decide) }
    simp only
    omega
  | sent htransit hext =>
    exact { h with idle := fun hx => absurd (hext.symm.trans hx) (by decide) }
  | lost htransit => exact { h with }
  | copyRight hsenders =>
    exact { h with idle := fun hx => absurd (h.idle hx).2.1 hsenders }
  | dropRight hsenders hquiet =>
    exact { h with idle := fun hx => absurd (h.idle hx).2.1 hsenders }
  | lastRight hsenders hrequest =>
    exact { h with idle := fun hx => absurd (h.idle hx).2.1 (by omega) }
  | post hsenders =>
    exact { h with idle := fun hx => absurd (h.idle hx).2.1 hsenders }
  | @receive item rest hqueue =>
    have hext : s.external ≠ false := by
      intro hx
      rw [(h.idle hx).1] at hqueue
      cases hqueue
    have hnot : s.seqno ∉ s.released ++ s.jobs.map Job.seqno := by
      intro hmem
      rcases mem_append.mp hmem with hmem | hmem
      · exact absurd (h.past _ hmem) (not_lt.mpr h.order)
      · obtain ⟨j, hj, heq⟩ := mem_map.mp hmem
        exact absurd (h.numbered j hj) (by omega)
    refine { h with
      distinct := ?_, numbered := ?_, looked := ?_, order := h.order.trans (le_succ _),
      bound := by simp only [Counted] at hc; simp only; omega,
      idle := fun hx => absurd hx hext, unused := fun hx => absurd hx hext }
    · rw [map_append, ← append_assoc]
      refine nodup_append.mpr ⟨h.distinct, nodup_singleton _, fun a ha b hb hab => ?_⟩
      rw [map_singleton, mem_singleton] at hb
      rw [hab, hb] at ha
      exact hnot ha
    · intro j hj
      rcases mem_append.mp hj with hj | hj
      · exact (h.numbered j hj).trans (lt_succ_self _)
      · obtain rfl := mem_singleton.mp hj
        exact lt_succ_self _
    · intro j hj hl
      rcases mem_append.mp hj with hj | hj
      · exact h.looked j hj hl
      · obtain rfl := mem_singleton.mp hj
        simp [Looked] at hl
  | @receiveFails rest a hqueue =>
    have hext : s.external ≠ false := by
      intro hx
      rw [(h.idle hx).1] at hqueue
      cases hqueue
    exact { h with
      numbered := fun j hj => (h.numbered j hj).trans (lt_succ_self _)
      order := h.order.trans (le_succ _)
      bound := by simp only [Counted] at hc; simp only; omega
      idle := fun hx => absurd hx hext
      unused := fun hx => absurd hx hext }
  | @found l l' j hjobs hstage hreg =>
    have hext : s.external = true := by
      have hr := h.registered
      rw [hreg] at hr
      simpa using (Bool.and_eq_true_iff.mp hr.symm).1
    have hd := destroyed_of_external h hext
    have hpos := h.alive hd
    have hnum := h.numbered
    have hlook := h.looked
    rw [hjobs] at hnum hlook
    have hj := hnum j (by simp)
    have horder := h.order
    refine { h with
      refs := ?_, distinct := ?_, numbered := forall_mem_stage hnum hj, past := ?_,
      looked := ?_, order := ?_, destroyed := fun hx => absurd (hd.symm.trans hx) (by decide),
      alive := fun _ => ?_, unused := fun hx => absurd (hext.symm.trans hx) (by decide) }
    · simp only
      omega
    · have hdist := h.distinct
      rw [hjobs] at hdist
      rw [map_seqno_stage]
      exact hdist
    · exact fun n hn => lt_of_lt_of_le (h.past n hn) (le_max_left _ _)
    · refine forall_mem_stage (fun i hi hl => ?_) fun _ => ?_
      · exact lt_of_lt_of_le (hlook i hi hl) (le_max_left _ _)
      · exact lt_of_lt_of_le (lt_succ_self _) (le_max_right _ _)
    · simp only
      omega
    · simp only
      omega
  | @retry l l' j hjobs hstage hreg =>
    have hnum := h.numbered
    have hlook := h.looked
    have hdist := h.distinct
    rw [hjobs] at hnum hlook hdist
    refine { h with
      distinct := ?_, numbered := forall_mem_stage hnum (hnum j (by simp)),
      looked := forall_mem_stage hlook fun hl => by simp [Looked] at hl,
      unused := fun hx hd => absurd (h.unused hx hd).2.1 (by simp [hjobs]) }
    rw [map_seqno_stage]
    exact hdist
  | @unknown l l' j hjobs hstage hreg =>
    have hnum := h.numbered
    have hlook := h.looked
    have hdist := h.distinct
    rw [hjobs] at hnum hlook hdist
    refine { h with
      distinct := ?_, numbered := forall_mem_erase hnum, looked := forall_mem_erase hlook,
      unused := fun hx hd => absurd (h.unused hx hd).2.1 (by simp [hjobs]) }
    refine hdist.sublist ((Sublist.refl _).append ?_)
    exact (Sublist.append_left (sublist_cons_self j l') l).map _
  | @invoke l l' j hjobs hstage hitem => exact h.stage hjobs (Or.inl hstage) .handled _
  | @repeated l l' j hjobs hstage hitem hreg =>
    have hext : s.external ≠ false := by
      intro hx
      have hd := h.looked_alive (j := j) (by simp [hjobs]) (Or.inl hstage)
      exact absurd (h.unused hx hd).2.1 (by simp [hjobs])
    have hstep := h.stage hjobs (Or.inl hstage) .handled (s.dispatched ++ [j.seqno])
    exact { hstep with
      registered := by simp [hreg]
      unused := fun hx => absurd hx hext }
  | @unexport l l' j hjobs hstage hitem hreg =>
    have hext : s.external = true := by
      have hr := h.registered
      rw [hreg] at hr
      simpa using (Bool.and_eq_true_iff.mp hr.symm).1
    have hd := destroyed_of_external h hext
    have hstep := h.stage hjobs (Or.inl hstage) .handled (s.dispatched ++ [j.seqno])
    have htable := h.tableRefs
    rw [hreg] at htable
    refine Ledger.dereference ?_ hd
    exact { hstep with
      registered := by simp
      tableRefs := by simp [htable]
      refs := by simp only; simp at htable; omega
      unused := fun hx => absurd (hext.symm.trans hx) (by decide) }
  | @release l l' j hjobs hstage =>
    have hmem : j ∈ s.jobs := by simp [hjobs]
    have hd := h.looked_alive hmem (Or.inr hstage)
    have hnum := h.numbered
    have hlook := h.looked
    have hdist := h.distinct
    rw [hjobs] at hnum hlook hdist
    refine Ledger.dereference ?_ hd
    refine { h with
      refs := ?_, distinct := ?_, numbered := forall_mem_erase hnum,
      past := ?_, looked := forall_mem_erase hlook,
      unused := fun hx hd => absurd (h.unused hx hd).2.1 (by simp [hjobs]) }
    · simp only [length_append, length_singleton]
      omega
    · refine (Perm.nodup_iff ?_).mp hdist
      simp only [map_append, map_cons, append_assoc, singleton_append]
      exact perm_middle.append_left _
    · intro n hn
      rcases mem_append.mp hn with hn | hn
      · exact h.past n hn
      · obtain rfl := mem_singleton.mp hn
        exact h.looked j hmem (Or.inr hstage)
  | reference hlocal =>
    have hd := destroyed_of_local h hlocal
    refine { h with
      refs := ?_, destroyed := fun hx => absurd (hd.symm.trans hx) (by decide),
      alive := fun _ => succ_pos _ }
    simp only
    omega
  | dereference hlocal =>
    have hd := destroyed_of_local h hlocal
    refine Ledger.dereference ?_ hd
    refine { h with refs := ?_ }
    simp only
    omega

end ExternalPort

end MachUS.Rpc
