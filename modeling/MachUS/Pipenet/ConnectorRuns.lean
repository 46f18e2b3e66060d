import MachUS.Pipenet.ConnectorMoves

namespace MachUS.Pipenet.Connector

open Function Phase

variable {T : Type} [DecidableEq T] {x y : Connector T} {stage : Node → Stage} {l l' : List Node}
variable {t : T} {p : Phase} {n : Node}

section

variable (h : x.Kept stage l)

include h

omit [DecidableEq T] in
theorem Kept.first_live (hsize : x.qsize ≠ 0) : x.live x.first = true := by
  refine h.books.live x.first ?_
  rw [h.books.first_mem hsize]
  trivial

theorem Kept.listen {mode : UInt32} {udatalen : ℕ} {i : Bool}
    (hold : x.phase t = .inside (.listen mode udatalen i)) (o : Outside) :
    (x.listen t mode udatalen i o).Kept stage l := by
  have hblank : (x.phase t).Blank := hold ▸ (Blank.listen mode udatalen i).2.1
  have hself : x.Same x := ⟨rfl, rfl, fun _ => rfl, rfl, rfl, rfl, rfl, rfl, rfl, rfl⟩
  rw [Connector.listen]
  split
  · exact h.returned hold hblank hself rfl _ rfl
  · split
    · split
      · exact h.returned hold hblank hself rfl _ rfl
      · exact h.waits i hold rfl (by simp) o
    · rename_i hsize
      exact h.returned hold hblank (.touch (h.first_live hsize)) rfl _ rfl

theorem Kept.takes {s : Section} {g : Progress} {s' : Stage}
    (hin : x.phase t = .inside s) (hblank : (x.phase t).Blank) (hn : stage n = .waiting)
    (hbooks : y.Books (update stage n s') l')
    (hphase : y.phase = update x.phase t p) (hlive : y.live = x.live)
    (hframes : y.frames = x.frames) (hs : Stage.Advance .waiting s') (htask : p.task = some (n, g))
    (hg : g.Allows s') (howned : p.owned = none) (hgone : p.gone = []) (hps : ¬p.Shrinks)
    (hasked : ∀ q, ¬p.Resizes q) (hinside : ∀ s, p ≠ .inside s) (hqmax : y.qmax = x.qmax)
    (hqsize : y.qsize = x.qsize - 1) (hreports : y.reports = x.reports)
    (hstrays : y.strays = x.strays) (hmisreleases : y.misreleases = x.misreleases) : y.Inv := by
  refine ⟨_, _, h.advance hbooks hphase hlive hframes (hn ▸ hs)
    (fits_of_task htask (by rwa [update_self]) howned (by simp [hgone]))
    (by simp [howned]) (by simp [hblank.task]) ?_ ?_ (fun _ => ⟨g, htask⟩) hqmax (by omega)
    (fun q hq => absurd hq (hasked q)) (fun hp => absurd hp hps) (fun hp => absurd hp hblank.shrinks)
    (.inl ⟨s, hin⟩) (fun s hp => absurd hp (hinside s)) (fun r hr => .inl (hreports ▸ hr)) hstrays
    hmisreleases⟩
  · intro m g' hg'
    rw [htask] at hg'
    cases hg'
    rfl
  · intro hheld
    rw [hn] at hheld
    exact hheld.elim

theorem Kept.claim {s : Section} (hold : x.phase t = .inside s)
    (hblank : (x.phase t).Blank) (seqno : UInt32) (udata : Bytes)
    {commit : Connector T → Node → Connector T}
    (hcommit : ∀ n, stage n = .waiting → x.live n = true → (commit ((x.touch n).remove n) n).Inv) :
    (x.claim t seqno udata commit).Inv := by
  have hself : x.Same x := ⟨rfl, rfl, fun _ => rfl, rfl, rfl, rfl, rfl, rfl, rfl, rfl⟩
  rw [Connector.claim]
  split
  · exact ⟨stage, l, h.returned hold hblank hself rfl _ rfl⟩
  · rename_i hsize
    have hlive := h.first_live hsize
    dsimp only
    split
    · exact ⟨stage, l, h.returned hold hblank (.touch hlive) rfl _ rfl⟩
    · split
      · exact ⟨stage, l, h.returned hold hblank (.touch hlive) rfl _ rfl⟩
      · exact hcommit x.first (h.books.first_mem hsize) hlive

end

omit [DecidableEq T] in
theorem Kept.touch_books (h : x.Kept stage l) (n : Node) : (x.touch n).Books stage l :=
  ⟨h.books.ledger, h.books.live, h.books.error, h.books.queue, h.books.qsize, h.books.waiting⟩

theorem Kept.accept (h : x.Kept stage l) {a : Accept} (hold : x.phase t = .inside (.accept a)) :
    (x.accept t a).Inv := by
  have hheld := h.clean.lock t _ hold
  have hblank : (x.phase t).Blank := by
    rw [hold]
    exact ⟨rfl, rfl, rfl, id⟩
  refine h.claim hold hblank a.seqno a.udata fun n hn hlive => ?_
  have hb := (h.touch_books n).remove hn
  exact h.takes (p := .committed n a) (g := .works) hold hblank hn
    ⟨hb.ledger, hb.live, hb.error, hb.queue, hb.qsize, hb.waiting⟩ rfl rfl rfl .take rfl rfl rfl
    rfl id (by simp [Resizes]) (by simp) rfl rfl rfl (touched hlive) (released hheld)

theorem Kept.reject (h : x.Kept stage l) {seqno : UInt32} {udata : Bytes}
    (hold : x.phase t = .inside (.reject seqno udata)) : (x.reject t seqno udata).Inv := by
  have hheld := h.clean.lock t _ hold
  have hblank : (x.phase t).Blank := by
    rw [hold]
    exact ⟨rfl, rfl, rfl, id⟩
  refine h.claim hold hblank seqno udata fun n hn hlive => ?_
  have hremoved := (h.touch_books n).remove hn
  have hwritten := hremoved.write (n := n) (f := fun i =>
    { i with outUdata := udata, outUdatalen := udata.length, state := .rejected }) rfl
  have hb := hwritten.settle (update_self ..) .connectionRefused
  rw [update_idem] at hb
  exact h.takes (p := .signalling n .success) (g := .tells .success) hold hblank hn
    ⟨hb.ledger, hb.live, hb.error, hb.queue, hb.qsize, hb.waiting⟩ rfl rfl rfl
    (.refuse .connectionRefused) rfl ⟨_, rfl, fun _ => rfl⟩ rfl rfl id (by simp [Resizes])
    (by simp) rfl rfl rfl (touched hlive) (released hheld)

section

variable (h : x.Kept stage l)

include h

omit [DecidableEq T] in
theorem Kept.task_live {g : Progress}
    (htask : (x.phase t).task = some (n, g)) : x.live n = true := by
  refine h.books.live n ?_
  have hheld := ((h.roles.fits t).task n g htask).held
  cases hs : stage n with
  | outside | settled _ =>
    rw [hs] at hheld
    exact hheld.elim
  | _ => trivial

theorem Kept.works {g g' : Progress} (hold : (x.phase t).task = some (n, g)) (hsame : x.Same y)
    (hphase : y.phase = update x.phase t p) (htask : p.task = some (n, g'))
    (hg : g.Allows (stage n) → g'.Allows (stage n)) (howned : p.owned = none)
    (hgone : p.gone = (x.phase t).gone) (hshrinks : p.Shrinks ↔ (x.phase t).Shrinks)
    (hasked : ∀ q, ¬p.Resizes q) (hlock : (∃ s, x.phase t = .inside s) ∨ y.lock = x.lock)
    (hinside : ∀ s, p ≠ .inside s) : y.Kept stage l := by
  have hfits := h.roles.fits t
  refine h.quiet hsame hphase ?_ (by simp [howned]) (by rw [htask, hold]; rfl)
    (fun q hq => absurd hq (hasked q)) hshrinks hlock fun s hs => absurd hs (hinside s)
  exact fits_of_task htask (hg (hfits.task n g hold)) howned (hgone ▸ hfits.gone)

theorem Kept.fillIn {a : Accept} (hold : x.phase t = .committed n a) :
    (x.fillIn t n a).Kept stage l := by
  have htask : (x.phase t).task = some (n, .works) := by rw [hold]; rfl
  exact h.works htask (((Same.touch (h.task_live htask)).trans (.write rfl)).trans (.goes t _)) rfl
    (p := .settingUp n) rfl id rfl (by rw [hold]; rfl) (by rw [hold]; rfl) (by simp [Resizes])
    (.inr rfl) (by simp)

theorem Kept.setUp (hold : x.phase t = .settingUp n) (code : Code) :
    (x.setUp t n code).Kept stage l := by
  have htask : (x.phase t).task = some (n, .works) := by rw [hold]; rfl
  have hsame (p : Phase) : x.Same ((x.touch n).goes t p) :=
    (Same.touch (h.task_live htask)).trans (.goes t p)
  rw [Connector.setUp]
  split
  · exact h.works htask (hsame _) rfl rfl id rfl (by rw [hold]; rfl) (by rw [hold]; rfl)
      (by simp [Resizes]) (.inr rfl) (by simp)
  · exact h.works htask (hsame _) rfl rfl id rfl (by rw [hold]; rfl) (by rw [hold]; rfl)
      (by simp [Resizes]) (.inr rfl) (by simp)

end

variable {code : Code}

theorem Kept.getCredentials (h : x.Kept stage l) (hold : x.phase t = .credentials n)
    (hcode : code = .success) : (x.getCredentials t n code).Kept stage l := by
  have htask : (x.phase t).task = some (n, .works) := by rw [hold]; rfl
  rw [Connector.getCredentials, if_pos hcode]
  exact h.works htask (.goes t _) rfl rfl id rfl (by rw [hold]; rfl) (by rw [hold]; rfl)
    (by simp [Resizes]) (.inr rfl) (by simp)

theorem Kept.createAgent (h : x.Kept stage l) (hold : x.phase t = .creating n) (code : Code) :
    (x.createAgent t n code).Kept stage l := by
  have htask : (x.phase t).task = some (n, .works) := by rw [hold]; rfl
  have hsame (p : Phase) : x.Same ((x.touch n).goes t p) :=
    (Same.touch (h.task_live htask)).trans (.goes t p)
  rw [Connector.createAgent]
  split
  · exact h.works htask (hsame _) rfl rfl id rfl (by rw [hold]; rfl) (by rw [hold]; rfl)
      (by simp [Resizes]) (.inr rfl) (by simp)
  · exact h.works htask (hsame _) rfl rfl id rfl (by rw [hold]; rfl) (by rw [hold]; rfl)
      (by simp [Resizes]) (.inr rfl) (by simp)

variable {gone : List Node}

section

variable (h : x.Kept stage l)

include h

theorem Kept.markRefused
    (hold : x.phase t = .refused n gone) : (x.markRefused t n gone).Kept stage l := by
  have htask : (x.phase t).task = some (n, .tells .success) := by rw [hold]; rfl
  exact h.works htask (((Same.touch (h.task_live htask)).trans (.write rfl)).trans (.goes t _)) rfl
    (p := .rousing n gone) rfl id rfl (by rw [hold]; rfl) (by rw [hold]; rfl)
    (by simp [Resizes]) (.inr rfl) (by simp)

theorem Kept.answers {c code : Code} (hold : (x.phase t).task = some (n, .works))
    (hbooks : y.Books (update stage n (.answered c)) l)
    (hphase : y.phase = update x.phase t p) (hlive : y.live = x.live)
    (hframes : y.frames = x.frames) (htask : p.task = some (n, .tells code))
    (hc : c = .success → code = .success) (howned : p.owned = none)
    (hgone : p.gone = (x.phase t).gone) (hshrinks : p.Shrinks ↔ (x.phase t).Shrinks)
    (hasked : ∀ q, ¬p.Resizes q) (hqmax : y.qmax = x.qmax) (hqsize : y.qsize = x.qsize)
    (hlock : (∃ s, x.phase t = .inside s) ∨ y.lock = x.lock) (hinside : ∀ s, p ≠ .inside s)
    (hreports : y.reports = x.reports) (hstrays : y.strays = x.strays)
    (hmisreleases : y.misreleases = x.misreleases) : y.Inv := by
  have hn : stage n = .taken := (h.roles.fits t).task n .works hold
  refine ⟨_, _, h.advance hbooks hphase hlive hframes (hn ▸ .answer c)
    (fits_of_task htask ?_ howned ?_) (by simp [howned]) ?_ ?_ (fun _ => ⟨_, hold⟩)
    (fun _ => ⟨_, htask⟩) hqmax (Int.le_of_eq hqsize) (fun q hq => absurd hq (hasked q))
    (fun hp => h.limits.shrinking t (hshrinks.mp hp)) (fun hp => .inl (hshrinks.mpr hp)) hlock
    (fun s hs => absurd hs (hinside s)) (fun r hr => .inl (hreports ▸ hr)) hstrays hmisreleases⟩
  · rw [update_self]
    exact ⟨c, rfl, hc⟩
  · intro m hm
    obtain ⟨d, hd⟩ := (h.roles.fits t).gone m (hgone ▸ hm)
    refine ⟨d, ?_⟩
    have hne : m ≠ n := by
      rintro rfl
      cases hn.symm.trans hd
    rw [update_of_ne hne, hd]
  · intro m g hg
    rw [hold] at hg
    cases hg
    rfl
  · intro m g hg
    rw [htask] at hg
    cases hg
    rfl

theorem Kept.abortWakeup
    (hold : x.phase t = .inside (.abortWakeup n code)) : (x.abortWakeup t n code).Inv := by
  have hheld := h.clean.lock t _ hold
  have htask : (x.phase t).task = some (n, .works) := by rw [hold]; rfl
  have hwritten := (h.touch_books n).write (n := n)
    (f := fun i => { i with state := .rejected, outUdatalen := 0 }) rfl
  have hb := hwritten.settle ((h.roles.fits t).task n .works htask) code
  exact h.answers (p := .signalling n code) htask
    ⟨hb.ledger, hb.live, hb.error, hb.queue, hb.qsize, hb.waiting⟩ rfl rfl rfl rfl id rfl
    (by rw [hold]; rfl) (by rw [hold]; rfl) (by simp [Resizes]) rfl rfl (.inl ⟨_, hold⟩)
    (by simp) rfl (touched (h.task_live htask)) (released hheld)

theorem Kept.conclude (hold : x.phase t = .inside (.conclude n)) : (x.conclude t n).Inv := by
  have hheld := h.clean.lock t _ hold
  have htask : (x.phase t).task = some (n, .works) := by rw [hold]; rfl
  have hwritten := (h.touch_books n).write (n := n) (f := fun i => { i with state := .accepted }) rfl
  have hb := hwritten.settle ((h.roles.fits t).task n .works htask) .success
  exact h.answers (p := .signalling n .success) htask
    ⟨hb.ledger, hb.live, hb.error, hb.queue, hb.qsize, hb.waiting⟩ rfl rfl rfl rfl id rfl
    (by rw [hold]; rfl) (by rw [hold]; rfl) (by simp [Resizes]) rfl rfl (.inl ⟨_, hold⟩)
    (by simp) rfl (touched (h.task_live htask)) (released hheld)

theorem Kept.refuse (hold : x.phase t = .refusing n gone) : (x.refuse t n gone).Inv := by
  have htask : (x.phase t).task = some (n, .works) := by rw [hold]; rfl
  have hwritten := (h.touch_books n).write (n := n) (f := fun i => { i with outUdatalen := 0 }) rfl
  have hb := hwritten.settle ((h.roles.fits t).task n .works htask) .connectionRefused
  exact h.answers (p := .refused n gone) htask
    ⟨hb.ledger, hb.live, hb.error, hb.queue, hb.qsize, hb.waiting⟩ rfl rfl rfl rfl (fun _ => rfl) rfl
    (by rw [hold]; rfl) (by rw [hold]; rfl) (by simp [Resizes]) rfl rfl (.inr rfl)
    (by simp) rfl (touched (h.task_live htask)) rfl

theorem Kept.settles (hold : (x.phase t).task = some (n, .tells code))
    (hphase : y.phase = update x.phase t p) (hbooks : ∀ c, stage n = .answered c →
      y.Books (update stage n (.settled c)) l) (hlive : y.live = x.live)
    (hframes : y.frames = x.frames) (htask : p.task = none) (howned : p.owned = none)
    (hgone : ∀ m ∈ p.gone, m = n ∨ m ∈ (x.phase t).gone)
    (hshrinks : p.Shrinks ↔ (x.phase t).Shrinks) (hasked : ∀ q, ¬p.Resizes q)
    (hqmax : y.qmax = x.qmax) (hqsize : y.qsize = x.qsize) (hlock : y.lock = x.lock)
    (hinside : ∀ s, p ≠ .inside s)
    (hreports : ∀ r ∈ y.reports, r ∈ x.reports ∨ r.node = n ∧ r.code = code)
    (hstrays : y.strays = x.strays) (hmisreleases : y.misreleases = x.misreleases) : y.Inv := by
  obtain ⟨c, hn, hc⟩ := (h.roles.fits t).task n _ hold
  refine ⟨_, _, h.advance (hbooks c hn) hphase hlive hframes (hn ▸ .settle c) ⟨?_, ?_, ?_⟩
    (by simp [howned]) ?_ (by simp [htask]) (fun _ => ⟨_, hold⟩) False.elim hqmax
    (Int.le_of_eq hqsize) (fun q hq => absurd hq (hasked q))
    (fun hp => h.limits.shrinking t (hshrinks.mp hp)) (fun hp => .inl (hshrinks.mpr hp))
    (.inr hlock) (fun s hs => absurd hs (hinside s)) ?_ hstrays hmisreleases⟩
  · simp [howned]
  · simp [htask]
  · intro m hm
    rcases eq_or_ne m n with rfl | hne
    · exact ⟨c, update_self ..⟩
    · rw [update_of_ne hne]
      exact (h.roles.fits t).gone m ((hgone m hm).resolve_left hne)
  · intro m g hg
    rw [hold] at hg
    cases hg
    rfl
  · intro r hr
    rcases hreports r hr with hr | ⟨hnode, hcode⟩
    · exact .inl hr
    · exact .inr ⟨c, by rw [hnode, update_self], by rwa [hcode]⟩

theorem Kept.signal (hold : x.phase t = .signalling n code) : (x.signal t n code).Inv := by
  have htask : (x.phase t).task = some (n, .tells code) := by rw [hold]; rfl
  have hbooks (c : Code) (hc : stage n = .answered c) :
      (x.signal t n code).Books (update stage n (.settled c)) l := by
    have hb := (h.touch_books n).notify hc
    exact ⟨hb.ledger, hb.live, hb.error, hb.queue, hb.qsize, hb.waiting⟩
  have hreports (r : Report) (hr : r ∈ (x.signal t n code).reports) :
      r ∈ x.reports ∨ r.node = n ∧ r.code = code := by
    rcases List.mem_cons.mp hr with rfl | hr
    · exact .inr ⟨rfl, rfl⟩
    · exact .inl hr
  exact h.settles (p := .idle) htask rfl hbooks rfl rfl rfl rfl (by simp [gone])
    (by rw [hold]; rfl) (by simp [Resizes]) rfl rfl rfl (by simp) hreports
    (touched (h.task_live htask)) rfl

theorem Kept.rouse (hold : x.phase t = .rousing n gone) : (x.rouse t n gone).Inv := by
  have htask : (x.phase t).task = some (n, .tells .success) := by rw [hold]; rfl
  refine h.settles (y := x.rouse t n gone) (p := .entering (.trim (n :: gone))) htask rfl (fun c hc => ?_) rfl rfl rfl rfl
    ?_ (by rw [hold]; rfl) (by simp [Resizes]) rfl rfl rfl (by simp) (fun _ => .inl)
    (touched (h.task_live htask)) rfl
  · have hb := (h.touch_books n).notify hc
    exact ⟨hb.ledger, hb.live, hb.error, hb.queue, hb.qsize, hb.waiting⟩
  · intro m hm
    rw [hold]
    exact List.mem_cons.mp hm

theorem Kept.trim {s : Section} (hold : x.phase t = .inside s)
    (htask : s.task = none) (hgone : ∀ m ∈ gone, ∃ c, stage m = .settled c) {q : ℤ} (hq : 0 ≤ q) :
    ({ x with qmax := q }.trim t gone).Inv := by
  have hheld := h.clean.lock t _ hold
  have hnone : (x.phase t).task = none := by rw [hold]; exact htask
  rw [Connector.trim]
  split
  · rename_i hover
    change q < x.qsize at hover
    have hsize : x.qsize ≠ 0 := by omega
    have hn := h.books.first_mem hsize
    have hlive := h.first_live hsize
    have hb := (h.touch_books x.first).remove hn
    refine ⟨_, _, ⟨hb.ledger, hb.live, hb.error, hb.queue, hb.qsize, hb.waiting⟩, ?_, ?_, ?_⟩
    · refine h.roles.advance (t := t) (p := .refusing x.first gone) rfl rfl rfl (hn ▸ .take)
        (fits_of_task rfl (update_self ..) rfl ?_) (by simp [owned])
        (by simp [hnone]) (by simp [task]) ?_ (fun _ => ⟨.works, rfl⟩)
      · intro m hm
        obtain ⟨c, hc⟩ := hgone m hm
        have hne : m ≠ x.first := by
          rintro rfl
          cases hn.symm.trans hc
        exact ⟨c, by rw [update_of_ne hne, hc]⟩
      · intro hheld
        rw [hn] at hheld
        exact hheld.elim
    · exact h.limits.resize (t := t) rfl hq (by simp [Resizes]) (.inr trivial)
    · refine h.clean.move (t := t) rfl (.inl ⟨_, hold⟩) (by simp) (fun m c hm => ?_)
        (fun _ => .inl) (touched hlive) (released hheld)
      have hne : m ≠ x.first := by
        rintro rfl
        cases hn.symm.trans hm
      rw [update_of_ne hne, hm]
  · rename_i hover
    have hle : x.qsize ≤ q := Int.not_lt.mp hover
    refine ⟨stage, l, ⟨h.books.ledger, h.books.live, h.books.error, h.books.queue, h.books.qsize,
      h.books.waiting⟩, ?_, ?_, ?_⟩
    · exact h.roles.quiet (t := t) rfl rfl rfl Blank.idle.fits (by simp [owned])
        (by rw [hnone]; rfl)
    · exact h.limits.resize (t := t) rfl hq (by simp [Resizes]) (.inl hle)
    · refine h.clean.move (t := t) rfl (.inl ⟨_, hold⟩) (by simp) (fun _ _ => id) (fun r hr => ?_)
        rfl (released hheld)
      rcases List.mem_append.mp hr with hr | hr
      · obtain ⟨m, hm, rfl⟩ := List.mem_map.mp hr
        obtain ⟨c, hc⟩ := hgone m hm
        exact .inr ⟨c, hc, fun _ => rfl⟩
      · exact .inl hr

end

end MachUS.Pipenet.Connector

namespace MachUS.Pipenet

open Relation Connector Transition

namespace Connector

variable {T : Type} [DecidableEq T] {x y : Connector T} {stage : Node → Stage} {l : List Node}
variable {t : T}

omit [DecidableEq T] in
theorem create_inv (qlen : ℤ) (chains : LinkRing Node) (memory : Node → Conninfo) :
    (create qlen chains memory : Connector T).Inv := by
  refine ⟨fun _ => .outside, [], ⟨⟨fun _ => rfl, fun _ => False.elim, fun _ => False.elim,
    LinkRing.init_holds chains none, rfl, by simp⟩, ⟨fun _ => Phase.Blank.idle.fits, ?_, ?_, ?_, ?_,
    ?_⟩, ⟨?_, fun _ => False.elim, ?_⟩, ⟨?_, ?_, rfl, rfl⟩⟩⟩
  · intro _ _ _ _ _ h
    cases h
  · intro _ _ _ _ _ h
    cases h
  · exact fun _ => False.elim
  · intro _ _ _ h
    cases h
  · intro n _
    refine ⟨rfl, fun _ _ h => ?_⟩
    cases h
  · rintro _ _ (h | h | h) <;> cases h
  · rcases Int.lt_or_le qlen 0 with hq | hq
    · exact .inl hq
    · exact .inr (.inl hq)
  · intro _ _ h
    cases h
  · intro _ h
    cases h

theorem Kept.perform (h : x.Kept stage l) {s : Section} (hold : x.phase t = .inside s)
    {o : Outside} (he : x.Orderly (.act t o)) : (x.perform t o s).Inv := by
  simp only [Orderly, hold] at he
  cases s with
  | enqueue n => exact h.enqueue hold
  | await n interrupted =>
    refine h.await hold (fun hi => ?_) o
    subst hi
    exact he
  | listen mode udatalen interrupted => exact ⟨stage, l, h.listen hold o⟩
  | accept a => exact h.accept hold
  | abortWakeup n code => exact h.abortWakeup hold
  | conclude n => exact h.conclude hold
  | reject seqno udata => exact h.reject hold
  | setQmax qmax =>
    exact h.trim hold rfl (by simp) (h.limits.asked t qmax (.inr (.inl hold))).1
  | trim gone =>
    refine h.trim hold rfl (fun m hm => ?_) (h.limits.shrinking t (by rw [hold]; trivial))
    exact (h.roles.fits t).gone m (by rw [hold]; exact hm)

theorem Kept.act (h : x.Kept stage l) {o : Outside} (he : x.Orderly (.act t o))
    (hy : x.act t o (x.phase t) = some y) : y.Inv := by
  cases hold : x.phase t with
  | idle | entering _ | asleep _ =>
    rw [hold] at hy
    cases hy
  | inside s =>
    rw [hold] at hy
    cases hy
    exact h.perform hold he
  | requesting n =>
    rw [hold] at hy
    cases hy
    exact ⟨_, _, h.request hold o.code⟩
  | announcing n =>
    rw [hold] at hy
    cases hy
    exact ⟨_, _, h.announce hold⟩
  | leaving n =>
    rw [hold] at hy
    cases hy
    simp only [Orderly, hold] at he
    exact ⟨_, _, h.leave hold he⟩
  | committed n a =>
    rw [hold] at hy
    cases hy
    exact ⟨_, _, h.fillIn hold⟩
  | settingUp n =>
    rw [hold] at hy
    cases hy
    exact ⟨_, _, h.setUp hold o.code⟩
  | credentials n =>
    rw [hold] at hy
    cases hy
    simp only [Orderly, hold] at he
    exact ⟨_, _, h.getCredentials hold he⟩
  | creating n =>
    rw [hold] at hy
    cases hy
    exact ⟨_, _, h.createAgent hold o.code⟩
  | signalling n code =>
    rw [hold] at hy
    cases hy
    exact h.signal hold
  | refusing n gone =>
    rw [hold] at hy
    cases hy
    exact h.refuse hold
  | refused n gone =>
    rw [hold] at hy
    cases hy
    exact ⟨_, _, h.markRefused hold⟩
  | rousing n gone =>
    rw [hold] at hy
    cases hy
    exact h.rouse hold

theorem Kept.locks (h : x.Kept stage l) {s : Section} (hold : x.phase t = .entering s)
    (hfree : x.lock = none) :
    ({ x.goes t (.inside s) with lock := some t } : Connector T).Kept stage l := by
  have hlocked : ({ x with lock := some t } : Connector T).Kept stage l := by
    refine ⟨⟨h.books.ledger, h.books.live, h.books.error, h.books.queue, h.books.qsize,
      h.books.waiting⟩, ⟨h.roles.fits, h.roles.owner, h.roles.worker, h.roles.worked,
      h.roles.present, h.roles.fresh⟩, ⟨h.limits.asked, h.limits.shrinking, h.limits.bound⟩,
      ⟨fun u s' hu => ?_, h.clean.reports, h.clean.strays, h.clean.misreleases⟩⟩
    have := h.clean.lock u s' hu
    rw [hfree] at this
    cases this
  obtain ⟨i, hi⟩ := s.exists_resumed
  refine hlocked.proceeds i (.goes t _) rfl (.inr (.inl (by rw [hi]))) (.inl hold) ?_
    (.inr rfl) (fun _ _ => rfl)
  rintro q rfl
  exact h.limits.asked t q (.inl hold)

theorem Inv.next (h : x.Inv) {e : Event T} (he : x.Orderly e) (hy : x.next e = some y) : y.Inv := by
  obtain ⟨stage, l, h⟩ := h
  cases e with
  | call t c =>
    simp only [Connector.next] at hy
    split at hy
    · rename_i hold
      cases hy
      exact ⟨stage, l, h.start hold he⟩
    · cases hy
  | lock t =>
    simp only [Connector.next] at hy
    split at hy
    · rename_i s hold hfree
      cases hy
      exact ⟨stage, l, h.locks hold hfree⟩
    · cases hy
  | act t o => exact h.act he hy
  | wake t interrupted =>
    simp only [Connector.next] at hy
    split at hy
    · rename_i s hold
      cases hy
      refine ⟨stage, l, h.proceeds interrupted (.goes t _) rfl (.inl rfl) (.inr (.inr hold)) ?_
        (.inr rfl) (by simp)⟩
      rintro q rfl
      exact h.limits.asked t q (.inr (.inr hold))
    · cases hy

omit [DecidableEq T] in
theorem Inv.sound (h : x.Inv) : x.Sound := by
  obtain ⟨stage, l, h⟩ := h
  constructor
  case queue =>
    refine ⟨l, h.books.queue, h.books.qsize, fun n => ?_⟩
    rw [h.books.waiting, h.books.ledger]
    cases stage n <;> simp [Stage.ledger]
  case live =>
    intro n hentries hnotices
    refine h.books.live n ?_
    rw [h.books.ledger] at hentries hnotices
    cases hn : stage n with
    | outside | settled _ => simp [hn, Stage.ledger] at hentries hnotices
    | _ => trivial
  case bound =>
    intro hidle hqmax
    rcases h.limits.bound with hneg | hle | ⟨t, ht⟩
    · omega
    · exact hle
    · exact absurd ht (hidle t)
  case once =>
    intro n
    rw [h.books.ledger]
    have hlive := h.books.live n
    cases hn : stage n with
    | outside | settled _ => simp [Stage.ledger]
    | waiting | taken | answered _ => simp [Stage.ledger, hlive (by rw [hn]; trivial)]
  case answered =>
    intro n hremovals
    rw [h.books.ledger] at hremovals ⊢
    cases hn : stage n with
    | outside | waiting => simp [hn, Stage.ledger] at hremovals
    | taken | answered _ => exact .inl (h.roles.worked n (by rw [hn]; trivial))
    | settled c => exact .inr ⟨c, rfl, rfl⟩
  case reports =>
    intro r hr
    obtain ⟨c, hc, hcode⟩ := h.clean.reports r hr
    rw [h.books.ledger, hc]
    exact ⟨c, rfl, rfl, rfl, hcode⟩
  case strays => exact h.clean.strays
  case misreleases => exact h.clean.misreleases

end Connector

theorem requests_sound {T : Type} [DecidableEq T] (qlen : ℤ) (chains : LinkRing Node)
    (memory : Node → Conninfo) (x : Connector T)
    (hrun : ReflTransGen (Under Connector.next Orderly) (create qlen chains memory) x) : x.Sound :=
  (invariant (fun _ _ _ hx he hy => Inv.next hx he hy) hrun (create_inv qlen chains memory)).sound

namespace Connector

variable {T : Type} [DecidableEq T]

instance (x : Connector T) : ∀ e : Event T, Decidable (x.Orderly e)
  | .call _ (.netSetConnectQmax qmax) => inferInstanceAs (Decidable (0 ≤ x.qmax → 0 ≤ qmax))
  | .call _ (.netConnect ..) | .call _ (.netListen ..) | .call _ (.netAccept _)
  | .call _ (.netReject ..) | .lock _ | .wake .. => .isTrue trivial
  | .act t o =>
    match h : x.phase t with
    | .inside (.await n true) =>
      decidable_of_iff ((x.record n).error = .objectNotStarted → (x.ledger n).removals = 0)
        (by simp only [Orderly, h])
    | .credentials _ => decidable_of_iff (o.code = .success) (by simp only [Orderly, h])
    | .leaving n =>
      decidable_of_iff ((x.ledger n).outcomes ≠ [] → (x.ledger n).notices ≠ 0)
        (by simp only [Orderly, h])
    | .inside (.await _ false) | .inside (.enqueue _) | .inside (.listen ..) | .inside (.accept _)
    | .inside (.abortWakeup ..) | .inside (.conclude _) | .inside (.reject ..)
    | .inside (.setQmax _) | .inside (.trim _) | .idle | .entering _ | .asleep _ | .requesting _
    | .announcing _ | .committed .. | .settingUp _ | .creating _ | .signalling .. | .refusing ..
    | .refused .. | .rousing .. => .isTrue (by simp only [Orderly, h])

end Connector

namespace Sample

def fine : Outside := ⟨false, .success⟩

def blank : Conninfo := ⟨.initial, [], [], [], [], 0, [], 0, .success⟩

def connects {T : Type} (t : T) : List (Event T) :=
  [.call t (.netConnect [] [] [] 16 1), .act t fine, .lock t, .act t fine, .act t fine, .lock t,
    .act t fine]

def accepts {T : Type} (t : T) (seqno : UInt32) : List (Event T) :=
  [.call t (.netAccept ⟨seqno, [], [], [], 1⟩), .lock t, .act t fine]

def concludes {T : Type} (t : T) : List (Event T) :=
  [.act t fine, .act t fine, .act t fine, .act t fine, .lock t, .act t fine, .act t fine]

def goes {T : Type} (t : T) : List (Event T) :=
  [.wake t false, .lock t, .act t fine, .act t fine]

def shrinks {T : Type} (t : T) : List (Event T) :=
  [.call t (.netSetConnectQmax 0), .lock t, .act t fine, .act t fine, .act t fine, .act t fine,
    .lock t, .act t fine]

def served : List (Event (Fin 2)) :=
  connects 0 ++ accepts 1 1 ++ concludes 1 ++ goes 0 ++ connects 0 ++ shrinks 1 ++ goes 0

def interrupted : List (Event (Fin 2)) :=
  connects 0 ++ accepts 1 1 ++ [.wake 0 true, .lock 0, .act 0 fine]

end Sample

theorem requests_sound_served : ∃ x : Connector (Fin 2), x.reports.length = 2 ∧ x.qmax = 0 ∧
    x.live (some 0) = false ∧ x.live (some 1) = false ∧ x.Sound := by
  have h : check Connector.next (create 1 ⟨id, id⟩ fun _ => Sample.blank)
      Sample.served (fun x => decide (x.reports.length = 2 ∧ x.qmax = 0 ∧
        x.live (some 0) = false ∧ x.live (some 1) = false)) = true := by
    decide +kernel
  have hadmits : Admits Connector.next Orderly
      (create 1 ⟨id, id⟩ fun _ => Sample.blank) Sample.served := by
    decide +kernel
  obtain ⟨x, hx, ht⟩ := exec_of_check h
  obtain ⟨hreports, hqmax, hfirst, hsecond⟩ := of_decide_eq_true ht
  exact ⟨x, hreports, hqmax, hfirst, hsecond, requests_sound 1 _ _ x (run_of_exec hadmits hx)⟩

theorem interrupt_removes_twice : ∃ x : Connector (Fin 2),
    ReflTransGen (Under Connector.next Free)
      (create 1 ⟨id, id⟩ fun _ => Sample.blank) x ∧ ¬x.Sound := by
  have h : check Connector.next (create 1 ⟨id, id⟩ fun _ => Sample.blank)
      Sample.interrupted (fun x => decide ((x.ledger (some 0)).removals = 2)) = true := by
    decide +kernel
  obtain ⟨x, hx, ht⟩ := exec_of_check h
  refine ⟨x, run_of_exec (free_admits _ _) hx, fun hsound => ?_⟩
  have hremovals : (x.ledger (some 0)).removals = 2 := of_decide_eq_true ht
  have := hsound.once (some 0)
  omega

end MachUS.Pipenet
