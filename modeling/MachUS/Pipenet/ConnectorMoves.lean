import MachUS.Pipenet.ConnectorSteps

namespace MachUS.Pipenet

open Function Phase

variable {stage : Node → Stage} {n : Node}

structure Phase.Blank (p : Phase) : Prop where
  owned : p.owned = none
  task : p.task = none
  gone : p.gone = []
  shrinks : ¬p.Shrinks

namespace Section

variable (i : Bool)

@[simp] theorem resumed_owned (s : Section) : (s.resumed i).owned = s.owned := by
  cases s <;> rfl

@[simp] theorem resumed_task (s : Section) : (s.resumed i).task = s.task := by
  cases s <;> rfl

@[simp] theorem resumed_gone (s : Section) : (s.resumed i).gone = s.gone := by
  cases s <;> rfl

@[simp] theorem resumed_shrinks (s : Section) : (s.resumed i).Shrinks ↔ s.Shrinks := by
  cases s <;> rfl

@[simp] theorem resumed_setQmax {q : ℤ} (s : Section) : s.resumed i = .setQmax q ↔ s = .setQmax q := by
  cases s <;> simp [resumed]

@[simp] theorem resumed_resumed (j : Bool) (s : Section) : (s.resumed i).resumed j = s.resumed j := by
  cases s <;> rfl

theorem exists_resumed (s : Section) : ∃ i, s.resumed i = s := by
  cases s with
  | await _ i | listen _ _ i => exact ⟨i, rfl⟩
  | _ => exact ⟨true, rfl⟩

end Section

namespace Phase

theorem Blank.idle : Blank .idle := ⟨rfl, rfl, rfl, id⟩

theorem Blank.listen (mode : UInt32) (udatalen : ℕ) (interrupted : Bool) :
    Blank (.entering (.listen mode udatalen interrupted)) ∧
      Blank (.inside (.listen mode udatalen interrupted)) ∧
      Blank (.asleep (.listen mode udatalen interrupted)) :=
  ⟨⟨rfl, rfl, rfl, id⟩, ⟨rfl, rfl, rfl, id⟩, ⟨rfl, rfl, rfl, id⟩⟩

theorem Blank.fits {p : Phase} (h : p.Blank) : p.Fits stage := by
  refine ⟨fun n s hs => ?_, fun n g hg => ?_, fun n hn => ?_⟩
  · rw [h.owned] at hs
    cases hs
  · rw [h.task] at hg
    cases hg
  · rw [h.gone] at hn
    cases hn

theorem fits_of_owned {p : Phase} {k : Standing} (howned : p.owned = some (n, k))
    (hk : k.Allows (stage n)) (htask : p.task = none) (hgone : p.gone = []) : p.Fits stage := by
  refine ⟨fun m s hs => ?_, fun m g hg => ?_, fun m hm => ?_⟩
  · rw [howned] at hs
    cases hs
    exact hk
  · rw [htask] at hg
    cases hg
  · rw [hgone] at hm
    cases hm

theorem fits_of_task {p : Phase} {g : Progress} (htask : p.task = some (n, g))
    (hg : g.Allows (stage n)) (howned : p.owned = none)
    (hgone : ∀ m ∈ p.gone, ∃ c, stage m = .settled c) : p.Fits stage := by
  refine ⟨fun m s hs => ?_, fun m g' hg' => ?_, hgone⟩
  · rw [howned] at hs
    cases hs
  · rw [htask] at hg'
    cases hg'
    exact hg

end Phase

namespace Connector

variable {T : Type} [DecidableEq T] {x y z : Connector T} {l : List Node} {t : T} {p : Phase}

omit [DecidableEq T] in
theorem Same.trans (h : x.Same y) (h' : y.Same z) : x.Same z :=
  ⟨h'.ledger.trans h.ledger, h'.live.trans h.live, fun m => (h'.error m).trans (h.error m),
    h'.queue.trans h.queue, h'.qsize.trans h.qsize, h'.qmax.trans h.qmax,
    h'.frames.trans h.frames, h'.reports.trans h.reports, h'.strays.trans h.strays,
    h'.misreleases.trans h.misreleases⟩

theorem Same.goes (t : T) (p : Phase) : x.Same (x.goes t p) :=
  ⟨rfl, rfl, fun _ => rfl, rfl, rfl, rfl, rfl, rfl, rfl, rfl⟩

theorem Same.returns (t : T) (a : Answer) : x.Same (x.returns t a) :=
  ⟨rfl, rfl, fun _ => rfl, rfl, rfl, rfl, rfl, rfl, rfl, rfl⟩

theorem Same.unlock (h : x.lock = some t) : x.Same (x.unlock t) :=
  ⟨rfl, rfl, fun _ => rfl, rfl, rfl, rfl, rfl, rfl, rfl, released h⟩

omit [DecidableEq T] in
theorem Same.touch (h : x.live n = true) : x.Same (x.touch n) :=
  ⟨rfl, rfl, fun _ => rfl, rfl, rfl, rfl, rfl, rfl, touched h, rfl⟩

section

variable (h : x.Kept stage l)

include h

theorem Kept.blank (hsame : x.Same y)
    (hphase : y.phase = update x.phase t p) (hp : p.Blank) (hold : (x.phase t).Blank)
    (hasked : ∀ q, p.Resizes q → 0 ≤ q ∧ 0 ≤ x.qmax)
    (hlock : (∃ s, x.phase t = .inside s) ∨ y.lock = x.lock)
    (hin : ∀ s, p = .inside s → y.lock = some t) : y.Kept stage l := by
  refine h.quiet hsame hphase hp.fits ?_ ?_ hasked (iff_of_false hp.shrinks hold.shrinks) hlock hin
  · intro m k hk
    rw [hp.owned] at hk
    cases hk
  · rw [hp.task, hold.task]

theorem Kept.calls (hold : x.phase t = .idle) (hp : p.Blank)
    (hin : ∀ s, p ≠ .inside s) (hasked : ∀ q, p.Resizes q → 0 ≤ q ∧ 0 ≤ x.qmax) :
    (x.goes t p).Kept stage l :=
  h.blank (.goes t p) rfl hp (hold ▸ .idle) hasked (.inr rfl) fun s hs => absurd hs (hin s)

theorem Kept.refused (hold : x.phase t = .idle) (a : Answer) : (x.returns t a).Kept stage l :=
  h.blank (.returns t a) rfl .idle (hold ▸ .idle) (by simp [Resizes]) (.inr rfl)
    fun s hs => absurd hs (by simp)

theorem Kept.returned {s : Section} (hold : x.phase t = .inside s)
    (hblank : (x.phase t).Blank) (hsame : x.Same y) (hphase : y.phase = x.phase) (a : Answer)
    (hlock : y.lock = x.lock) : ((y.unlock t).returns t a).Kept stage l := by
  have hheld : y.lock = some t := hlock.trans (h.clean.lock t s hold)
  refine h.blank (hsame.trans ((Same.unlock hheld).trans (.returns t a))) ?_ .idle hblank
    (by simp [Resizes]) (.inl ⟨s, hold⟩) fun s hs => absurd hs (by simp)
  rw [← hphase]
  rfl

theorem Kept.proceeds {s : Section} (i : Bool) (hsame : x.Same y)
    (hphase : y.phase = update x.phase t p)
    (hp : p = .entering (s.resumed i) ∨ p = .inside (s.resumed i) ∨ p = .asleep (s.resumed i))
    (hold : x.phase t = .entering s ∨ x.phase t = .inside s ∨ x.phase t = .asleep s)
    (hq : ∀ q, s = .setQmax q → 0 ≤ q ∧ 0 ≤ x.qmax)
    (hlock : (∃ s, x.phase t = .inside s) ∨ y.lock = x.lock)
    (hin : ∀ s, p = .inside s → y.lock = some t) : y.Kept stage l := by
  have howned : p.owned = (x.phase t).owned := by
    rcases hp with rfl | rfl | rfl <;> rcases hold with hold | hold | hold <;> simp [hold, owned]
  have htask : p.task = (x.phase t).task := by
    rcases hp with rfl | rfl | rfl <;> rcases hold with hold | hold | hold <;> simp [hold, task]
  have hgone : p.gone = (x.phase t).gone := by
    rcases hp with rfl | rfl | rfl <;> rcases hold with hold | hold | hold <;> simp [hold, gone]
  have hshrinks : p.Shrinks ↔ (x.phase t).Shrinks := by
    rcases hp with rfl | rfl | rfl <;> rcases hold with hold | hold | hold <;> simp [hold, Shrinks]
  have hfits := h.roles.fits t
  refine h.quiet hsame hphase ⟨?_, ?_, ?_⟩ ?_ (by rw [htask]) ?_ hshrinks hlock hin
  · rw [howned]
    exact hfits.owned
  · rw [htask]
    exact hfits.task
  · rw [hgone]
    exact hfits.gone
  · intro m k hk
    exact ⟨k, howned ▸ hk⟩
  · rintro q (rfl | rfl | rfl)
    all_goals
      have hs : Section.setQmax q = s.resumed i := by simpa using hp
      exact hq q ((s.resumed_setQmax i).mp hs.symm)

theorem Kept.waits {s : Section} (i : Bool)
    (hold : x.phase t = .inside (s.resumed i)) (hs : s.resumed false = s)
    (hq : ∀ q, s ≠ .setQmax q) (o : Outside) : (x.wait t s o).Kept stage l := by
  have hheld := h.clean.lock t _ hold
  rw [Connector.wait]
  split
  · exact h.proceeds true (.goes t _) rfl (.inr (.inl (by rw [s.resumed_resumed])))
      (.inr (.inl hold)) (by simp [hq]) (.inl ⟨_, hold⟩) fun _ _ => hheld
  · exact h.proceeds false ((Same.unlock hheld).trans (.goes t _)) rfl
      (.inr (.inr (by rw [s.resumed_resumed, hs]))) (.inr (.inl hold)) (by simp [hq])
      (.inl ⟨_, hold⟩) (by simp)

theorem Kept.netConnect (hold : x.phase t = .idle)
    (localaddr options udata : Bytes) (outUdatalen access : ℕ) :
    (x.netConnect t localaddr options udata outUdatalen access).Kept stage l := by
  rw [Connector.netConnect]
  split
  · exact h.refused hold _
  · have hfresh := h.roles.fresh (some x.frames) (le_refl _)
    have hother (n : Node) (hn : stage n ≠ .outside) : n ≠ some x.frames := by
      rintro rfl
      exact hn hfresh.1
    have hforeign (u : T) (n : Node) (k : Standing) (hk : (x.phase u).owned = some (n, k)) :
        n ≠ some x.frames := by
      rintro rfl
      exact hfresh.2 u k hk
    constructor
    case books =>
      refine ⟨h.books.ledger, fun n hn => ?_, fun n hn => ?_, h.books.queue, h.books.qsize,
        h.books.waiting⟩
      · have hne : n ≠ some x.frames := hother n fun hs => by
          rw [hs] at hn
          exact hn
        simpa [hne] using h.books.live n hn
      · have hne : n ≠ some x.frames := hother n fun hs => by
          rw [hs] at hn
          exact hn
        simpa [hne] using h.books.error n hn
    case roles =>
      have hphase (u : T) (hu : u ≠ t) :
          update x.phase t (.requesting (some x.frames)) u = x.phase u :=
        update_of_ne hu _ _
      have hmine : update x.phase t (.requesting (some x.frames)) t =
          .requesting (some x.frames) := update_self ..
      constructor
      case fits =>
        intro u
        change (update x.phase t _ u).Fits stage
        rcases eq_or_ne u t with rfl | hu
        · rw [hmine]
          exact fits_of_owned rfl hfresh.1 rfl rfl
        · rw [hphase u hu]
          exact h.roles.fits u
      case owner =>
        intro u v n k k' hk hk'
        change (update x.phase t _ u).owned = _ at hk
        change (update x.phase t _ v).owned = _ at hk'
        rcases eq_or_ne u t with rfl | hu <;> rcases eq_or_ne v u with rfl | hv
        · rfl
        · rw [hphase v hv] at hk'
          rw [hmine] at hk
          cases hk
          exact absurd hk' (hfresh.2 v k')
        · rfl
        · rw [hphase u hu] at hk
          rcases eq_or_ne v t with rfl | hvt
          · rw [hmine] at hk'
            cases hk'
            exact absurd hk (hfresh.2 u k)
          · rw [hphase v hvt] at hk'
            exact h.roles.owner u v n k k' hk hk'
      case worker =>
        have hback (u : T) (n : Node) (g : Progress)
            (hg : (update x.phase t (.requesting (some x.frames)) u).task = some (n, g)) :
            (x.phase u).task = some (n, g) := by
          rcases eq_or_ne u t with rfl | hu
          · rw [hmine] at hg
            cases hg
          · rwa [hphase u hu] at hg
        exact fun u v n g g' hg hg' => h.roles.worker u v n g g' (hback u n g hg) (hback v n g' hg')
      case worked =>
        intro n hn
        obtain ⟨u, g, hg⟩ := h.roles.worked n hn
        have hu : u ≠ t := by
          rintro rfl
          rw [hold] at hg
          cases hg
        exact ⟨u, g, by change (update x.phase t _ u).task = _; rwa [hphase u hu]⟩
      case present =>
        intro u n k hk
        change (update x.phase t _ u).owned = _ at hk
        change update x.live (some x.frames) true n = true
        rcases eq_or_ne u t with rfl | hu
        · rw [hmine] at hk
          cases hk
          exact update_self ..
        · rw [hphase u hu] at hk
          rw [update_of_ne (hforeign u n k hk)]
          exact h.roles.present u n k hk
      case fresh =>
        intro n hn
        have hold' : Fresh x.frames n ∧ n ≠ some x.frames := by
          cases n with
          | none => exact ⟨trivial, by simp⟩
          | some k =>
            have : x.frames + 1 ≤ k := hn
            exact ⟨Nat.le_of_succ_le this, fun hk => by cases hk; omega⟩
        obtain ⟨hstage, hfree⟩ := h.roles.fresh n hold'.1
        refine ⟨hstage, fun u k hk => ?_⟩
        change (update x.phase t _ u).owned = _ at hk
        rcases eq_or_ne u t with rfl | hu
        · rw [hmine] at hk
          cases hk
          exact hold'.2 rfl
        · rw [hphase u hu] at hk
          exact hfree u k hk
    case limits =>
      exact h.limits.move rfl rfl (Int.le_refl _) (by simp [Resizes]) False.elim
        fun hs => (by rw [hold] at hs; exact hs.elim)
    case clean =>
      exact h.clean.move rfl (.inr rfl) (by simp) (fun _ _ => id) (fun _ => .inl) rfl rfl

theorem Kept.start (hold : x.phase t = .idle) {c : Call}
    (hc : x.Orderly (.call t c)) : (x.start t c).Kept stage l := by
  have hnone (s : Section) (hs : ∀ q, s ≠ .setQmax q) (q : ℤ) :
      (entering s).Resizes q → 0 ≤ q ∧ 0 ≤ x.qmax := by
    rintro (hq | hq | hq)
    · exact absurd (entering.inj hq) (hs q)
    · cases hq
    · cases hq
  cases c with
  | netConnect localaddr options udata outUdatalen access => exact h.netConnect hold ..
  | netListen mode udatalen =>
    rw [Connector.start, Connector.netListen]
    split
    · exact h.refused hold _
    · exact h.calls hold (Blank.listen ..).1 (by simp) (hnone _ (by simp))
  | netAccept a =>
    rw [Connector.start, Connector.netAccept]
    split
    · exact h.refused hold _
    · exact h.calls hold ⟨rfl, rfl, rfl, id⟩ (by simp) (hnone _ (by simp))
  | netReject seqno udata =>
    exact h.calls hold ⟨rfl, rfl, rfl, id⟩ (by simp) (hnone _ (by simp))
  | netSetConnectQmax qmax =>
    rw [Connector.start, Connector.netSetConnectQmax]
    split
    · exact h.refused hold _
    · rename_i hq
      refine h.calls hold ⟨rfl, rfl, rfl, id⟩ (by simp) ?_
      rintro q (hq' | hq' | hq')
      · cases hq'
        exact ⟨hc (by omega), by omega⟩
      · cases hq'
      · cases hq'

end

end Connector

end MachUS.Pipenet

namespace MachUS.Pipenet.Connector

variable {T : Type} [DecidableEq T] {x y : Connector T} {stage : Node → Stage} {l : List Node}
variable {t : T} {p : Phase} {n : Node}

section

variable (h : x.Kept stage l)

include h

theorem Kept.owner_goes {j k : Standing}
    (hold : (x.phase t).owned = some (n, j)) (hshrinks : ¬(x.phase t).Shrinks)
    (hnone : (x.phase t).task = none) (hsame : x.Same y)
    (hphase : y.phase = Function.update x.phase t p) (hp : p.owned = some (n, k))
    (hk : k.Allows (stage n)) (htask : p.task = none) (hgone : p.gone = []) (hps : ¬p.Shrinks)
    (hasked : ∀ q, p.Resizes q → 0 ≤ q ∧ 0 ≤ x.qmax)
    (hlock : (∃ s, x.phase t = .inside s) ∨ y.lock = x.lock) (hin : ∀ s, p ≠ .inside s) :
    y.Kept stage l := by
  refine h.quiet hsame hphase (Phase.fits_of_owned hp hk htask hgone) ?_ ?_ hasked
    (iff_of_false hps hshrinks) hlock fun s hs => absurd hs (hin s)
  · intro m k' hk'
    rw [hp] at hk'
    cases hk'
    exact ⟨j, hold⟩
  · rw [htask, hnone]

theorem Kept.advance {s' : Stage} {l' : List Node}
    (hbooks : y.Books (Function.update stage n s') l')
    (hphase : y.phase = Function.update x.phase t p) (hlive : y.live = x.live)
    (hframes : y.frames = x.frames) (hs : (stage n).Advance s')
    (hp : p.Fits (Function.update stage n s'))
    (howned : ∀ m k, p.owned = some (m, k) → ∃ k', (x.phase t).owned = some (m, k'))
    (hbefore : ∀ m g, (x.phase t).task = some (m, g) → m = n)
    (hafter : ∀ m g, p.task = some (m, g) → m = n)
    (hmine : (stage n).Held → ∃ g, (x.phase t).task = some (n, g))
    (hheld : s'.Held → ∃ g, p.task = some (n, g))
    (hqmax : y.qmax = x.qmax) (hqsize : y.qsize ≤ x.qsize)
    (hasked : ∀ q, p.Resizes q → 0 ≤ q ∧ 0 ≤ x.qmax) (hshrinking : p.Shrinks → 0 ≤ x.qmax)
    (hbound : (x.phase t).Shrinks → p.Shrinks ∨ y.qsize ≤ y.qmax)
    (hlock : (∃ s, x.phase t = .inside s) ∨ y.lock = x.lock)
    (hin : ∀ s, p = .inside s → y.lock = some t)
    (hreports : ∀ r ∈ y.reports, r ∈ x.reports ∨
      ∃ c, Function.update stage n s' r.node = .settled c ∧ (c = .success → r.code = .success))
    (hstrays : y.strays = x.strays) (hmisreleases : y.misreleases = x.misreleases) :
    y.Kept (Function.update stage n s') l' where
  books := hbooks
  roles := h.roles.advance hphase hlive hframes hs hp howned hbefore hafter hmine hheld
  limits := h.limits.move hphase hqmax hqsize hasked hshrinking hbound
  clean := by
    refine h.clean.move hphase hlock hin (fun m c hm => ?_) hreports hstrays hmisreleases
    rcases eq_or_ne m n with rfl | hne
    · exact absurd hm (hs.not_settled c)
    · rw [Function.update_of_ne hne, hm]

theorem Kept.request (hold : x.phase t = .requesting n) (code : Code) :
    (x.request t n code).Kept stage l := by
  have hstage : stage n = .outside := (h.roles.fits t).owned n .outside (by rw [hold]; rfl)
  rw [Connector.request]
  split
  · exact h.owner_goes (by rw [hold]; rfl) (by rw [hold]; exact id) (by rw [hold]; rfl) (.goes t _)
      rfl rfl hstage rfl rfl id (by simp [Phase.Resizes]) (.inr rfl) (by simp)
  · refine h.owner_goes (by rw [hold]; rfl) (by rw [hold]; exact id) (by rw [hold]; rfl) (.goes t _)
      rfl rfl (k := .leaves) ?_ rfl rfl id (by simp [Phase.Resizes]) (.inr rfl) (by simp)
    rw [hstage]
    exact id

theorem Kept.announce (hold : x.phase t = .announcing n) :
    (x.goes t (.entering (.await n false))).Kept stage l := by
  have hstage : stage n ≠ .outside := (h.roles.fits t).owned n .waits (by rw [hold]; rfl)
  exact h.owner_goes (by rw [hold]; rfl) (by rw [hold]; exact id) (by rw [hold]; rfl) (.goes t _)
    rfl rfl hstage rfl rfl id (by simp [Phase.Resizes]) (.inr rfl) (by simp)

theorem Kept.enqueue (hold : x.phase t = .inside (.enqueue n)) : (x.enqueue t n).Inv := by
  have hheld := h.clean.lock t _ hold
  have howned : (x.phase t).owned = some (n, .outside) := by rw [hold]; rfl
  have hstage : stage n = .outside := (h.roles.fits t).owned n .outside howned
  rw [Connector.enqueue]
  split
  · refine ⟨stage, l, h.owner_goes (k := .leaves) howned (by rw [hold]; exact id)
      (by rw [hold]; rfl) (((Same.unlock hheld).trans (.write rfl)).trans (.goes t _)) rfl rfl ?_
      rfl rfl id (by simp [Phase.Resizes]) (.inl ⟨_, hold⟩) (by simp)⟩
    rw [hstage]
    exact id
  · rename_i hroom
    have hname : n ≠ none := by
      rintro rfl
      exact (h.roles.fresh none trivial).2 t _ howned
    have hunwritten : (x.write n fun i =>
        { i with state := .listening, seqno := x.seqnoSeed, error := .objectNotStarted }).Books
        stage l := by
      refine ⟨h.books.ledger, h.books.live, fun m hm => ?_, h.books.queue, h.books.qsize,
        h.books.waiting⟩
      rcases eq_or_ne m n with rfl | hne
      · simp [write]
      · simp [write, hne, h.books.error m hm]
    have hbooks := hunwritten.enter hstage (h.roles.present t n _ howned) (by simp [write]) hname
    refine ⟨Function.update stage n .waiting, l ++ [n], ?_, ?_, ?_, ?_⟩
    · exact ⟨hbooks.ledger, hbooks.live, hbooks.error, hbooks.queue, hbooks.qsize, hbooks.waiting⟩
    · refine h.roles.move (t := t) rfl rfl rfl ?_ ?_ ?_ ?_ ?_ ?_
      · exact fun u hu => (h.roles.fits u).enters hstage fun k hk =>
          hu (h.roles.owner u t n k _ hk howned)
      · exact Phase.fits_of_owned rfl (by simp [Standing.Allows]) rfl rfl
      · intro m k hk
        cases hk
        exact ⟨_, howned⟩
      · intro m g hg
        cases hg
      · intro m hm
        rcases eq_or_ne m n with rfl | hne
        · rw [Function.update_self] at hm
          exact hm.elim
        · rw [Function.update_of_ne hne] at hm
          obtain ⟨u, g, hg⟩ := h.roles.worked m hm
          refine .inr ⟨u, g, ?_, hg⟩
          rintro rfl
          rw [hold] at hg
          cases hg
      · intro m hm
        have hne : m ≠ n := by
          rintro rfl
          exact (h.roles.fresh m hm).2 t _ howned
        rw [Function.update_of_ne hne]
        exact (h.roles.fresh m hm).1
    · constructor
      case asked =>
        intro u q hu
        change (Function.update x.phase t _ u).Resizes q at hu
        rcases eq_or_ne u t with rfl | hne
        · rw [Function.update_self] at hu
          simp [Phase.Resizes] at hu
        · rw [Function.update_of_ne hne] at hu
          exact h.limits.asked u q hu
      case shrinking =>
        intro u hu
        change (Function.update x.phase t _ u).Shrinks at hu
        rcases eq_or_ne u t with rfl | hne
        · rw [Function.update_self] at hu
          exact hu.elim
        · rw [Function.update_of_ne hne] at hu
          exact h.limits.shrinking u hu
      case bound =>
        change _ ∨ x.qsize + 1 ≤ x.qmax ∨ _
        exact .inr (.inl (by omega))
    · refine h.clean.move (t := t) rfl (.inl ⟨_, hold⟩) (by simp) ?_ (fun _ => .inl) rfl
        (released hheld)
      intro m c hm
      have hne : m ≠ n := by
        rintro rfl
        cases hstage.symm.trans hm
      rw [Function.update_of_ne hne, hm]

theorem Kept.leave (hold : x.phase t = .leaving n)
    (horderly : (x.ledger n).outcomes ≠ [] → (x.ledger n).notices ≠ 0) :
    (x.leave t n).Kept stage l := by
  have howned : (x.phase t).owned = some (n, .leaves) := by rw [hold]; rfl
  have hclosed : ¬(stage n).Open := by
    have hpending : ¬(stage n).Pending := (h.roles.fits t).owned n .leaves howned
    rw [h.books.ledger] at horderly
    cases hs : stage n with
    | outside | settled _ => exact id
    | waiting | taken =>
      rw [hs] at hpending
      exact absurd trivial hpending
    | answered c =>
      rw [hs] at horderly
      exact absurd rfl (horderly (by simp [Stage.ledger]))
  have hidle : (x.goes t .idle).Kept stage l := by
    refine h.quiet (.goes t _) rfl Phase.Blank.idle.fits ?_ ?_ (by simp [Phase.Resizes])
      (iff_of_false id (by rw [hold]; exact id)) (.inr rfl) (by simp)
    · intro m k hk
      cases hk
    · rw [hold]
      rfl
  refine ⟨⟨hidle.books.ledger, fun m hm => ?_, hidle.books.error, hidle.books.queue,
    hidle.books.qsize, hidle.books.waiting⟩, ⟨hidle.roles.fits, hidle.roles.owner,
    hidle.roles.worker, hidle.roles.worked, fun u m k hk => ?_, hidle.roles.fresh⟩,
    ⟨hidle.limits.asked, hidle.limits.shrinking, hidle.limits.bound⟩,
    ⟨hidle.clean.lock, hidle.clean.reports, hidle.clean.strays, hidle.clean.misreleases⟩⟩
  · have hne : m ≠ n := by
      rintro rfl
      exact hclosed hm
    change Function.update x.live n false m = true
    rw [Function.update_of_ne hne]
    exact h.books.live m hm
  · change Function.update x.live n false m = true
    change (Function.update x.phase t .idle u).owned = _ at hk
    have hu : u ≠ t := by
      rintro rfl
      rw [Function.update_self] at hk
      cases hk
    rw [Function.update_of_ne hu] at hk
    have hne : m ≠ n := by
      rintro rfl
      exact hu (h.roles.owner u t m k _ hk howned)
    rw [Function.update_of_ne hne]
    exact h.roles.present u m k hk

theorem Kept.await {i : Bool} (hold : x.phase t = .inside (.await n i))
    (horderly : i = true → (x.record n).error = .objectNotStarted → (x.ledger n).removals = 0)
    (o : Outside) : (x.await t n i o).Inv := by
  have hheld := h.clean.lock t _ hold
  have howned : (x.phase t).owned = some (n, .waits) := by rw [hold]; rfl
  have hstage : stage n ≠ .outside := (h.roles.fits t).owned n .waits howned
  rw [Connector.await]
  split
  · rename_i herror
    split
    · rename_i hi
      have hwaiting : stage n = .waiting := by
        have hremovals := horderly hi herror
        rw [h.books.ledger] at hremovals
        cases hs : stage n with
        | waiting => rfl
        | outside => exact absurd hs hstage
        | _ =>
          rw [hs] at hremovals
          exact absurd hremovals (by simp [Stage.ledger])
      have hremoved := h.books.remove hwaiting
      have hsettled := hremoved.settle (Function.update_self ..) .exceptSoftware
      have hbooks := hsettled.notify (Function.update_self ..)
      rw [Function.update_idem, Function.update_idem] at hbooks
      refine ⟨_, _, h.advance (t := t) (p := .leaving n)
        ⟨hbooks.ledger, hbooks.live, hbooks.error, hbooks.queue, hbooks.qsize, hbooks.waiting⟩
        rfl rfl rfl (hwaiting ▸ .withdraw .exceptSoftware) (Phase.fits_of_owned rfl ?_ rfl rfl) ?_ ?_ ?_ ?_ ?_
        rfl ?_ (by simp [Phase.Resizes]) False.elim (by rw [hold]; exact False.elim)
        (.inl ⟨_, hold⟩) (by simp) (fun _ => .inl) rfl (released hheld)⟩
      · rw [Function.update_self]
        exact id
      · intro m k hk
        cases hk
        exact ⟨_, howned⟩
      · intro m g hg
        rw [hold] at hg
        cases hg
      · intro m g hg
        cases hg
      · intro hh
        rw [hwaiting] at hh
        exact hh.elim
      · exact False.elim
      · change x.qsize - 1 ≤ x.qsize
        omega
    · exact ⟨stage, l, h.waits i hold rfl (by simp) o⟩
  · rename_i herror
    refine ⟨stage, l, h.owner_goes (k := .leaves) howned (by rw [hold]; exact id)
      (by rw [hold]; rfl) ((Same.unlock hheld).trans (.goes t _)) rfl rfl ?_
      rfl rfl id (by simp [Phase.Resizes]) (.inl ⟨_, hold⟩) (by simp)⟩
    exact fun hpending => herror (h.books.error n hpending)

end

end MachUS.Pipenet.Connector
