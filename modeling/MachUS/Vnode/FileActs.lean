import MachUS.Vnode.FileSteps

namespace MachUS.Vnode

open List

namespace Server

section Views

variable {T : Type} {x y : Server T} {p : Option T} {q : Phase} {c : Call} {t : T} {i : Hold}
  {a : NsAccess} {g : VnFile}

theorem Kept.writers_nonneg (h : x.Kept) : 0 ≤ x.file.numWriters := by
  rw [h.writers]
  exact Int.natCast_nonneg _

theorem Scans.beside (h : x.Scans q) (hstate : x.file.state = .fileMustClean →
      y.file.state = .fileMustClean)
    (hwritable : x.file.writable = true → y.file.writable = true) (hdirty : y.dirty = x.dirty)
    (hfresh : y.fresh = x.fresh) (hdestroys : ¬ q.destroys) : y.Scans q := by
  refine ⟨fun hq => hstate (h.cleans hq), fun hq hy => hwritable (h.begun hq (hfresh ▸ hy)),
    fun hq hy => ?_, fun hq => (hdestroys hq).elim, fun hq => (hdestroys (.inr (.inr hq))).elim⟩
  rw [hdirty] at hy
  rw [hfresh]
  exact h.cleaned hq hy

theorem Kept.reference (h : x.Kept) (hfile : y.file = x.file.vnReference)
    (hheld : y.held = (t, .reference) :: x.held) (hdirty : y.dirty = x.dirty)
    (hfresh : y.fresh = x.fresh) : y.Kept := by
  constructor
  · rw [hfile, hheld, length_cons, Int.natCast_add]
    exact congrArg (· + 1) h.refs
  · rw [hfile, hheld, countP_cons_of_neg (by simp [Hold.writes, Hold.access, NsAccess.none])]
    exact h.writers
  · rw [hfile]
    exact h.marked
  · rw [hfile]
    exact h.cleanable
  · rw [hfile]
    exact h.started
  · rw [hfile, hdirty]
    exact h.safe
  · rw [hdirty, hfresh]
    exact h.fresh

theorem Kept.register (h : x.Kept) (hg : x.file.Registered g a) (hfile : y.file = g)
    (hheld : y.held = (t, .agent a) :: x.held) (hdirty : y.dirty = x.dirty)
    (hfresh : y.fresh = x.fresh) : y.Kept := by
  have hstarted (hwriters : 0 < g.numWriters) : g.ioActive = true ∧ g.writable = true := by
    rw [hg.ioActive, hg.writable]
    rw [hg.writers] at hwriters
    cases hwrite : a.write with
    | true =>
      have hperforms : a.performsIo = true := by simp [NsAccess.performsIo, hwrite]
      rw [hperforms, Bool.or_true, Bool.or_true]
      exact ⟨rfl, rfl⟩
    | false =>
      rw [hwrite, if_neg Bool.false_ne_true] at hwriters
      obtain ⟨hactive, hwritable⟩ := h.started hwriters
      rw [hactive, hwritable]
      exact ⟨rfl, rfl⟩
  subst hfile
  constructor
  · rw [hg.refs, hheld, length_cons, Int.natCast_add, h.refs]
    rfl
  · rw [hg.writers, hheld, countP_cons, h.writers]
    change _ = ((_ + if a.write = true then 1 else 0 : ℕ) : ℤ)
    split_ifs
    · rfl
    · rfl
  · intro _ hwriters
    exact hg.cleans (hstarted hwriters).1 hwriters
  · intro hstate
    refine (hg.cleaned hstate).elim id fun hx => ?_
    rw [hg.ioActive, h.cleanable hx, Bool.true_or]
  · exact hstarted
  · intro htemporary hy
    exact hg.stays (h.safe (hg.temporary ▸ htemporary) (hdirty ▸ hy))
  · rw [hdirty, hfresh]
    exact h.fresh

theorem Kept.unregister [DecidableEq T] (h : x.Kept) (hg : x.file.Unregistered g i.access)
    (hi : (t, i) ∈ x.held) (hfile : y.file = g) (hheld : y.held = x.held.erase (t, i))
    (hdirty : y.dirty = x.dirty) (hfresh : y.fresh = x.fresh) : y.Kept := by
  have hfewer : g.numWriters ≤ x.file.numWriters := by
    rw [hg.writers]
    split_ifs <;> omega
  subst hfile
  constructor
  · rw [hg.refs, hheld, length_erase_of_mem hi, h.refs]
    have := length_pos_of_mem hi
    omega
  · rw [hg.writers, hheld, countP_erase, h.writers]
    cases hwrites : i.access.write with
    | true =>
      have hpos : 0 < x.held.countP fun e => e.2.writes := countP_pos_iff.mpr ⟨(t, i), hi, hwrites⟩
      rw [if_pos rfl, if_pos ⟨hi, hwrites⟩]
      omega
    | false =>
      rw [if_neg Bool.false_ne_true, if_neg (by simp [Hold.writes, hwrites]), Nat.sub_zero]
  · intro htemporary hwriters
    exact hg.state.mpr (h.marked (hg.temporary ▸ htemporary) (by omega))
  · intro hstate
    rw [hg.ioActive]
    exact h.cleanable (hg.state.mp hstate)
  · intro hwriters
    rw [hg.ioActive, hg.writable]
    exact h.started (by omega)
  · intro htemporary hy
    exact hg.state.mpr (h.safe (hg.temporary ▸ htemporary) (hdirty ▸ hy))
  · rw [hdirty, hfresh]
    exact h.fresh

theorem Kept.markTemporary (h : x.Kept) (hfile : y.file = x.file.vnMarkTemporary)
    (hheld : y.held = x.held) (hdirty : y.dirty = x.dirty) (hfresh : y.fresh = x.fresh) : y.Kept :=
  h.refile hfile hheld hdirty hfresh ⟨rfl, rfl⟩ nofun h.cleanable h.started nofun

theorem Kept.markPermanent (h : x.Kept)
    (hordered : x.file.temporary = true → x.file.numWriters = 0 →
      x.file.state ≠ .fileMustClean → x.dirty = false)
    (hfile : y.file = x.file.vnMarkPermanent) (hheld : y.held = x.held)
    (hdirty : y.dirty = x.dirty) (hfresh : y.fresh = x.fresh) : y.Kept := by
  have hsame : (y.file = { x.file with temporary := false } ∧ ¬ 0 < x.file.numWriters) ∨
      (y.file = { x.file with temporary := false, state := .fileMustClean } ∧
        0 < x.file.numWriters) := by
    rw [hfile, VnFile.vnMarkPermanent]
    split_ifs with hwriters
    · exact .inr ⟨rfl, hwriters⟩
    · exact .inl ⟨rfl, hwriters⟩
  rcases hsame with ⟨hfile, hnone⟩ | ⟨hfile, hsome⟩
  · have hzero : x.file.numWriters = 0 := by
      have := h.writers_nonneg
      omega
    refine h.refile hfile hheld hdirty hfresh ⟨rfl, rfl⟩ (fun _ hy => (hnone hy).elim) h.cleanable
      h.started fun _ hy => ?_
    cases htemporary : x.file.temporary with
    | false => exact h.safe htemporary hy
    | true =>
      by_contra hstate
      have := hordered htemporary hzero hstate
      rw [hy] at this
      cases this
  · exact h.refile hfile hheld hdirty hfresh ⟨rfl, rfl⟩ (fun _ _ => rfl)
      (fun _ => (h.started hsome).1) h.started fun _ _ => rfl

theorem Inv.alive (h : x.Inv) (hp : x.phase p = q) (hidle : q ≠ .idle)
    (hlook : q ≠ .waiting .lookup) : x.destroyed = false := by
  cases hx : x.destroyed with
  | false => rfl
  | true =>
    rcases (h.gone hx).phase p with hphase | hphase
    · exact (hidle (hp.symm.trans hphase)).elim
    · exact (hlook (hp.symm.trans hphase)).elim

end Views

variable {T : Type} [DecidableEq T] {x y : Server T} {p : Option T} {q : Phase} {c : Call} {t : T}
  {a : NsAccess} {g : VnFile} {l : List (T × Hold)} {ok : Bool}

theorem Inv.serve (h : x.Inv) (hp : x.phase (some t) = .locked c) (hc : c ≠ .markTemporary)
    (hheld : ∀ u, u ≠ t → ∀ i, (u, i) ∈ x.held → (u, i) ∈ l)
    (hkept : ({ x with held := l }.release (some t) g (.leaving false)).Kept)
    (hstate : x.file.state = .fileMustClean → g.state = .fileMustClean)
    (hwritable : x.file.writable = true → g.writable = true) :
    ({ x with held := l }.release (some t) g (.leaving false)).Inv := by
  have hmine : (x.phase (some t)).holdsEntry = true := by
    rw [hp]
    exact decide_eq_true hc
  have hdestroys : ¬ (x.phase none).destroys := by
    intro hd
    have hscan : (x.phase none).holdsEntry = true := by
      rcases hd with hd | hd | hd <;> rw [hd] <;> rfl
    exact Option.some_ne_none t (h.entry.unique hmine hscan)
  have halive : x.destroyed = false := h.alive hp (by simp) (by simp)
  refine h.move rfl (h.entry.same hmine.symm) (h.vn.free (by rw [hp]; rfl) rfl)
    (fun u hu i hi => hheld u (fun heq => hu (congrArg some heq)) i hi) (fun hy => Bool.noConfusion hy)
    hkept ?_ (fun hy => ?_) h.critical
  · change Scans _ (Function.update x.phase (some t) (.leaving false) none)
    rw [Function.update_of_ne (Option.some_ne_none t).symm]
    exact h.scans.beside hstate hwritable rfl rfl hdestroys
  · exact absurd (halive.symm.trans hy) Bool.false_ne_true

end Server

namespace VnFile

theorem cleanStarts_eq (f : VnFile) : f.cleanStarts =
    { f with writable := if f.numWriters = 0 then false else f.writable } := by
  unfold cleanStarts
  split_ifs <;> rfl

theorem vnDestroy_cases (f : VnFile) (ok : Bool) : f.vnDestroy ok = (false, f) ∨
    f.vnRefcount = 0 ∧ ∃ b, f.vnDestroy ok = (true, { f with ioActive := b }) := by
  unfold vnDestroy
  split_ifs with hrefs hactive hok
  · exact .inr ⟨hrefs, false, rfl⟩
  · exact .inl rfl
  · exact .inr ⟨hrefs, f.ioActive, rfl⟩
  · exact .inl rfl

end VnFile

namespace Server

section Views

variable {T : Type} {x y : Server T} {f : VnFile} {s : AotState} {w : Bool}

theorem Kept.unreferenced (h : x.Kept) (hrefs : x.file.vnRefcount = 0) : x.held = [] := by
  refine length_eq_zero_iff.mp ?_
  have := h.refs
  omega

theorem Kept.unwritten (h : x.Kept) (hrefs : x.file.vnRefcount = 0) : x.file.numWriters = 0 := by
  rw [h.writers, h.unreferenced hrefs]
  rfl

theorem Kept.rewrite (h : x.Kept) (hfile : y.file = { x.file with state := s, writable := w })
    (hheld : y.held = x.held) (hdirty : y.dirty = x.dirty) (hfresh : y.fresh = x.fresh)
    (hmarked : x.file.temporary = false → 0 < x.file.numWriters → s = .fileMustClean)
    (hcleanable : s = .fileMustClean → x.file.ioActive = true)
    (hwritable : 0 < x.file.numWriters → w = true)
    (hsafe : x.file.temporary = false → x.dirty = true → s = .fileMustClean) : y.Kept :=
  h.refile hfile hheld hdirty hfresh ⟨rfl, rfl⟩ hmarked hcleanable
    (fun hy => ⟨(h.started hy).1, hwritable hy⟩) hsafe

end Views

variable {T : Type} [DecidableEq T] {x y : Server T} {p : Option T} {q : Phase} {c : Call} {t : T}
  {f : VnFile} {w ok : Bool}

theorem Inv.sweep (h : x.Inv) (hp : x.phase none = .locked c) (hc : c ≠ .markTemporary)
    (hq : q.holdsEntry = true) (hfile : q.holdsFile = false)
    (hkept : (x.release none f q).Kept) (hfits : (x.release none f q).Fits none q)
    (hscans : (x.release none f q).Scans q) : (x.release none f q).Inv := by
  have hmine : (x.phase none).holdsEntry = true := by
    rw [hp]
    exact decide_eq_true hc
  have halive : x.destroyed = false := h.alive hp (by simp) (by simp)
  refine h.move rfl (h.entry.same (hq.trans hmine.symm)) (h.vn.free (by rw [hp]; rfl) hfile)
    (fun u _ i hi => hi) hfits hkept ?_ (fun hy => ?_) h.critical
  · change Scans _ (Function.update x.phase none q none)
    rw [Function.update_self]
    exact hscans
  · exact absurd (halive.symm.trans hy) Bool.false_ne_true

theorem Inv.settle (h : x.Inv) (hp : x.phase none = .locked c) (hcleans : (x.phase none).cleans)
    (hc : c ≠ .markTemporary) (hf : f = { x.file with writable := w })
    (hwritable : 0 < x.file.numWriters → w = true)
    (hsafe : x.file.temporary = false → x.file.vnRefcount = 0 ∨ w = false → x.dirty = false) :
    (x.settle none f).Inv := by
  have hstate : x.file.state = .fileMustClean := h.scans.cleans hcleans
  have hactive : x.file.ioActive = true := h.kept.cleanable hstate
  have hclean (hfree : x.file.vnRefcount = 0 ∨ w = false) (htemporary : x.file.temporary = false)
      {P : Prop} (hdirty : x.dirty = true) : P := by
    have := hsafe htemporary hfree
    rw [hdirty] at this
    cases this
  have hstill : ∀ y : Server T, y.Scans (.leaving false) := fun y =>
    scans_of_still rfl (by simp) (by simp) (by simp)
  have hdone {s : AotState} (hmarked : x.file.temporary = false → 0 < x.file.numWriters →
      s = .fileMustClean) (hdirty : x.file.temporary = false → x.dirty = true → s = .fileMustClean) :
      (x.release none { x.file with writable := w, state := s } (.leaving false)).Inv :=
    h.sweep hp hc rfl rfl (h.kept.rewrite rfl rfl rfl rfl hmarked (fun _ => hactive) hwritable hdirty)
      (fun hq => Bool.noConfusion hq) (hstill _)
  subst hf
  unfold Server.settle VnFile.cleanEnds
  by_cases hrefs : x.file.vnRefcount = 0
  · rw [if_pos hrefs, if_pos hactive]
    have hnone := h.kept.unwritten hrefs
    exact hdone (fun _ hy => absurd hy (by omega)) fun ht => hclean (.inl hrefs) ht
  · rw [if_neg hrefs]
    split_ifs with hidle
    · refine hdone (fun ht hy => ?_) fun ht hdirty => ?_
      · rw [Bool.or_eq_true, Bool.not_eq_true', ht, hwritable hy] at hidle
        exact absurd hidle (by simp)
      · rcases Bool.or_eq_true_iff.mp hidle with hw | htemporary
        · exact hclean (.inr (by simpa using hw)) ht hdirty
        · rw [ht] at htemporary
          cases htemporary
    · have := hdone (s := x.file.state) (fun _ _ => hstate) fun _ _ => hstate
      exact this

theorem Inv.clean (h : x.Inv) (hp : x.phase none = .locked .clean) :
    (x.perform none ok .clean).Inv := by
  have hcleans : (x.phase none).cleans := .inl (by rw [hp]; rfl)
  have hstate : x.file.state = .fileMustClean := h.scans.cleans hcleans
  have hwritable : 0 < x.file.numWriters →
      (if x.file.numWriters = 0 then false else x.file.writable) = true := by
    intro hwriters
    rw [if_neg (by omega)]
    exact (h.kept.started hwriters).2
  simp only [perform]
  split_ifs with htemporary
  · refine h.settle hp hcleans (by simp) x.file.cleanStarts_eq hwritable fun ht => ?_
    rw [htemporary] at ht
    cases ht
  · rw [x.file.cleanStarts_eq]
    refine h.sweep hp (by simp) rfl rfl (h.kept.rewrite rfl rfl rfl rfl (fun _ _ => hstate)
      h.kept.cleanable hwritable fun _ _ => hstate) (fun _ => rfl) ?_
    refine ⟨fun _ => hstate, fun hq => ?_, fun hq => (by cases hq), fun hq => ?_, fun hq => (by cases hq)⟩
    · rcases hq with hq | ⟨_, hq⟩ <;> cases hq
    · rcases hq with hq | hq | hq <;> cases hq

theorem Inv.destroy (h : x.Inv) (hp : x.phase none = .locked .destroy) :
    (x.perform none ok .destroy).Inv := by
  have hstate : x.file.state = .inactive := h.scans.destroys (.inr (.inl hp))
  have hkept {b : Bool} (hb : x.file.vnRefcount = 0 ∨ b = x.file.ioActive) {q : Phase} :
      (x.release none { x.file with ioActive := b } q).Kept := by
    refine ⟨h.kept.refs, h.kept.writers, h.kept.marked, fun hy => ?_, fun hy => ?_, h.kept.safe,
      h.kept.fresh⟩
    · cases hstate.symm.trans hy
    · rcases hb with hrefs | rfl
      · have hnone := h.kept.unwritten hrefs
        change 0 < x.file.numWriters at hy
        omega
      · exact h.kept.started hy
  have hbusy : (x.release none x.file (.leaving false)).Inv :=
    h.sweep hp (by simp) rfl rfl (hkept (.inr rfl)) (fun hq => Bool.noConfusion hq)
      (scans_of_still rfl (by simp) (by simp) (by simp))
  have hfreeing {b : Bool} (hrefs : x.file.vnRefcount = 0) :
      (x.release none { x.file with ioActive := b } .freeing).Inv := by
    refine h.sweep hp (by simp) rfl rfl (hkept (.inl hrefs)) rfl ⟨fun hq => ?_, fun hq => ?_,
      fun hq => (by cases hq), fun _ => hstate, fun _ => h.kept.unreferenced hrefs⟩
    · rcases hq with hq | hq | hq | ⟨_, hq⟩ <;> cases hq
    · rcases hq with hq | ⟨_, hq⟩ <;> cases hq
  simp only [perform]
  rcases x.file.vnDestroy_cases ok with hresult | ⟨hrefs, b, hresult⟩
  · rw [hresult]
    exact hbusy
  · rw [hresult]
    exact hfreeing hrefs

end Server

end MachUS.Vnode
