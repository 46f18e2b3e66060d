import MachUS.Vnode.FileActs

namespace MachUS.Vnode

open Function Option

namespace Server

variable {T : Type} [DecidableEq T] {x y : Server T} {p : Option T} {q : Phase} {c : Call} {t u : T}
  {i : Hold} {ok : Bool} {e : Event T}

section

variable (h : x.Inv)

include h

theorem Inv.markTemporary (hp : x.phase (some t) = .locked .markTemporary) :
    (x.perform (some t) ok .markTemporary).Inv := by
  have halive : x.destroyed = false := h.alive hp (by simp) (by simp)
  refine h.move rfl (h.entry.same (by rw [hp]; rfl)) (h.vn.free (by rw [hp]; rfl) rfl)
    (fun u _ i hi => hi) trivial (h.kept.markTemporary rfl rfl rfl rfl) ?_ (fun hy => ?_) h.critical
  · change Scans _ (update x.phase (some t) .idle none)
    rw [update_of_ne (some_ne_none t).symm]
    exact ⟨h.scans.cleans, h.scans.begun, h.scans.cleaned, h.scans.destroys, h.scans.freeing⟩
  · exact absurd (halive.symm.trans hy) Bool.false_ne_true

theorem Inv.register {a : NsAccess} (hp : x.phase (some t) = .locked (.registerAgent a)) :
    (x.perform (some t) ok (.registerAgent a)).Inv := by
  simp only [perform]
  cases hg : x.file.nsRegisterAgent a ok with
  | none =>
    have hkept : (x.release (some t) x.file (.leaving false)).Kept := h.kept.alike ⟨rfl, rfl, rfl, rfl⟩
    exact h.serve hp (by simp) (fun _ _ _ hi => hi) hkept id id
  | some g =>
    have hspec := VnFile.nsRegisterAgent_registered hg
    refine h.serve hp (by simp) (fun _ _ _ hi => List.mem_cons_of_mem _ hi)
      (h.kept.register hspec rfl rfl rfl rfl) hspec.stays fun hw => ?_
    rw [hspec.writable, hw, Bool.true_or]

theorem Inv.unregister (hp : x.phase (some t) = .locked (.unregister i)) :
    (x.perform (some t) ok (.unregister i)).Inv := by
  have hi : (t, i) ∈ x.held := by
    have := h.fits (some t)
    rw [hp] at this
    exact this
  obtain ⟨g, hg, hspec⟩ := VnFile.nsUnregisterAgent_unregistered (a := i.access) h.kept.cleanable
  simp only [perform, hg]
  refine h.serve hp (by simp) (fun u hu j hj => ?_) (h.kept.unregister hspec hi rfl rfl rfl rfl)
    hspec.state.mpr fun hw => ?_
  · exact (List.mem_erase_of_ne fun heq => hu (congrArg Prod.fst heq)).mpr hj
  · rw [hspec.writable]
    exact hw

theorem Inv.markPermanent (hp : x.phase (some t) = .locked .markPermanent)
    (hordered : Orderly x (.act (some t) ok)) : (x.perform (some t) ok .markPermanent).Inv := by
  rw [Orderly, hp] at hordered
  have hstays : x.file.state = .fileMustClean → x.file.vnMarkPermanent.state = .fileMustClean := by
    intro hstate
    unfold VnFile.vnMarkPermanent
    split_ifs
    · rfl
    · exact hstate
  have hwritable : x.file.vnMarkPermanent.writable = x.file.writable := by
    unfold VnFile.vnMarkPermanent
    split_ifs <;> rfl
  exact h.serve hp (by simp) (fun _ _ _ hi => hi) (h.kept.markPermanent hordered rfl rfl rfl rfl)
    hstays fun hw => hwritable.trans hw

theorem Inv.settles {done : Bool} (hp : x.phase none = .locked (.settle done))
    (hordered : Orderly x (.act none ok)) : (x.perform none ok (.settle done)).Inv := by
  rw [Orderly, hp] at hordered
  have hcall : (x.phase none).call = some (.settle done) := by
    rw [hp]
    rfl
  refine h.settle hp (.inr (.inr (.inr ⟨done, hcall⟩))) (by simp) rfl
    (fun hw => (h.kept.started hw).2) fun ht hfree => ?_
  obtain ⟨hunread, hfailed⟩ := hordered ht
  cases hdirty : x.dirty with
  | false => rfl
  | true =>
    cases done with
    | false => exact hdirty.symm.trans (hfailed rfl hfree)
    | true =>
      have hfresh : x.fresh = true := h.scans.cleaned hcall hdirty
      have hwritable : x.file.writable = true := h.scans.begun (.inr ⟨true, hcall⟩) hfresh
      rcases hfree with hrefs | hw
      · exact hfresh.symm.trans (hunread hrefs hwritable)
      · exact hwritable.symm.trans hw

theorem Inv.perform (hp : x.phase p = .locked c) (hordered : Orderly x (.act p ok)) :
    (x.perform p ok c).Inv := by
  have hasks := h.fits p
  rw [hp] at hasks
  cases p with
  | none =>
    cases c with
    | clean => exact h.clean hp
    | settle done => exact h.settles hp hordered
    | destroy => exact h.destroy hp
    | lookup | registerAgent _ | unregister _ | markTemporary | markPermanent => cases hasks
  | some t =>
    cases c with
    | lookup =>
      exact h.serve hp (by simp) (fun _ _ _ hi => List.mem_cons_of_mem _ hi)
        (h.kept.reference rfl rfl rfl rfl) id id
    | registerAgent a => exact h.register hp
    | unregister i => exact h.unregister hp
    | markTemporary => exact h.markTemporary hp
    | markPermanent => exact h.markPermanent hp hordered
    | clean | settle _ | destroy => cases hasks

theorem Inv.locks (hp : x.phase p = q) (hq : q = .waiting c ∨ q = .entered c)
    (hasks : x.Asks p c) (hentry : (Phase.locked c).holdsEntry = q.holdsEntry)
    (hy : x.takeVnLock p c = some y) : y.Inv := by
  unfold takeVnLock at hy
  split at hy
  · cases hy
  · next hfree =>
    cases hy
    have hcall : q.call = some c := by rcases hq with rfl | rfl <;> rfl
    have halive (hc : q ≠ .waiting .lookup) : x.destroyed = false :=
      h.alive hp (by rcases hq with rfl | rfl <;> simp) hc
    refine h.aside rfl (h.entry.same (hp ▸ hentry)) (Guards.take (hfree ▸ h.vn) rfl)
      ⟨rfl, rfl, rfl, rfl⟩ hasks (fun hnone => ?_) rfl (fun hgone => ?_) rfl
    · subst hnone
      have hs := h.scans
      rw [hp] at hs
      refine ⟨fun hc => hs.cleans ?_, fun hc => hs.begun ?_, fun hc => hs.cleaned (hcall.trans hc),
        fun hc => ?_, fun hc => (by cases hc)⟩
      · rcases hc with hc | hc | hc | hc
        · exact .inl (hcall.trans hc)
        · cases hc
        · cases hc
        · exact .inr (.inr (.inr (hc.imp fun _ hc => hcall.trans hc)))
      · rcases hc with hc | hc
        · cases hc
        · exact .inr (hc.imp fun _ hc => hcall.trans hc)
      · rcases hc with hc | hc | hc
        · cases hc
        · obtain rfl := Phase.locked.inj hc
          refine hs.destroys ?_
          rcases hq with rfl | rfl
          · cases hentry
          · exact .inl rfl
        · cases hc
    · refine absurd ((halive ?_).symm.trans hgone) Bool.false_ne_true
      rintro rfl
      rcases hq with hq | hq
      · obtain rfl := Phase.waiting.inj hq
        cases hentry
      · cases hq

theorem Inv.enters (hp : x.phase p = .waiting c) (hc : c ≠ .markTemporary)
    (hy : x.takeEntryLock p c = some y) : y.Inv := by
  have hfits := h.fits p
  rw [hp] at hfits
  obtain ⟨hdestroy, hasks⟩ := hfits
  unfold takeEntryLock at hy
  split_ifs at hy with hgone hlook
  · cases hy
    refine h.aside rfl (h.entry.same (by rw [hp]; rfl)) (h.vn.same (by rw [hp]; rfl))
      ⟨rfl, rfl, rfl, rfl⟩ trivial (fun _ => scans_of_still rfl (by simp) (by simp) (by simp)) rfl
      (fun _ => .inl rfl) rfl
  · rcases (h.gone hgone).phase p with hphase | hphase
    · cases hp.symm.trans hphase
    · exact (hlook (Phase.waiting.inj (hp.symm.trans hphase))).elim
  · split at hy
    · cases hy
    · next hfree =>
      cases hy
      refine h.aside rfl (Guards.take (hfree ▸ h.entry) rfl) (h.vn.same (by rw [hp]; rfl))
        ⟨rfl, rfl, rfl, rfl⟩ ⟨hc, hasks⟩ (fun hnone => ?_) rfl (fun hx => (hgone hx).elim) rfl
      subst hnone
      have hs := h.scans
      rw [hp] at hs
      refine ⟨fun hq => hs.cleans ?_, fun hq => hs.begun ?_, hs.cleaned, fun hq => ?_,
        fun hq => (by cases hq)⟩
      · rcases hq with hq | hq | hq | hq
        · exact .inl hq
        · cases hq
        · cases hq
        · exact .inr (.inr (.inr hq))
      · rcases hq with hq | hq
        · cases hq
        · exact .inr hq
      · rcases hq with hq | hq | hq
        · exact (hdestroy (Phase.entered.inj hq)).elim
        · cases hq
        · cases hq

theorem Inv.leave {cleans : Bool} (hp : x.phase p = .leaving cleans) : (x.leave p cleans).Inv := by
  have halive : x.destroyed = false := h.alive hp (by simp) (by simp)
  have hfits := h.fits p
  rw [hp] at hfits
  unfold Server.leave
  split_ifs with hcleans
  · subst hcleans
    obtain rfl := hfits rfl
    have hstate : x.file.state = .fileMustClean := h.scans.cleans (.inr (.inl hp))
    refine h.move rfl (h.entry.free (by rw [hp]; rfl) rfl) (h.vn.same (by rw [hp]; rfl))
      (fun _ _ _ hi => hi) rfl ?_ ?_ (fun hy => absurd (halive.symm.trans hy) Bool.false_ne_true)
      h.critical
    · exact ⟨h.kept.refs, h.kept.writers, h.kept.marked, h.kept.cleanable, h.kept.started, h.kept.safe,
        fun hy => Bool.noConfusion hy⟩
    · change Scans _ (update x.phase none .cleaning none)
      rw [update_self]
      refine ⟨fun _ => hstate, fun _ hy => Bool.noConfusion hy, fun hq => (by cases hq), fun hq => ?_,
        fun hq => (by cases hq)⟩
      rcases hq with hq | hq | hq <;> cases hq
  · exact h.aside rfl (h.entry.free (by rw [hp]; rfl) rfl) (h.vn.same (by rw [hp]; rfl))
      ⟨rfl, rfl, rfl, rfl⟩ trivial (fun _ => scans_of_still rfl (by simp) (by simp) (by simp)) rfl
      (fun hx => absurd (halive.symm.trans hx) Bool.false_ne_true) rfl

theorem Inv.cleaned (hp : x.phase p = .cleaning) : (x.cleaned p ok).Inv := by
  have halive : x.destroyed = false := h.alive hp (by simp) (by simp)
  have hfits := h.fits p
  rw [hp] at hfits
  obtain rfl : p = none := hfits
  have hdirty {b : Bool} (hb : b = if ok then x.fresh else x.dirty) : (b = true → x.dirty = true) ∧
      (x.fresh = true → b = true) ∧ (ok = true → b = true → x.fresh = true) := by
    subst hb
    cases ok with
    | false => exact ⟨id, h.kept.fresh, fun hok => Bool.noConfusion hok⟩
    | true => exact ⟨h.kept.fresh, id, fun _ => id⟩
  obtain ⟨hless, hfresh, hclean⟩ := hdirty rfl
  have hstate : x.file.state = .fileMustClean := h.scans.cleans (.inr (.inr (.inl hp)))
  refine h.move rfl (h.entry.same (by rw [hp]; rfl)) (h.vn.same (by rw [hp]; rfl))
    (fun _ _ _ hi => hi) ⟨by simp, rfl⟩ ?_ ?_
    (fun hy => absurd (halive.symm.trans hy) Bool.false_ne_true) h.critical
  · exact ⟨h.kept.refs, h.kept.writers, h.kept.marked, h.kept.cleanable, h.kept.started,
      fun ht hy => h.kept.safe ht (hless hy), hfresh⟩
  · change Scans _ (update x.phase none (.waiting (.settle ok)) none)
    rw [update_self]
    refine ⟨fun _ => hstate, fun _ => h.scans.begun (.inl hp), fun hq => ?_, fun hq => ?_,
      fun hq => (by cases hq)⟩
    · obtain rfl : ok = true := Call.settle.inj (some.inj hq)
      exact hclean rfl
    · rcases hq with hq | hq | hq <;> cases hq

theorem Inv.free (hp : x.phase p = .freeing) : (x.free p).Inv := by
  have hfits := h.fits p
  rw [hp] at hfits
  obtain rfl : p = none := hfits
  have hdestroys : (x.phase none).destroys := .inr (.inr hp)
  have hheld : x.held = [] := h.scans.freeing hp
  have hmine : (x.phase none).holdsEntry = true := by
    rw [hp]
    rfl
  have hnobody (t : T) : ¬ x.Holds t := by
    rintro ⟨e, he, -⟩
    rw [hheld] at he
    cases he
  have hwaiting {t : T} {c : Call} (hc : x.May t c) : c = .lookup := by
    cases c with
    | lookup => rfl
    | registerAgent _ | markTemporary | markPermanent => exact (hnobody t hc).elim
    | unregister _ => exact (hnobody t ⟨_, hc, rfl⟩).elim
    | clean | settle _ | destroy => exact hc.elim
  have hrest (t : T) : x.phase (some t) = .idle ∨ x.phase (some t) = .waiting .lookup := by
    have hfree := h.entry.idle hmine (some_ne_none t)
    have hfits := h.fits (some t)
    cases hphase : x.phase (some t) with
    | idle => exact .inl rfl
    | waiting c =>
      rw [hphase] at hfits
      exact .inr (congrArg _ (hwaiting hfits.2))
    | locked c =>
      rw [hphase] at hfree hfits
      obtain rfl := hwaiting hfits
      cases hfree
    | cleaning =>
      rw [hphase] at hfits
      cases hfits
    | entered _ | leaving _ | freeing =>
      rw [hphase] at hfree
      cases hfree
  refine h.move rfl (h.entry.free hmine rfl) (h.vn.same (by rw [hp]; rfl)) (fun _ _ _ hi => hi) trivial
    (h.kept.alike ⟨rfl, rfl, rfl, rfl⟩) ?_ (fun _ => ⟨hheld, h.scans.destroys hdestroys, ?_, ?_⟩)
    h.critical
  · change Scans _ (update x.phase none .idle none)
    rw [update_self]
    exact scans_of_still rfl (by simp) (by simp) (by simp)
  · change update x.phase none .idle none = .idle
    rw [update_self]
  · intro r
    change update x.phase none .idle r = .idle ∨ update x.phase none .idle r = _
    cases r with
    | none => exact .inl (update_self none _ _)
    | some t =>
      rw [update_of_ne (some_ne_none t)]
      exact hrest t

theorem Inv.act (hordered : Orderly x (.act p ok))
    (hy : x.act p ok (x.phase p) = some y) : y.Inv := by
  have hfits := h.fits p
  cases hp : x.phase p with
  | idle =>
    rw [hp] at hy
    cases hy
  | waiting c =>
    rw [hp] at hy hfits
    change x.await p c = some y at hy
    unfold await at hy
    split_ifs at hy with hc
    · subst hc
      exact h.locks hp (.inl rfl) hfits.2 rfl hy
    · exact h.enters hp hc hy
  | entered c =>
    rw [hp] at hy hfits
    exact h.locks hp (.inr rfl) hfits.2 (decide_eq_true hfits.1) hy
  | locked c =>
    rw [hp] at hy
    cases hy
    exact h.perform hp hordered
  | leaving cleans =>
    rw [hp] at hy
    cases hy
    exact h.leave hp
  | cleaning =>
    rw [hp] at hy
    cases hy
    exact h.cleaned hp
  | freeing =>
    rw [hp] at hy
    cases hy
    exact h.free hp

end

end Server

end MachUS.Vnode

namespace MachUS.Vnode

open List

namespace Server

open Relation Transition

section Views

variable {T : Type} {x : Server T} {t : T}

theorem Inv.holds_none (h : x.Inv) (hx : x.destroyed = true) {t : T} : ¬ x.Holds t := by
  rintro ⟨e, he, -⟩
  rw [(h.gone hx).held] at he
  cases he

theorem boot_inv (t : T) : (boot t).Inv := by
  refine ⟨fun p => ?_, fun p => ?_, fun p => trivial, ?_, scans_of_still rfl (by simp [boot])
    (by simp [boot]) (by simp [boot]), fun hx => Bool.noConfusion hx, rfl⟩
  · exact ⟨fun hp => Bool.noConfusion hp, fun hp => (Option.some_ne_none p hp.symm).elim⟩
  · exact ⟨fun hp => Bool.noConfusion hp, fun hp => (Option.some_ne_none p hp.symm).elim⟩
  · exact ⟨rfl, rfl, fun _ hy => absurd hy (by simp [boot]), fun hy => AotState.noConfusion hy,
      fun hy => absurd hy (by simp [boot]), fun _ hy => Bool.noConfusion hy, fun hy => Bool.noConfusion hy⟩

theorem Inv.write (h : x.Inv) (hwriter : ∃ e ∈ x.held, e.1 = t ∧ e.2.writes) :
    ({ x with dirty := true, fresh := true } : Server T).Inv := by
  obtain ⟨e, he, -, hwrites⟩ := hwriter
  have hpos : 0 < x.held.countP fun e => e.2.writes := countP_pos_iff.mpr ⟨e, he, hwrites⟩
  have hwriters : 0 < x.file.numWriters := by
    rw [h.kept.writers]
    exact Int.natCast_pos.mpr hpos
  refine ⟨h.entry, h.vn, fun p => (h.fits p).mono fun _ _ _ hi => hi, ?_, ?_, fun hx => ?_, h.critical⟩
  · exact ⟨h.kept.refs, h.kept.writers, h.kept.marked, h.kept.cleanable, h.kept.started,
      fun ht _ => h.kept.marked ht hwriters, fun _ => rfl⟩
  · exact ⟨h.scans.cleans, fun _ _ => (h.kept.started hwriters).2, fun _ _ => rfl, h.scans.destroys,
      h.scans.freeing⟩
  · exact (h.holds_none hx ⟨e, he, rfl⟩).elim

end Views

variable {T : Type} [DecidableEq T] {x y : Server T} {p : Option T} {q : Phase} {c : Call} {t : T}
  {ok : Bool} {e : Event T}

section

variable (h : x.Inv)

include h

theorem Inv.starts (hp : x.phase p = .idle) (hc : c ≠ .destroy) (hasks : x.Asks p c)
    (hscans : p = none → x.Scans (.waiting c)) (hgone : x.destroyed = true → p ≠ none ∧ c = .lookup) :
    (x.goes p (.waiting c)).Inv :=
  h.aside rfl (h.entry.same (by rw [hp]; rfl)) (h.vn.same (by rw [hp]; rfl)) ⟨rfl, rfl, rfl, rfl⟩
    ⟨hc, hasks⟩ hscans rfl (fun hx => .inr ⟨congrArg _ (hgone hx).2, (hgone hx).1⟩) rfl

theorem Inv.calls (hp : x.phase (some t) = .idle) (hmay : x.May t c) :
    (x.goes (some t) (.waiting c)).Inv := by
  have hgone (hx : x.destroyed = true) : c = .lookup := by
    cases c with
    | lookup => rfl
    | registerAgent _ | markTemporary | markPermanent => exact (h.holds_none hx hmay).elim
    | unregister i => exact (h.holds_none hx ⟨(t, i), hmay, rfl⟩).elim
    | clean | settle _ | destroy => exact hmay.elim
  have hc : c ≠ .destroy := by
    rintro rfl
    exact hmay
  exact h.starts hp hc hmay (fun hnone => (Option.some_ne_none t hnone).elim)
    fun hx => ⟨Option.some_ne_none t, hgone hx⟩

theorem Inv.sweepClean (hy : x.sweepClean = some y) : y.Inv := by
  unfold Server.sweepClean at hy
  split_ifs at hy with hready
  obtain ⟨hp, halive, hstate⟩ := hready
  cases hy
  refine h.starts hp (by simp) rfl (fun _ => ?_)
    fun hx => absurd (halive.symm.trans hx) Bool.false_ne_true
  refine ⟨fun _ => hstate, fun hq => ?_, fun hq => (by cases hq), fun hq => ?_, fun hq => (by cases hq)⟩
  · rcases hq with hq | ⟨_, hq⟩ <;> cases hq
  · rcases hq with hq | hq | hq <;> cases hq

theorem Inv.sweepDestroy (hy : x.sweepDestroy = some y) : y.Inv := by
  unfold Server.sweepDestroy at hy
  split_ifs at hy with hready
  obtain ⟨hp, halive, hstate, hfree⟩ := hready
  cases hy
  refine h.aside rfl (Guards.take (hfree ▸ h.entry) rfl) (h.vn.same (by rw [hp]; rfl))
    ⟨rfl, rfl, rfl, rfl⟩ ⟨by simp, rfl⟩ (fun _ => ?_) rfl
    (fun hx => absurd (halive.symm.trans hx) Bool.false_ne_true) rfl
  refine ⟨fun hq => ?_, fun hq => ?_, fun hq => (by cases hq), fun _ => hstate, fun hq => (by cases hq)⟩
  · rcases hq with hq | hq | hq | ⟨_, hq⟩ <;> cases hq
  · rcases hq with hq | ⟨_, hq⟩ <;> cases hq

theorem Inv.pass {u : T} {i : Hold} (hp : x.phase (some t) = .idle)
    (hi : (t, i) ∈ x.held) : ({ x with held := (u, i) :: x.held.erase (t, i) } : Server T).Inv := by
  have hpos := length_pos_of_mem hi
  have hlength : ((u, i) :: x.held.erase (t, i)).length = x.held.length := by
    rw [length_cons, length_erase_of_mem hi]
    omega
  have hcount : ((u, i) :: x.held.erase (t, i)).countP (fun e => e.2.writes) =
      x.held.countP fun e => e.2.writes := by
    rw [countP_cons, countP_erase]
    cases hwrites : i.writes with
    | true =>
      have : 0 < x.held.countP fun e => e.2.writes := countP_pos_iff.mpr ⟨(t, i), hi, hwrites⟩
      simp only [hi, and_self, if_true]
      omega
    | false => simp
  refine ⟨h.entry, h.vn, fun p => ?_, ?_, ?_, fun hx => ?_, h.critical⟩
  · rcases eq_or_ne p (some t) with rfl | hne
    · rw [hp]
      trivial
    · refine (h.fits p).mono fun v hv j hj => mem_cons_of_mem _ ?_
      exact (mem_erase_of_ne fun heq => hne (hv.trans (congrArg some (congrArg Prod.fst heq)))).mpr hj
  · refine ⟨?_, ?_, h.kept.marked, h.kept.cleanable, h.kept.started, h.kept.safe, h.kept.fresh⟩
    · rw [hlength]
      exact h.kept.refs
    · rw [hcount]
      exact h.kept.writers
  · refine ⟨h.scans.cleans, h.scans.begun, h.scans.cleaned, h.scans.destroys, fun hq => ?_⟩
    rw [h.scans.freeing hq] at hi
    cases hi
  · exact (h.holds_none hx ⟨_, hi, rfl⟩).elim

theorem Inv.next (hordered : Orderly x e) (hy : next x e = some y) : y.Inv := by
  unfold Server.next at hy
  cases e with
  | call t c =>
    simp only at hy
    split_ifs at hy with hready
    cases hy
    exact h.calls hready.2.1 hready.2.2
  | clean =>
    split_ifs at hy
    exact h.sweepClean hy
  | destroy =>
    split_ifs at hy
    exact h.sweepDestroy hy
  | act p ok =>
    split_ifs at hy
    exact h.act hordered hy
  | write t =>
    simp only at hy
    split_ifs at hy with hready
    cases hy
    exact h.write hready.2.2
  | pass t u i =>
    simp only at hy
    split_ifs at hy with hready
    cases hy
    exact h.pass hready.2.1 hready.2.2

theorem Inv.sound : x.Sound := by
  refine ⟨h.kept.refs, h.kept.writers, h.kept.marked, fun e y hordered hy _ hleft => ?_,
    fun hx ht => ?_, h.critical⟩
  · have hnext := h.next hordered hy
    by_contra hlost
    obtain ⟨ht, hdirty⟩ := not_or.mp hlost
    exact hleft (hnext.kept.safe (Bool.eq_false_iff.mpr ht) ((Bool.not_eq_false _).mp hdirty))
  · by_contra hdirty
    have hstate := h.kept.safe ht ((Bool.not_eq_false _).mp hdirty)
    rw [(h.gone hx).state] at hstate
    cases hstate

end

instance decidableOrderly (x : Server T) (e : Event T) : Decidable (Orderly x e) :=
  match e with
  | .call _ _ | .clean | .destroy | .write _ | .pass _ _ _ => isTrue trivial
  | .act p _ =>
    match h : x.phase p with
    | .locked (.settle _) => decidable_of_iff _ (by simp only [Orderly, h]; exact Iff.rfl)
    | .locked .markPermanent => decidable_of_iff _ (by simp only [Orderly, h]; exact Iff.rfl)
    | .locked .lookup | .locked (.registerAgent _) | .locked (.unregister _) | .locked .markTemporary
    | .locked .clean | .locked .destroy | .idle | .waiting _ | .entered _ | .leaving _ | .cleaning
    | .freeing => isTrue (by simp only [Orderly, h])

def writerAccess : NsAccess := ⟨true, true, false⟩

def tended : List (Event Bool) :=
  [.call true .lookup, .act (some true) true, .act (some true) true, .act (some true) true,
    .act (some true) true, .call true (.registerAgent writerAccess), .act (some true) true,
    .act (some true) true, .act (some true) true, .act (some true) true, .write true, .clean,
    .act none true, .act none true, .act none true, .act none true, .write true, .act none true,
    .act none true, .act none true, .act none true, .act none true,
    .call true (.unregister (.agent writerAccess)), .act (some true) true, .act (some true) true,
    .act (some true) true, .act (some true) true, .clean, .act none true, .act none true,
    .act none true, .act none true, .act none true, .act none true, .act none true, .act none true,
    .act none true, .call true (.unregister .reference), .act (some true) true, .act (some true) true,
    .act (some true) true, .act (some true) true, .call false (.unregister .reference),
    .act (some false) true, .act (some false) true, .act (some false) true, .act (some false) true,
    .destroy, .act none true, .act none true, .act none true]

def forgotten : List (Event Bool) :=
  [.call false (.registerAgent writerAccess), .act (some false) true, .act (some false) true,
    .act (some false) true, .act (some false) true, .clean, .act none true, .act none true,
    .act none true, .act none true, .write false, .call false (.unregister (.agent writerAccess)),
    .act (some false) true, .act (some false) true, .act (some false) true, .act (some false) true,
    .call false (.unregister .reference), .act (some false) true, .act (some false) true,
    .act (some false) true, .act (some false) true, .act none true, .act none true, .act none true,
    .act none true, .act none true, .destroy, .act none true, .act none true, .act none true]

theorem files_kept_clean (t : T) (hrun : ReflTransGen (Under next Orderly) (boot t) x) : x.Sound := by
  have hinv : x.Inv := Transition.invariant (fun _ _ _ hx he hy => hx.next he hy) hrun (boot_inv t)
  exact hinv.sound

theorem files_kept_clean_tended : ∃ x : Server Bool, x.destroyed = true ∧
    x.file.temporary = false ∧ x.Sound := by
  have h : check next (boot false) tended (fun x => decide
      (x.destroyed = true ∧ x.file.temporary = false)) = true := by
    decide +kernel
  have hadmits : Admits next Orderly (boot false) tended := by
    decide +kernel
  obtain ⟨x, hx, ht⟩ := exec_of_check h
  obtain ⟨hdestroyed, htemporary⟩ := of_decide_eq_true ht
  exact ⟨x, hdestroyed, htemporary, files_kept_clean false (run_of_exec hadmits hx)⟩

theorem last_write_forgotten : ∃ x : Server Bool,
    ReflTransGen (Under next Free) (boot false) x ∧ x.destroyed = true ∧
      x.file.temporary = false ∧ x.dirty = true := by
  have h : check next (boot false) forgotten (fun x => decide
      (x.destroyed = true ∧ x.file.temporary = false ∧ x.dirty = true)) = true := by
    decide +kernel
  obtain ⟨x, hx, ht⟩ := exec_of_check h
  exact ⟨x, run_of_exec (free_admits _ _) hx, of_decide_eq_true ht⟩

end Server

end MachUS.Vnode
