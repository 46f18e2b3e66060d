import MachUS.Tm.RegistrationSteps

namespace MachUS.Tm.Registration

open Function Option

variable {T : Type} {k i : ℕ} {p q : Phase}

namespace Master

section Views

variable {x y : Master T} {t : T}

theorem taskDir_setEntry (x : Master T) (id : ℕ) (e : Option Entry) (id' : ℕ) :
    (x.setEntry id e).taskDir id' = if id' = id then e else x.taskDir id' := by
  change update x.taskDir id e id' = _
  rcases eq_or_ne id' id with rfl | hne
  · rw [update_self, if_pos rfl]
  · rw [update_of_ne hne, if_neg hne]

theorem Beside.setEntry {id : ℕ} {e : Option Entry}
    (hold : ∀ v, x.taskDir id = some v → v.task = k) (hnew : ∀ v, e = some v → v.task = k) :
    Beside k x (x.setEntry id e) := by
  refine ⟨fun _ _ => rfl, fun i hi id' b => ?_, fun _ _ _ => .rfl⟩
  rw [taskDir_setEntry]
  split
  · rename_i hid
    subst hid
    exact ⟨fun h => absurd (hnew _ h) hi, fun h => absurd (hold _ h) hi⟩
  · rfl

theorem Beside.goes [DecidableEq T] (h : Beside k x y) : Beside k x (y.goes t p) :=
  ⟨h.task, h.entry, h.mapped⟩

theorem Beside.report (h : Beside k x y) {i : ℕ} {b : Bool} : Beside k x (y.report i b) :=
  ⟨h.task, h.entry, h.mapped⟩

theorem Inv.mapped_of_ne (h : x.Inv) (hbeside : Beside k x y)
    (hk : ∀ port r, x.portTable port = some r → x.portOf k = port → x.record r = some (x.idOf k) →
      x.Installed k → (∀ t, (x.phase t).hides ≠ some k) → False)
    (hportTable : y.portTable = x.portTable) (hrecord : y.record = x.record)
    (hrecords : y.records = x.records) (port r : ℕ) (hr : y.portTable port = some r) :
    r < y.records ∧ ∃ i, y.record r = some (y.idOf i) ∧ y.portOf i = port ∧ y.Installed i ∧
      (i = k → p.hides ≠ some k) ∧ (i ≠ k → ∀ u, (x.phase u).hides ≠ some i) := by
  rw [hportTable] at hr
  obtain ⟨hlt, i, hrec, hport, hinst, hnot⟩ := h.mapped port r hr
  have hne : i ≠ k := by
    rintro rfl
    exact hk port r hr hport hrec hinst hnot
  rw [hrecords, hrecord]
  exact ⟨hlt, i, by rw [hbeside.idOf hne]; exact hrec, by rw [hbeside.portOf hne]; exact hport,
    (hbeside.installed hne).mpr hinst, fun hi => absurd hi hne, fun _ => hnot⟩

theorem Inv.leaves_cancelled (h : x.Inv) (hreserved : x.Reserved k)
    (hcounted : (x.task k).counted = false) (htgrp : (x.task k).tgrp = none) :
    (x.setEntry (x.idOf k) none).leaves k = false := by
  have hentry : (x.setEntry (x.idOf k) none).taskDir (x.idOf k) = none := by
    rw [taskDir_setEntry, if_pos rfl]
  have hmapped : x.mapped (x.portOf k) ≠ some (x.idOf k) := by
    intro hm
    obtain ⟨r, hr, hrec⟩ := mapped_eq_some.mp hm
    obtain ⟨-, i, hi, -, hinst, -⟩ := h.mapped _ r hr
    exact hreserved.not_installed hinst (some.inj (hi.symm.trans hrec))
  have hm : (x.setEntry (x.idOf k) none).mapped (x.portOf k) ≠ some (x.idOf k) := hmapped
  simp only [leaves, show (x.setEntry (x.idOf k) none).idOf k = x.idOf k from rfl,
    show (x.setEntry (x.idOf k) none).portOf k = x.portOf k from rfl, hentry,
    show ((x.setEntry (x.idOf k) none).task k) = x.task k from rfl, hcounted, htgrp, hm]
  simp

theorem construct_task (x : Master T) (id port : ℕ) (source : Source) : ∃ session,
    (x.construct id port source).task =
      update x.task x.tasks ⟨id, port, false, session, none, false⟩ := by
  cases source with
  | forked parent => exact ⟨_, rfl⟩
  | initial => exact ⟨_, rfl⟩

end Views

variable [DecidableEq T] {x y : Master T} {t : T}

theorem Inv.cancel (h : x.Inv) (hold : x.phase t = .cancelling k) : (x.cancel t k).Inv := by
  obtain ⟨hreserved, hcounted, htgrp⟩ : x.Fits (.cancelling k) := h.stands hold
  have hentry : x.taskDir (x.idOf k) = some ⟨k, false⟩ := hreserved
  have hcancel : x.cancelEntry k = x.setEntry (x.idOf k) none := by
    rw [cancelEntry, hentry]
    simp
  rw [Master.cancel, hcancel]
  have hbeside : Beside k x (x.setEntry (x.idOf k) none) := by
    refine .setEntry (fun v hv => ?_) fun v hv => by cases hv
    rw [← some.inj (hentry.symm.trans hv)]
  have hgone (b : Bool) : (x.setEntry (x.idOf k) none).taskDir (x.idOf k) ≠ some ⟨k, b⟩ := by
    rw [taskDir_setEntry, if_pos rfl]
    simp
  refine h.move rfl hbeside.report.goes (h.alone hold rfl) (fun i hi => ?_) (fun i hi => by cases hi)
    (fun u _ port id hu => ?_) trivial (fun id b hid => ?_)
    (h.mapped_of_ne hbeside.report.goes (fun port r _ _ _ hinst _ => ?_) rfl rfl rfl)
    (fun hr => absurd hr (hgone false)) (fun hi => absurd hi (hgone true)) (Nat.le_refl _)
    (fun hle => absurd (h.reserved_lt hreserved) (Nat.not_lt.mpr hle)) (fun r hr hfailed => ?_)
    h.faulted
  · rw [hold] at hi
    exact (some.inj hi).symm
  · have hx := h.fits u
    rw [hu] at hx ⊢
    exact ⟨hx.1, hx.2.imp (fun hd => hd) fun hp => absurd rfl (hreserved.not_installed hp.1)⟩
  · change (x.setEntry (x.idOf k) none).taskDir id = _ at hid
    rw [taskDir_setEntry] at hid
    split at hid
    · cases hid
    · exact h.named id k b hid
  · exact hreserved.not_installed hinst rfl
  · rcases List.mem_cons.mp hr with rfl | hr
    · exact h.leaves_cancelled hreserved hcounted htgrp
    · exact h.reports r hr hfailed

theorem Inv.install (h : x.Inv) {source : Source} (hold : x.phase t = .installing k source) :
    (x.install t k source true).Inv := by
  have hreserved : x.Reserved k := h.stands hold
  have hentry : x.taskDir (x.idOf k) = some ⟨k, false⟩ := hreserved
  have hbeside : Beside k x (x.setEntry (x.idOf k) (some ⟨k, true⟩)) := by
    refine .setEntry (fun v hv => ?_) fun v hv => ?_
    · rw [← some.inj (hentry.symm.trans hv)]
    · rw [← some.inj hv]
  have hnow : (x.setEntry (x.idOf k) (some ⟨k, true⟩)).taskDir (x.idOf k) = some ⟨k, true⟩ := by
    rw [taskDir_setEntry, if_pos rfl]
  rw [Master.install, if_pos rfl]
  refine h.move rfl hbeside.goes (h.alone hold rfl) (fun i hi => ?_)
    (fun i hi => (some.inj hi).symm) (fun u _ port id hu => ?_) hnow (fun id b hid => ?_)
    (h.mapped_of_ne hbeside.goes (fun port r _ _ _ hinst _ => ?_) rfl rfl rfl)
    (fun hr => by cases hr.symm.trans hnow) (fun _ => .inr rfl) (Nat.le_refl _)
    (fun hle => absurd (h.reserved_lt hreserved) (Nat.not_lt.mpr hle)) h.reports h.faulted
  · rw [hold] at hi
    exact (some.inj hi).symm
  · have hx := h.fits u
    rw [hu] at hx ⊢
    exact ⟨hx.1, hx.2.imp (fun hd => hd) fun hp => absurd rfl (hreserved.not_installed hp.1)⟩
  · change (x.setEntry (x.idOf k) (some ⟨k, true⟩)).taskDir id = _ at hid
    rw [taskDir_setEntry] at hid
    split at hid
    · rename_i heq
      exact ⟨heq, h.reserved_lt hreserved⟩
    · exact h.named id k b hid
  · exact hreserved.not_installed hinst rfl

theorem Inv.bury (h : x.Inv) {id : ℕ} {ok : Bool} (hold : x.phase t = .burying id k)
    (hy : x.bury t id ok = some y) : y.Inv := by
  obtain ⟨rfl, hdead, hinst⟩ : x.Fits (.burying id k) := h.stands hold
  have hentry : x.taskDir (x.idOf k) = some ⟨k, true⟩ := hinst
  rw [Master.bury, hentry] at hy
  cases hy
  have hbeside : Beside k x (x.setEntry (x.idOf k) none) := by
    refine .setEntry (fun v hv => ?_) fun v hv => by cases hv
    rw [← some.inj (hentry.symm.trans hv)]
  have hgone (b : Bool) : (x.setEntry (x.idOf k) none).taskDir (x.idOf k) ≠ some ⟨k, b⟩ := by
    rw [taskDir_setEntry, if_pos rfl]
    simp
  refine h.move rfl hbeside.goes (h.alone hold rfl) (fun i hi => ?_) (fun i hi => by cases hi)
    (fun u _ port id hu => ?_) trivial (fun id b hid => ?_)
    (h.mapped_of_ne hbeside.goes (fun port r _ _ _ _ hnot => ?_) rfl rfl rfl)
    (fun hr => absurd hr (hgone false)) (fun hi => absurd hi (hgone true)) (Nat.le_refl _)
    (fun hle => absurd (h.installed_lt hinst) (Nat.not_lt.mpr hle)) h.reports h.faulted
  · rw [hold] at hi
    exact (some.inj hi).symm
  · have hx := h.fits u
    rw [hu] at hx ⊢
    exact ⟨hx.1, .inl hdead⟩
  · change (x.setEntry (x.idOf k) none).taskDir id = _ at hid
    rw [taskDir_setEntry] at hid
    split at hid
    · cases hid
    · exact h.named id k b hid
  · exact hnot t (by rw [hold]; rfl)

theorem Inv.enter (h : x.Inv) {source : Source} (hold : x.phase t = .entering k source)
    (hfree : x.portTable (x.portOf k) = none) : (x.enter t k source).Inv := by
  have hinst : x.Installed k := h.stands hold
  rw [Master.enter, enterPortMapping, hfree]
  let z : Master T := { x with
    portTable := update x.portTable (x.portOf k) (some x.records)
    record := update x.record x.records (some (x.idOf k))
    records := x.records + 1 }
  have hnew : z.mapped (x.portOf k) = some (x.idOf k) :=
    mapped_eq_some.mpr ⟨x.records, update_self _ _ _, update_self _ _ _⟩
  have hkept {port r : ℕ} (hr : x.portTable port = some r) : z.record r = x.record r :=
    update_of_ne (Nat.ne_of_lt (h.mapped port r hr).1) _ _
  have hbeside : Beside k x z := by
    refine ⟨fun _ _ => rfl, fun _ _ _ _ => .rfl, fun i hi hii => ?_⟩
    rcases eq_or_ne (x.portOf i) (x.portOf k) with hport | hport
    · have hnone : x.mapped (x.portOf i) = none := by
        rw [Master.mapped, hport, hfree]
        rfl
      rw [hnone, hport, hnew]
      refine ⟨fun he => ?_, fun he => by cases he⟩
      exact absurd (hinst.unique hii (some.inj he).symm) hi
    · have htable : z.portTable (x.portOf i) = x.portTable (x.portOf i) :=
        update_of_ne hport _ _
      rw [mapped_eq_some, mapped_eq_some, htable]
      exact exists_congr fun r => and_congr_right fun hr => by rw [hkept hr]
  refine h.move (y := z.goes t (.forwarding k source)) rfl hbeside.goes (h.alone hold rfl)
    (fun i hi => ?_) (fun i hi => by cases hi) (fun u _ port id hu => ?_) trivial
    (fun id b hid => h.named id k b hid) (fun port r hr => ?_) (fun hr => by cases hr.symm.trans hinst)
    (fun hi => .inl ⟨hi, hnew⟩) (Nat.le_refl _)
    (fun hle => absurd (h.installed_lt hinst) (Nat.not_lt.mpr hle)) h.reports h.faulted
  · rw [hold] at hi
    exact (some.inj hi).symm
  · have hx := h.fits u
    rw [hu] at hx ⊢
    exact ⟨hx.1, .inr ⟨hinst, hnew⟩⟩
  · change update x.portTable (x.portOf k) (some x.records) port = some r at hr
    rcases eq_or_ne port (x.portOf k) with rfl | hport
    · rw [update_self] at hr
      cases hr
      exact ⟨Nat.lt_succ_self _, k, update_self _ _ _, rfl, hinst, fun _ => by simp [Phase.hides],
        fun hne => absurd rfl hne⟩
    · rw [update_of_ne hport] at hr
      obtain ⟨hlt, i, hrec, hp, hi, hnot⟩ := h.mapped port r hr
      exact ⟨Nat.lt_succ_of_lt hlt, i, (hkept hr).trans hrec, hp, hi,
        fun _ => by simp [Phase.hides], fun _ => hnot⟩

theorem Inv.unmap (h : x.Inv) {port id : ℕ} (hold : x.phase t = .unmapping port id k) :
    ((x.removePortMapping port).goes t (.burying id k)).Inv := by
  obtain ⟨⟨rfl, rfl⟩, hdead, hinst, hmapped⟩ : x.Fits (.unmapping port id k) := h.stands hold
  obtain ⟨r, hr, hrec⟩ := mapped_eq_some.mp hmapped
  let z : Master T := { x with
    portTable := update x.portTable (x.portOf k) none
    record := update x.record r none }
  have hremove : x.removePortMapping (x.portOf k) = z := by rw [removePortMapping, hr]
  have hkept {port r' : ℕ} (hport : port ≠ x.portOf k) (hr' : x.portTable port = some r') :
      z.record r' = x.record r' := by
    refine update_of_ne ?_ _ _
    rintro rfl
    obtain ⟨-, i, hrec', hp, hi, -⟩ := h.mapped port r' hr'
    obtain rfl := hinst.unique hi (some.inj (hrec'.symm.trans hrec))
    exact hport hp.symm
  have hbeside : Beside k x z := by
    refine ⟨fun _ _ => rfl, fun _ _ _ _ => .rfl, fun i hi hii => ?_⟩
    rcases eq_or_ne (x.portOf i) (x.portOf k) with hport | hport
    · have hnone : z.mapped (x.portOf k) = none := by
        rw [Master.mapped, show z.portTable (x.portOf k) = none from update_self _ _ _]
        rfl
      rw [hport, hnone, hmapped]
      refine ⟨fun he => (by cases he), fun he => ?_⟩
      exact absurd (hinst.unique hii (some.inj he).symm) hi
    · have htable : z.portTable (x.portOf i) = x.portTable (x.portOf i) :=
        update_of_ne hport _ _
      rw [mapped_eq_some, mapped_eq_some, htable]
      exact exists_congr fun r' => and_congr_right fun hr' => by rw [hkept hport hr']
  rw [hremove]
  refine h.move (y := z.goes t (.burying (x.idOf k) k)) rfl hbeside.goes (h.alone hold rfl)
    (fun i hi => ?_) (fun i hi => (some.inj hi).symm) (fun u _ port id hu => ?_)
    ⟨rfl, hdead, hinst⟩ (fun id b hid => h.named id k b hid) (fun port r' hr' => ?_)
    (fun hr => by cases hr.symm.trans hinst) (fun _ => .inr rfl) (Nat.le_refl _)
    (fun hle => absurd (h.installed_lt hinst) (Nat.not_lt.mpr hle)) h.reports h.faulted
  · rw [hold] at hi
    exact (some.inj hi).symm
  · have hx := h.fits u
    rw [hu] at hx ⊢
    exact ⟨hx.1, .inl hdead⟩
  · change update x.portTable (x.portOf k) none port = some r' at hr'
    rcases eq_or_ne port (x.portOf k) with rfl | hport
    · rw [update_self] at hr'
      cases hr'
    · rw [update_of_ne hport] at hr'
      obtain ⟨hlt, i, hrec', hp, hi, hnot⟩ := h.mapped port r' hr'
      refine ⟨hlt, i, (hkept hport hr').trans hrec', hp, hi, fun hik => ?_, fun _ => hnot⟩
      exact absurd (hik ▸ hp).symm hport

theorem Inv.register (h : x.Inv) {source : Source} {id port : ℕ} (hold : x.phase t = .idle) :
    (x.register t source id port).Inv := by
  rw [Master.register]
  split
  · exact h
  rename_i hnone
  obtain ⟨session, htask⟩ := construct_task x id port source
  let z := (x.construct id port source).setEntry id (some ⟨x.tasks, false⟩)
  have htasks : z.tasks = x.tasks + 1 := by cases source <;> rfl
  have hmine : z.task x.tasks = ⟨id, port, false, session, none, false⟩ := by
    change (x.construct id port source).task x.tasks = _
    rw [htask, update_self]
  have hrest (i : ℕ) (hi : i ≠ x.tasks) : z.task i = x.task i := by
    change (x.construct id port source).task i = _
    rw [htask, update_of_ne hi]
  have hdir (id' : ℕ) : z.taskDir id' = if id' = id then some ⟨x.tasks, false⟩ else x.taskDir id' := by
    have hconstruct : (x.construct id port source).taskDir = x.taskDir := by cases source <;> rfl
    rw [taskDir_setEntry, hconstruct]
  have hid : z.idOf x.tasks = id := by rw [Master.idOf, hmine]
  have hreserved : z.Reserved x.tasks := by rw [Reserved, hid, hdir, if_pos rfl]
  have hports : z.portTable = x.portTable := by cases source <;> rfl
  have hrecord : z.record = x.record := by cases source <;> rfl
  have hrecords : z.records = x.records := by cases source <;> rfl
  have hreports : z.reports = x.reports := by cases source <;> rfl
  have hfaulted : z.faulted = x.faulted := by cases source <;> rfl
  have hphase : z.phase = x.phase := by cases source <;> rfl
  have hbeside : Beside x.tasks x z := by
    refine ⟨hrest, fun i hi id' b => ?_, fun i hi _ => ?_⟩
    · rw [hdir]
      split
      · rename_i heq
        subst heq
        rw [hnone]
        exact ⟨fun he => absurd (congrArg Entry.task (some.inj he)).symm hi, fun he => by cases he⟩
      · rfl
    · rw [Master.mapped, hports, hrecord, Master.mapped]
  refine h.move (y := z.goes t (.joining x.tasks source)) (p := .joining x.tasks source)
    (t := t) ?_ hbeside.goes (fun u _ ho => ?_)
    (fun i hi => ?_) (fun i hi => (some.inj hi).symm) (fun u _ port' id' hu => ?_)
    ⟨hreserved, congrArg TmTask.counted hmine⟩ (fun id' b he => ?_)
    (h.mapped_of_ne hbeside.goes (fun _ _ _ _ _ hinst _ => ?_) hports hrecord hrecords)
    (fun _ => rfl) (fun hi => by cases hi.symm.trans hreserved) ?_ (fun hle => ?_) ?_
    (hfaulted.trans h.faulted)
  · change update z.phase t _ = _
    rw [hphase]
  · exact absurd (h.owned_lt ho) (Nat.lt_irrefl _)
  · rw [hold] at hi
    cases hi
  · have hx := h.fits u
    rw [hu] at hx
    rcases hx.2 with hdead | hpublic
    · rw [h.fresh _ (Nat.le_refl _)] at hdead
      cases hdead
    · exact absurd (h.installed_lt hpublic.1) (Nat.lt_irrefl _)
  · change z.taskDir id' = _ at he
    rw [hdir] at he
    split at he
    · rename_i heq
      refine ⟨?_, ?_⟩
      · change id' = z.idOf x.tasks
        rw [hid, heq]
      · change x.tasks < z.tasks
        rw [htasks]
        exact Nat.lt_succ_self _
    · exact absurd (h.named _ _ _ he).2 (Nat.lt_irrefl _)
  · exact Nat.lt_irrefl _ (h.installed_lt hinst)
  · change x.tasks ≤ z.tasks
    rw [htasks]
    exact Nat.le_succ _
  · exact congrArg TmTask.dead hmine
  · change ∀ r ∈ z.reports, _
    rw [hreports]
    exact h.reports

end Master

end MachUS.Tm.Registration
