import MachUS.Tm.Registration

namespace MachUS.Tm.Registration

open Function Phase

variable {T : Type} {k i : ℕ} {p : Phase}

namespace Master

section Views

variable {x y : Master T} {t : T}

structure Beside (k : ℕ) (x y : Master T) : Prop where
  task : ∀ i, i ≠ k → y.task i = x.task i
  entry : ∀ i, i ≠ k → ∀ id b, y.taskDir id = some ⟨i, b⟩ ↔ x.taskDir id = some ⟨i, b⟩
  mapped : ∀ i, i ≠ k → x.Installed i →
    (y.mapped (x.portOf i) = some (x.idOf i) ↔ x.mapped (x.portOf i) = some (x.idOf i))

section

variable (h : Beside k x y) (hi : i ≠ k)

include h hi

theorem Beside.idOf : y.idOf i = x.idOf i := by
  rw [Master.idOf, h.task i hi, Master.idOf]

theorem Beside.portOf : y.portOf i = x.portOf i := by
  rw [Master.portOf, h.task i hi, Master.portOf]

theorem Beside.reserved : y.Reserved i ↔ x.Reserved i := by
  rw [Reserved, h.idOf hi]
  exact h.entry i hi _ false

theorem Beside.installed : y.Installed i ↔ x.Installed i := by
  rw [Installed, h.idOf hi]
  exact h.entry i hi _ true

theorem Beside.public : y.Public i ↔ x.Public i := by
  rw [Public, h.installed hi, h.idOf hi, h.portOf hi]
  exact and_congr_right fun hinst => h.mapped i hi hinst

theorem Beside.struck {port id : ℕ} : y.Struck port id i ↔ x.Struck port id i := by
  rw [Struck, h.idOf hi, h.portOf hi, Struck]

end

theorem Beside.fits (h : Beside k x y) {q : Phase} (howns : q.owns ≠ some k)
    (hdying : ∀ port id, q = .dying port id k → y.Fits q) (hx : x.Fits q) : y.Fits q := by
  cases q with
  | joining i _ | counting i _ =>
    have hi : i ≠ k := fun hi => howns (congrArg some hi)
    rw [Fits, h.reserved hi, h.task i hi]
    exact hx
  | installing i _ =>
    exact (h.reserved fun hi => howns (congrArg some hi)).mpr hx
  | cancelling i =>
    have hi : i ≠ k := fun hi => howns (congrArg some hi)
    rw [Fits, h.reserved hi, h.task i hi]
    exact hx
  | entering i _ => exact (h.installed fun hi => howns (congrArg some hi)).mpr hx
  | leaving _ _ i | uncounting _ _ i | unmapping _ _ i =>
    have hi : i ≠ k := fun hi => howns (congrArg some hi)
    rw [Fits, h.struck hi, h.public hi, h.task i hi]
    exact hx
  | burying _ i =>
    have hi : i ≠ k := fun hi => howns (congrArg some hi)
    rw [Fits, h.idOf hi, h.installed hi, h.task i hi]
    exact hx
  | dying port id i =>
    rcases eq_or_ne i k with rfl | hi
    · exact hdying port id rfl
    · rw [Fits, h.struck hi, h.public hi, h.task i hi]
      exact hx
  | undoing _ _ => exact hx
  | _ => trivial

structure Alike (x y : Master T) : Prop where
  idOf : ∀ i, y.idOf i = x.idOf i
  portOf : ∀ i, y.portOf i = x.portOf i
  taskDir : y.taskDir = x.taskDir
  portTable : y.portTable = x.portTable
  record : y.record = x.record
  records : y.records = x.records
  tasks : y.tasks = x.tasks

section

variable (h : Alike x y)

include h

theorem Alike.mapped (port : ℕ) : y.mapped port = x.mapped port := by
  rw [Master.mapped, h.portTable, h.record, Master.mapped]

theorem Alike.reserved : y.Reserved i ↔ x.Reserved i := by
  rw [Reserved, h.taskDir, h.idOf, Reserved]

theorem Alike.installed : y.Installed i ↔ x.Installed i := by
  rw [Installed, h.taskDir, h.idOf, Installed]

theorem Alike.public : y.Public i ↔ x.Public i := by
  rw [Public, h.installed, h.mapped, h.portOf, h.idOf, Public]

theorem Alike.struck {port id : ℕ} : y.Struck port id i ↔ x.Struck port id i := by
  rw [Struck, h.idOf, h.portOf, Struck]

theorem Alike.beside (htask : ∀ i, i ≠ k → y.task i = x.task i) : Beside k x y :=
  ⟨htask, fun i _ id b => by rw [h.taskDir], fun i _ _ => by rw [h.mapped]⟩

end

theorem Alike.same (htask : y.task = x.task) (htaskDir : y.taskDir = x.taskDir)
    (hportTable : y.portTable = x.portTable) (hrecord : y.record = x.record)
    (hrecords : y.records = x.records) (htasks : y.tasks = x.tasks) : Alike x y :=
  ⟨fun i => by rw [Master.idOf, htask, Master.idOf],
    fun i => by rw [Master.portOf, htask, Master.portOf], htaskDir, hportTable, hrecord, hrecords,
    htasks⟩

theorem Alike.fits (h : Alike x y) (htask : y.task = x.task) {q : Phase} (hx : x.Fits q) :
    y.Fits q := by
  cases q with
  | joining i _ | counting i _ | cancelling i =>
    rw [Fits, h.reserved, htask]
    exact hx
  | installing i _ => exact h.reserved.mpr hx
  | entering i _ => exact h.installed.mpr hx
  | leaving _ _ i | uncounting _ _ i | unmapping _ _ i | dying _ _ i =>
    rw [Fits, h.struck, h.public, htask]
    exact hx
  | burying _ i =>
    rw [Fits, h.idOf, h.installed, htask]
    exact hx
  | undoing _ _ => exact hx
  | _ => trivial

end Views

variable [DecidableEq T] {x y : Master T} {t : T}

section

variable (h : x.Inv) (hphase : y.phase = update x.phase t p)

include h hphase

theorem Inv.move (hbeside : Beside k x y) (hothers : ∀ u, u ≠ t → (x.phase u).owns ≠ some k)
    (hhad : ∀ i, (x.phase t).owns = some i → i = k) (hhas : ∀ i, p.owns = some i → i = k)
    (hdying : ∀ u, u ≠ t → ∀ port id, x.phase u = .dying port id k → y.Fits (x.phase u))
    (hfits : y.Fits p)
    (hnamed : ∀ id b, y.taskDir id = some ⟨k, b⟩ → id = y.idOf k ∧ k < y.tasks)
    (hmapped : ∀ port r, y.portTable port = some r → r < y.records ∧
      ∃ i, y.record r = some (y.idOf i) ∧ y.portOf i = port ∧ y.Installed i ∧
        (i = k → p.hides ≠ some k) ∧ (i ≠ k → ∀ u, (x.phase u).hides ≠ some i))
    (hreserved : y.Reserved k → p.reserves = some k)
    (hinstalled : y.Installed k → y.Public k ∨ p.hides = some k)
    (htasks : x.tasks ≤ y.tasks) (hfresh : y.tasks ≤ k → (y.task k).dead = false)
    (hreports : ∀ r ∈ y.reports, r.success = false → r.left = false)
    (hfaulted : y.faulted = false) : y.Inv := by
  have hself : y.phase t = p := by rw [hphase, update_self]
  have hother (u : T) (hu : u ≠ t) : y.phase u = x.phase u := by
    rw [hphase, update_of_ne hu]
  have hmine (u : T) (i : ℕ) (hi : i ≠ k) (ho : (x.phase u).owns = some i) : u ≠ t := by
    rintro rfl
    exact hi (hhad i ho)
  refine ⟨fun id i b hid => ?_, fun u => ?_, fun u v i hu hv => ?_, fun port r hr => ?_,
    fun i hi => ?_, fun i hi => ?_, fun i hi => ?_, hreports, hfaulted⟩
  · rcases eq_or_ne i k with rfl | hne
    · exact hnamed id b hid
    · rw [hbeside.idOf hne]
      obtain ⟨hname, hlt⟩ := h.named id i b ((hbeside.entry i hne id b).mp hid)
      exact ⟨hname, Nat.lt_of_lt_of_le hlt htasks⟩
  · rcases eq_or_ne u t with rfl | hu
    · rw [hself]
      exact hfits
    · rw [hother u hu]
      exact hbeside.fits (hothers u hu) (hdying u hu) (h.fits u)
  · rcases eq_or_ne u t with rfl | hut <;> rcases eq_or_ne v u with rfl | hvu
    · rfl
    · rw [hself] at hu
      rw [hother v hvu, hhas i hu] at hv
      exact absurd hv (hothers v hvu)
    · rfl
    · rcases eq_or_ne v t with rfl | hvt
      · rw [hself] at hv
        rw [hother u hut, hhas i hv] at hu
        exact absurd hu (hothers u hut)
      · rw [hother u hut] at hu
        rw [hother v hvt] at hv
        exact h.owner u v i hu hv
  · obtain ⟨hlt, i, hrec, hport, hinst, hk, hnot⟩ := hmapped port r hr
    refine ⟨hlt, i, hrec, hport, hinst, fun u hu => ?_⟩
    rcases eq_or_ne u t with rfl | hut
    · rw [hself] at hu
      obtain rfl := hhas i (owns_of_hides hu)
      exact hk rfl hu
    · rw [hother u hut] at hu
      rcases eq_or_ne i k with rfl | hne
      · exact hothers u hut (owns_of_hides hu)
      · exact hnot hne u hu
  · rcases eq_or_ne i k with rfl | hne
    · exact ⟨t, by rw [hself]; exact hreserved hi⟩
    · obtain ⟨u, hu⟩ := h.reserved i ((hbeside.reserved hne).mp hi)
      exact ⟨u, by rw [hother u (hmine u i hne (owns_of_reserves hu))]; exact hu⟩
  · rcases eq_or_ne i k with rfl | hne
    · exact (hinstalled hi).imp id fun hp => ⟨t, by rw [hself]; exact hp⟩
    · rcases h.installed i ((hbeside.installed hne).mp hi) with hp | ⟨u, hu⟩
      · exact .inl ((hbeside.public hne).mpr hp)
      · exact .inr ⟨u, by rw [hother u (hmine u i hne (owns_of_hides hu))]; exact hu⟩
  · rcases eq_or_ne i k with rfl | hne
    · exact hfresh hi
    · rw [hbeside.task i hne]
      exact h.fresh i (Nat.le_trans htasks hi)

theorem Inv.tends (halike : Alike x y) (htask : ∀ i, i ≠ k → y.task i = x.task i) (hk : k < x.tasks)
    (hothers : ∀ u, u ≠ t → (x.phase u).owns ≠ some k)
    (hhad : ∀ i, (x.phase t).owns = some i → i = k) (hhas : ∀ i, p.owns = some i → i = k)
    (hdead : (x.task k).dead = true → (y.task k).dead = true) (hfits : y.Fits p)
    (hreserves : (x.phase t).reserves = p.reserves) (hhid : (x.phase t).hides = none)
    (hhides : p.hides = none) (hreports : y.reports = x.reports)
    (hfaulted : y.faulted = x.faulted) : y.Inv := by
  refine h.move hphase (halike.beside htask) hothers hhad hhas (fun u _ port id hu => ?_) hfits
    (fun id b hid => ?_) (fun port r hr => ?_) (fun hr => ?_) (fun hi => .inl ?_)
    (Nat.le_of_eq halike.tasks.symm) (fun hle => ?_) (hreports ▸ h.reports)
    (hfaulted.trans h.faulted)
  · have hx := h.fits u
    rw [hu] at hx ⊢
    exact ⟨halike.struck.mpr hx.1, hx.2.imp hdead halike.public.mpr⟩
  · rw [halike.idOf, halike.tasks]
    rw [halike.taskDir] at hid
    exact h.named id k b hid
  · rw [halike.portTable] at hr
    obtain ⟨hlt, i, hrec, hport, hinst, hnot⟩ := h.mapped port r hr
    rw [halike.records, halike.record]
    exact ⟨hlt, i, by rw [halike.idOf]; exact hrec, by rw [halike.portOf]; exact hport,
      halike.installed.mpr hinst, fun _ => by rw [hhides]; simp, fun _ => hnot⟩
  · obtain ⟨u, hu⟩ := h.reserved k (halike.reserved.mp hr)
    rcases eq_or_ne u t with rfl | hne
    · exact hreserves ▸ hu
    · exact absurd (owns_of_reserves hu) (hothers u hne)
  · rcases h.installed k (halike.installed.mp hi) with hp | ⟨u, hu⟩
    · exact halike.public.mpr hp
    · rcases eq_or_ne u t with rfl | hne
      · rw [hhid] at hu
        cases hu
      · exact absurd (owns_of_hides hu) (hothers u hne)
  · rw [halike.tasks] at hle
    exact absurd hk (Nat.not_lt.mpr hle)

theorem Inv.aside (halike : Alike x y) (htask : y.task = x.task) (hhad : (x.phase t).owns = none)
    (hhas : p.owns = none) (hfits : x.Fits p)
    (hreports : ∀ r ∈ y.reports, r.success = false → r.left = false)
    (hfaulted : y.faulted = x.faulted) : y.Inv := by
  have hself : y.phase t = p := by rw [hphase, update_self]
  have hother (u : T) (hu : u ≠ t) : y.phase u = x.phase u := by
    rw [hphase, update_of_ne hu]
  have howns (u : T) : (y.phase u).owns = (x.phase u).owns := by
    rcases eq_or_ne u t with rfl | hu
    · rw [hself, hhas, hhad]
    · rw [hother u hu]
  have hmine (u : T) (i : ℕ) (ho : (x.phase u).owns = some i) : u ≠ t := by
    rintro rfl
    rw [hhad] at ho
    cases ho
  have hhides (u : T) (i : ℕ) (hu : (y.phase u).hides = some i) : (x.phase u).hides = some i := by
    have ho := owns_of_hides hu
    rw [howns] at ho
    rwa [hother u (hmine u i ho)] at hu
  refine ⟨fun id i b hid => ?_, fun u => ?_, fun u v i hu hv => ?_, fun port r hr => ?_,
    fun i hi => ?_, fun i hi => ?_, fun i hi => ?_, hreports, hfaulted.trans h.faulted⟩
  · rw [halike.idOf, halike.tasks]
    rw [halike.taskDir] at hid
    exact h.named id i b hid
  · rcases eq_or_ne u t with rfl | hu
    · rw [hself]
      exact halike.fits htask hfits
    · rw [hother u hu]
      exact halike.fits htask (h.fits u)
  · rw [howns] at hu hv
    exact h.owner u v i hu hv
  · rw [halike.portTable] at hr
    obtain ⟨hlt, i, hrec, hport, hinst, hnot⟩ := h.mapped port r hr
    rw [halike.records, halike.record]
    exact ⟨hlt, i, by rw [halike.idOf]; exact hrec, by rw [halike.portOf]; exact hport,
      halike.installed.mpr hinst, fun u hu => hnot u (hhides u i hu)⟩
  · obtain ⟨u, hu⟩ := h.reserved i (halike.reserved.mp hi)
    exact ⟨u, by rw [hother u (hmine u i (owns_of_reserves hu))]; exact hu⟩
  · rcases h.installed i (halike.installed.mp hi) with hp | ⟨u, hu⟩
    · exact .inl (halike.public.mpr hp)
    · exact .inr ⟨u, by rw [hother u (hmine u i (owns_of_hides hu))]; exact hu⟩
  · rw [halike.tasks] at hi
    rw [htask]
    exact h.fresh i hi

end

end Master

end MachUS.Tm.Registration

namespace MachUS.Tm.Registration

open Option

variable {T : Type} {k i : ℕ} {p q : Phase}

namespace Master

section Views

variable {x y : Master T} {t : T}

theorem task_amend (x : Master T) (k : ℕ) (f : TmTask → TmTask) :
    (x.amend k f).task k = f (x.task k) :=
  Function.update_self _ _ _

theorem task_amend_of_ne (x : Master T) (f : TmTask → TmTask) (hi : i ≠ k) :
    (x.amend k f).task i = x.task i :=
  Function.update_of_ne hi _ _

theorem Alike.amend (x : Master T) (k : ℕ) (f : TmTask → TmTask)
    (hid : (f (x.task k)).taskId = (x.task k).taskId)
    (hport : (f (x.task k)).kernelPort = (x.task k).kernelPort) : Alike x (x.amend k f) := by
  refine ⟨fun i => ?_, fun i => ?_, rfl, rfl, rfl, rfl, rfl⟩
  · rcases eq_or_ne i k with rfl | hi
    · rw [Master.idOf, task_amend, hid, Master.idOf]
    · rw [Master.idOf, task_amend_of_ne x f hi, Master.idOf]
  · rcases eq_or_ne i k with rfl | hi
    · rw [Master.portOf, task_amend, hport, Master.portOf]
    · rw [Master.portOf, task_amend_of_ne x f hi, Master.portOf]

theorem Alike.trans {z : Master T} (h : Alike x y) (h' : Alike y z) : Alike x z :=
  ⟨fun i => (h'.idOf i).trans (h.idOf i), fun i => (h'.portOf i).trans (h.portOf i),
    h'.taskDir.trans h.taskDir, h'.portTable.trans h.portTable, h'.record.trans h.record,
    h'.records.trans h.records, h'.tasks.trans h.tasks⟩

theorem Installed.unique (hk : x.Installed k) (hi : x.Installed i) (hid : x.idOf i = x.idOf k) :
    i = k := by
  rw [Installed, hid] at hi
  exact congrArg Entry.task (some.inj (hi.symm.trans hk))

theorem Reserved.not_installed (hk : x.Reserved k) (hi : x.Installed i) : x.idOf i ≠ x.idOf k := by
  intro hid
  rw [Installed, hid] at hi
  cases hk.symm.trans hi

theorem mapped_eq_some {port id : ℕ} :
    x.mapped port = some id ↔ ∃ r, x.portTable port = some r ∧ x.record r = some id :=
  bind_eq_some_iff

theorem Inv.alone (h : x.Inv) (hold : x.phase t = q) (hq : q.owns = some k) (u : T) (hu : u ≠ t) :
    (x.phase u).owns ≠ some k :=
  fun ho => hu (h.owner u t k ho (hold ▸ hq))

theorem Inv.stands (h : x.Inv) (hold : x.phase t = q) : x.Fits q := hold ▸ h.fits t

theorem Inv.reserved_lt (h : x.Inv) (hk : x.Reserved k) : k < x.tasks := (h.named _ _ _ hk).2

theorem Inv.installed_lt (h : x.Inv) (hk : x.Installed k) : k < x.tasks := (h.named _ _ _ hk).2

theorem Inv.owned_lt (h : x.Inv) (ho : (x.phase t).owns = some k) : k < x.tasks := by
  have hfits := h.fits t
  cases hp : x.phase t with
  | joining i _ | counting i _ | cancelling i =>
    rw [hp] at ho hfits
    cases ho
    exact h.reserved_lt hfits.1
  | installing i _ =>
    rw [hp] at ho hfits
    cases ho
    exact h.reserved_lt hfits
  | entering i _ =>
    rw [hp] at ho hfits
    cases ho
    exact h.installed_lt hfits
  | leaving _ _ i | uncounting _ _ i | unmapping _ _ i =>
    rw [hp] at ho hfits
    cases ho
    exact h.installed_lt hfits.2.2.1
  | burying _ i =>
    rw [hp] at ho hfits
    cases ho
    exact h.installed_lt hfits.2.2
  | _ =>
    rw [hp] at ho
    cases ho

theorem Inv.unclaimed (h : x.Inv) (hpublic : x.Public k) (hlive : (x.task k).dead ≠ true) (u : T) :
    (x.phase u).owns ≠ some k := by
  intro ho
  obtain ⟨r, hr, hrec⟩ := mapped_eq_some.mp hpublic.2
  obtain ⟨-, i, hi, hport, hinst, hnot⟩ := h.mapped _ r hr
  obtain rfl := hpublic.1.unique hinst (some.inj (hi.symm.trans hrec))
  have hfits := h.fits u
  have hhides := hnot u
  cases hp : x.phase u with
  | joining j _ | counting j _ | cancelling j =>
    rw [hp] at ho hfits
    cases ho
    exact Reserved.not_installed hfits.1 hpublic.1 rfl
  | installing j _ =>
    rw [hp] at ho hfits
    cases ho
    exact Reserved.not_installed hfits hpublic.1 rfl
  | entering j _ | burying _ j =>
    rw [hp] at ho hhides
    exact hhides ho
  | leaving _ _ j | uncounting _ _ j | unmapping _ _ j =>
    rw [hp] at ho hfits
    cases ho
    exact hlive hfits.2.1
  | _ =>
    rw [hp] at ho
    cases ho

end Views

variable [DecidableEq T] {x y : Master T} {t : T}

theorem Alike.goes (h : Alike x y) : Alike x (y.goes t p) :=
  h.trans (.same rfl rfl rfl rfl rfl rfl)

section

variable (h : x.Inv)

include h

theorem Inv.works (hold : x.phase t = q) (hq : q.owns = some k)
    (hp : p.owns = some k) (hphase : y.phase = Function.update x.phase t p)
    (halike : Alike x y) (htask : ∀ i, i ≠ k → y.task i = x.task i)
    (hdead : (y.task k).dead = (x.task k).dead) (hfits : y.Fits p)
    (hreserves : q.reserves = p.reserves) (hhid : q.hides = none) (hhides : p.hides = none)
    (hreports : y.reports = x.reports) (hfaulted : y.faulted = x.faulted) : y.Inv := by
  subst hold
  exact h.tends hphase halike htask (h.owned_lt hq) (h.alone rfl hq)
    (fun i hi => some.inj (hi.symm.trans hq)) (fun i hi => some.inj (hi.symm.trans hp))
    (fun hd => hdead.trans hd) hfits hreserves hhid hhides hreports hfaulted

theorem Inv.amends (hold : x.phase t = q) (hq : q.owns = some k)
    (hp : p.owns = some k) (f : TmTask → TmTask) (hid : (f (x.task k)).taskId = (x.task k).taskId)
    (hport : (f (x.task k)).kernelPort = (x.task k).kernelPort)
    (hdead : (f (x.task k)).dead = (x.task k).dead)
    (hphase : y.phase = Function.update x.phase t p) (hrest : Alike (x.amend k f) y)
    (htask : y.task = (x.amend k f).task)
    (hfits : Alike x y → y.task k = f (x.task k) → y.Fits p)
    (hreserves : q.reserves = p.reserves) (hhid : q.hides = none) (hhides : p.hides = none)
    (hreports : y.reports = x.reports) (hfaulted : y.faulted = x.faulted) : y.Inv := by
  have halike : Alike x y := (Alike.amend x k f hid hport).trans hrest
  have hself : y.task k = f (x.task k) := by rw [htask, task_amend]
  refine h.works hold hq hp hphase halike (fun i hi => ?_) ?_ (hfits halike hself) hreserves hhid
    hhides hreports hfaulted
  · rw [htask, task_amend_of_ne x f hi]
  · rw [hself, hdead]

theorem Inv.join {source : Source} (hold : x.phase t = .joining k source)
    (a : Answers) : (x.join t k source a).Inv := by
  obtain ⟨hreserved, hcounted⟩ : x.Fits (.joining k source) := h.stands hold
  refine h.amends hold rfl rfl (fun o => { o with tgrp := x.newTgrp a source }) rfl rfl rfl rfl
    (.same rfl rfl rfl rfl rfl rfl) rfl (fun halike hself => ?_) rfl rfl rfl rfl rfl
  exact ⟨halike.reserved.mpr hreserved, (congrArg TmTask.counted hself).trans hcounted⟩

theorem Inv.count {maxuprc : ℕ} {source : Source} (hold : x.phase t = .counting k source)
    {ok : Bool} (hfull : x.numOfTasks (x.task k).session = maxuprc → (x.task k).tgrp = none)
    (hroom : x.numOfTasks (x.task k).session ≠ maxuprc → source.accepts ok = true) :
    (x.count maxuprc t k source ok).Inv := by
  obtain ⟨hreserved, hcounted⟩ : x.Fits (.counting k source) := h.stands hold
  rw [Master.count]
  split
  · rename_i heq
    have halike : Alike x (x.goes t (.cancelling k)) := .same rfl rfl rfl rfl rfl rfl
    exact h.works hold rfl rfl rfl halike (fun _ _ => rfl) rfl
      ⟨halike.reserved.mpr hreserved, hcounted, hfull heq⟩ rfl rfl rfl rfl rfl
  · rename_i hne
    rw [if_pos (hroom hne)]
    exact h.amends hold rfl rfl (fun o => { o with counted := true }) rfl rfl rfl rfl
      (.same rfl rfl rfl rfl rfl rfl) rfl (fun halike _ => halike.reserved.mpr hreserved) rfl rfl rfl
      rfl rfl

theorem Inv.leave {port id : ℕ} (hold : x.phase t = .leaving port id k) :
    (x.leave t port id k).Inv := by
  obtain ⟨hstruck, hdead, hpublic⟩ : x.Fits (.leaving port id k) := h.stands hold
  refine h.amends hold rfl rfl (fun o => { o with tgrp := none }) rfl rfl rfl rfl
    (.same rfl rfl rfl rfl rfl rfl) rfl (fun halike hself => ?_) rfl rfl rfl rfl rfl
  exact ⟨halike.struck.mpr hstruck, (congrArg TmTask.dead hself).trans hdead,
    halike.public.mpr hpublic⟩

theorem Inv.decrement {port id : ℕ} (hold : x.phase t = .uncounting port id k) :
    ((x.decrement k).goes t (.unmapping port id k)).Inv := by
  obtain ⟨hstruck, hdead, hpublic⟩ : x.Fits (.uncounting port id k) := h.stands hold
  refine h.amends hold rfl rfl (fun o => { o with counted := false }) rfl rfl rfl rfl
    (.same rfl rfl rfl rfl rfl rfl) rfl (fun halike hself => ?_) rfl rfl rfl rfl rfl
  exact ⟨halike.struck.mpr hstruck, (congrArg TmTask.dead hself).trans hdead,
    halike.public.mpr hpublic⟩

theorem Inv.die {port id : ℕ} (hold : x.phase t = .dying port id k) : (x.die t port id k).Inv := by
  obtain ⟨hstruck, hgood⟩ : x.Fits (.dying port id k) := h.stands hold
  have howns : (x.phase t).owns = none := by
    rw [hold]
    rfl
  rw [Master.die]
  split
  · exact h.aside rfl (.same rfl rfl rfl rfl rfl rfl) rfl howns rfl trivial h.reports rfl
  · rename_i hlive
    have hpublic : x.Public k := hgood.resolve_left hlive
    let z := x.amend k fun o => { o with dead := true }
    have halike : Alike x z := Alike.amend x k _ rfl rfl
    have hrest (i : ℕ) (hi : i ≠ k) : z.task i = x.task i := task_amend_of_ne x _ hi
    have hdead : (z.task k).dead = true := congrArg TmTask.dead (task_amend x k _)
    refine h.tends (y := z.goes t (.leaving port id k)) rfl halike.goes hrest
      (h.installed_lt hpublic.1) (fun u _ => h.unclaimed hpublic hlive u) (fun i hi => ?_)
      (fun i hi => (some.inj hi).symm) (fun _ => hdead)
      ⟨halike.goes.struck.mpr hstruck, hdead, halike.goes.public.mpr hpublic⟩ ?_ ?_ rfl rfl rfl
    · rw [howns] at hi
      cases hi
    · rw [hold]
      rfl
    · rw [hold]
      rfl

end

end Master

end MachUS.Tm.Registration
