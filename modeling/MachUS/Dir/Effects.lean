import MachUS.Dir.DeadlockFreedom

namespace MachUS.Dir

open Program Function Gives World

structure View where
  kind : ObjId → Kind
  buckets : DirId → ℕ → List Addr
  count : DirId → ℤ
  entries : Addr → Option Entry
  tmp : ObjId → TmpProp Link
  serials : ℕ
  freed : List ℕ
  registered : List ℕ
  unregistered : List ℕ

def World.view (w : World) : View where
  kind := w.kind
  buckets := fun d => (w.dirs d).buckets
  count := fun d => (w.dirs d).entryCount
  entries := w.entries
  tmp := w.tmp
  serials := w.serials
  freed := w.freed
  registered := w.registered
  unregistered := w.unregistered

namespace View

def setEntry (v : View) (a : Addr) (e : Entry) : View :=
  { v with entries := update v.entries a (some e) }

def freeEntry (v : View) (a : Addr) (e : Entry) : View :=
  { v with entries := update v.entries a none, freed := e.serial :: v.freed }

def newEntry (v : View) (a : Addr) (name : Name) : View :=
  { v with
    entries := update v.entries a (some ⟨name, nstReserved, 0, none, v.serials⟩)
    serials := v.serials + 1 }

def link (v : View) (d : DirId) (i : ℕ) (a : Addr) : View :=
  { v with
    buckets := update v.buckets d (update (v.buckets d) i (a :: v.buckets d i))
    count := update v.count d (v.count d + 1) }

def unlink (v : View) (d : DirId) (i : ℕ) (a : Addr) : View :=
  { v with
    buckets := update v.buckets d (update (v.buckets d) i ((v.buckets d i).erase a))
    count := update v.count d (v.count d - 1) }

def setTmp (v : View) (o : ObjId) (p : TmpProp Link) : View :=
  { v with tmp := update v.tmp o p }

def register (v : View) (s : ℕ) : View := { v with registered := s :: v.registered }

def unregister (v : View) (s : ℕ) : View := { v with unregistered := s :: v.unregistered }

def foundIn (v : View) (name : Name) : List Addr → Option (Addr × Entry)
  | [] => none
  | a :: rest =>
    match v.entries a with
    | none => none
    | some e => if e.name = name then some (a, e) else v.foundIn name rest

def found (v : View) (d : DirId) (name : Name) : Option (Addr × Entry) :=
  v.foundIn name (v.buckets d (nameHash name))

def lastAnswer (v : View) (o : ObjId) (given : Ret) : Ret :=
  match v.kind o with
  | .temporaryDirectory d => if v.count d ≠ 0 then .dirNotEmpty else .success
  | _ => given

end View

theorem view_dir (w : World) (d : DirId) (dir : Directory) :
    view { w with dirs := update w.dirs d dir } =
      { w.view with
        buckets := update w.view.buckets d dir.buckets
        count := update w.view.count d dir.entryCount } := by
  have hbuckets : (fun d' => (update w.dirs d dir d').buckets) =
      update w.view.buckets d dir.buckets := by
    funext d'
    by_cases hd : d' = d
    · subst hd
      simp
    · simp [hd, view]
  have hcount : (fun d' => (update w.dirs d dir d').entryCount) =
      update w.view.count d dir.entryCount := by
    funext d'
    by_cases hd : d' = d
    · subst hd
      simp
    · simp [hd, view]
  rw [view, hbuckets, hcount]
  rfl

theorem view_found (w : World) (d : DirId) (name : Name) : w.found d name = w.view.found d name := by
  have hbucket (bucket : List Addr) : w.foundIn name bucket = w.view.foundIn name bucket := by
    induction bucket with
    | nil => rfl
    | cons a rest ih =>
      rw [foundIn, View.foundIn, ih]
      rfl
  exact hbucket _

abbrev Does {α : Type} (m : M α) (v : View) (Q : α → View → Prop) : Prop :=
  Gives view (· = Fault.badEntry) m v Q

section Primitives

variable {v : View} {Q : Unit → View → Prop}

theorem does_acquire {l : Lock} (h : Q () v) : Does (acquire l) v Q := by
  refine look fun w _ => ite (fun _ => fault nofun) fun _ => ?_
  exact modify (g := id) (fun _ => rfl) h

theorem does_release {l : Lock} (h : Q () v) : Does (release l) v Q :=
  modify (g := id) (fun _ => rfl) h

variable {a : Addr}

theorem does_readEntry {e : Entry} {P : Entry → View → Prop} (ha : v.entries a = some e)
    (h : P e v) : Does (readEntry a) v P := by
  refine look fun w hw => ?_
  subst hw
  have hread : w.entries a = some e := ha
  simp only [hread]
  exact pure h

theorem does_writeEntry {e : Entry} {f : Entry → Entry} (ha : v.entries a = some e)
    (h : Q () (v.setEntry a (f e))) : Does (writeEntry a f) v Q :=
  (does_readEntry ha (modify (g := (View.setEntry · a (f e))) (fun _ => rfl) h)).bind

theorem does_freeEntry {e : Entry} (ha : v.entries a = some e)
    (h : Q () (v.freeEntry a e)) : Does (freeEntry a) v Q :=
  (does_readEntry ha (modify (g := (View.freeEntry · a e)) (fun _ => rfl) h)).bind

theorem does_newEntry {fresh : Addr} {name : Name}
    (h : fresh ≠ 0 → v.entries fresh = none → Q () (v.newEntry fresh name)) :
    Does (newEntry fresh name) v Q := by
  refine look fun w hw => ite (fun _ => fault nofun) fun hfree => ?_
  obtain ⟨hzero, hfree⟩ := not_or.mp hfree
  refine modify (g := fun v => v.newEntry fresh name) (fun _ => rfl) (h hzero ?_)
  subst hw
  exact Option.not_isSome_iff_eq_none.mp hfree

theorem does_link {d : DirId} {i : ℕ} (h : Q () (v.link d i a)) :
    Does (modifyDir d fun dir => dir.link i a) v Q :=
  modify (g := fun v => v.link d i a) (fun w => view_dir w d _) h

theorem does_unlink {d : DirId} {i : ℕ} (h : Q () (v.unlink d i a)) :
    Does (modifyDir d fun dir => dir.unlink i a) v Q :=
  modify (g := fun v => v.unlink d i a) (fun w => view_dir w d _) h

theorem does_linkCount {d : DirId} {f : Directory → ℤ} (h : Q () v) :
    Does (modifyDir d fun dir => { dir with linkCount := f dir }) v Q := by
  refine modify (g := id) (fun w => (view_dir w d _).trans ?_) h
  simp [view]

theorem does_modifyTmp {o : ObjId} {f : TmpProp Link → TmpProp Link}
    (h : Q () (v.setTmp o (f (v.tmp o)))) : Does (modifyTmp o f) v Q :=
  modify (g := fun v => v.setTmp o (f (v.tmp o))) (fun _ => rfl) h

end Primitives

end MachUS.Dir

namespace MachUS.Dir

open Program View Option Or

variable {v : View} {d : DirId} {name : Name}

theorem view_lastAnswer (w : World) (o : ObjId) (given : Ret) :
    lastAnswer w o given = w.view.lastAnswer o given := rfl

theorem View.setTmp_self (v : View) (o : ObjId) : v.setTmp o (v.tmp o) = v := by
  simp [setTmp]

def View.Readable (v : View) (d : DirId) : Prop := ∀ i, ∀ a ∈ v.buckets d i, ∃ e, v.entries a = some e

theorem does_scanBucket {bucket : List Addr} {Q : Option Addr → View → Prop}
    (hread : ∀ a ∈ bucket, ∃ e, v.entries a = some e)
    (h : Q ((v.foundIn name bucket).map Prod.fst) v) : Does (scanBucket name bucket) v Q := by
  induction bucket with
  | nil => exact Gives.pure h
  | cons a rest ih =>
    obtain ⟨e, ha⟩ := hread a (by simp)
    rw [foundIn, ha] at h
    refine (does_readEntry ha ?_).bind
    refine Gives.ite (fun hname => ?_) fun hname => ?_
    · simp only [hname, if_pos] at h
      exact Gives.pure h
    · simp only [hname, if_false] at h
      exact ih (fun b hb => hread b (by simp [hb])) h

theorem does_scanForName {Q : Option Addr → View → Prop} (hread : v.Readable d)
    (h : Q ((v.found d name).map Prod.fst) v) : Does (scanForName d name) v Q := by
  refine Gives.look fun w hw => ?_
  subst hw
  exact does_scanBucket (hread _) h

theorem View.entry_of_foundIn {bucket : List Addr} {a : Addr} {e : Entry}
    (h : v.foundIn name bucket = some (a, e)) : v.entries a = some e ∧ a ∈ bucket ∧ e.name = name := by
  induction bucket with
  | nil => cases h
  | cons b rest ih =>
    rw [foundIn] at h
    cases hb : v.entries b with
    | none => simp [hb] at h
    | some e' =>
      simp only [hb] at h
      split_ifs at h with hname
      · cases some.inj h
        exact ⟨hb, by simp, hname⟩
      · obtain ⟨ha, hmem, he⟩ := ih h
        exact ⟨ha, by simp [hmem], he⟩

theorem View.entry_of_found {a : Addr} {e : Entry} (h : v.found d name = some (a, e)) :
    v.entries a = some e ∧ a ∈ v.buckets d (nameHash name) ∧ e.name = name :=
  entry_of_foundIn h

theorem does_done {α : Type} {l : Lock} {a : α} {Q : α → View → Prop} (h : Q a v) :
    Does (do release l; pure a : M α) v Q :=
  (does_release (Gives.pure h)).bind

def View.reserved (v : View) (d : DirId) (name : Name) (fresh : Addr) : View :=
  (v.newEntry fresh name).link d (nameHash name) fresh

def Reserves (v : View) (d : DirId) (name : Name) (fresh : Addr) (ret : Ret) (v' : View) : Prop :=
  ret ≠ .success ∧ v' = v ∨
    ret = .success ∧ fresh ≠ 0 ∧ v.entries fresh = none ∧ v.found d name = none ∧
      v' = v.reserved d name fresh

theorem does_reserve (fresh : Addr) (hread : v.Readable d) :
    Does (nsReserveEntry d name fresh) v (Reserves v d name fresh) := by
  refine Gives.ite (fun _ => Gives.pure (inl ⟨nofun, rfl⟩)) fun _ => ?_
  refine Gives.ite (fun _ => Gives.pure (inl ⟨nofun, rfl⟩)) fun _ => ?_
  refine (does_acquire ((does_scanForName hread ?_).bind)).bind
  cases hfound : v.found d name with
  | some r => exact does_done (inl ⟨nofun, rfl⟩)
  | none =>
    refine (does_newEntry fun hzero hfree => (does_link ?_).bind).bind
    exact does_done (inr ⟨rfl, hzero, hfree, hfound, rfl⟩)

section Entries

variable {a : Addr} {e : Entry} (ha : v.entries a = some e)

include ha

theorem does_takeOut {Q : Unit → View → Prop}
    (hin : a ∈ v.buckets d (nameHash e.name) → Q () (v.unlink d (nameHash e.name) a))
    (hout : a ∉ v.buckets d (nameHash e.name) → Q () v) : Does (takeOut d a) v Q := by
  refine (does_readEntry ha (Gives.look fun w hw => ?_)).bind
  subst hw
  exact Gives.ite (fun hmem => does_unlink (hin hmem)) fun hmem => Gives.pure (hout hmem)

theorem does_removeTmplink {Q : Ret → View → Prop} (hzero : a ≠ 0)
    (hin : a ∈ v.buckets d (nameHash e.name) →
      Q .success ((v.unlink d (nameHash e.name) a).freeEntry a e))
    (hout : a ∉ v.buckets d (nameHash e.name) → Q .success (v.freeEntry a e)) :
    Does (nsRemoveTmplink d a) v Q := by
  refine (does_acquire (Gives.ite (fun hnull => (hzero hnull).elim) fun _ => ?_)).bind
  refine (does_takeOut ha (fun hmem => ?_) fun hmem => ?_).bind
  · have hread : (v.unlink d (nameHash e.name) a).entries a = some e := ha
    exact (does_release (does_freeEntry hread (Gives.pure (hin hmem))).bind).bind
  · exact (does_release (does_freeEntry ha (Gives.pure (hout hmem))).bind).bind

theorem does_cancel {Q : Ret → View → Prop} (hzero : a ≠ 0) (htype : e.type = nstReserved)
    (hlinked : a ∈ v.buckets d (nameHash e.name))
    (h : Q .success ((v.unlink d (nameHash e.name) a).freeEntry a e)) :
    Does (nsCancelEntry d a) v Q := by
  refine (does_acquire (Gives.ite (fun hnull => (hzero hnull).elim) fun _ => ?_)).bind
  refine (does_readEntry ha (Gives.ite (fun hother => (hother htype).elim) fun _ => ?_)).bind
  refine (does_takeOut ha (fun _ => ?_) fun hout => (hout hlinked).elim).bind
  have hread : (v.unlink d (nameHash e.name) a).entries a = some e := ha
  exact (does_release (does_freeEntry hread (Gives.pure h)).bind).bind

def View.dropped (v : View) (d : DirId) (name : Name) (a : Addr) (e : Entry) : View :=
  (v.unlink d (nameHash name) a).setEntry a { e with type := nstInvalid, obj := none }

theorem does_dropDead {Q : Unit → View → Prop} (h : Q () (v.dropped d name a e)) :
    Does (dropDead d name a) v Q :=
  (does_unlink (does_writeEntry (v := v.unlink d (nameHash name) a) ha h)).bind

end Entries

section Objects

variable {o : ObjId} {Q : Ret → View → Prop}

theorem does_volLink {change : ℤ} (h : Q .success v) : Does (volLink o change) v Q := by
  refine (does_acquire (Gives.bind ?_)).bind
  exact Gives.modify (g := id) (fun _ => rfl) (does_done h)

theorem does_dirLink (h : Q .success v) : Does (dirLink d) v Q :=
  (does_acquire (does_linkCount (does_done h)).bind).bind

theorem does_dirUnlink (hempty : Q .dirNotEmpty v) (h : Q .success v) : Does (dirUnlink d) v Q := by
  refine (does_acquire (Gives.look fun w _ => ?_)).bind
  exact Gives.ite (fun _ => does_done hempty) fun _ => (does_linkCount (does_done h)).bind

def Registers (v : View) (o : ObjId) (parent : Link) (ret : Ret) (v' : View) : Prop :=
  ret = .success ∧ (v.tmp o).active = true ∧ (v.tmp o).parent = none ∧
      v' = (v.setTmp o ((v.tmp o).nsRegisterTmplink parent).2).register parent.serial ∨
    ret ≠ .success ∧ v' = v

theorem does_logRegistered {ret : Ret} {parent : Link} {Q : Unit → View → Prop}
    (h : Q () (if ret = .success then v.register parent.serial else v)) :
    Does (logRegistered ret parent) v Q := by
  refine Gives.modify (g := fun v => if ret = .success then v.register parent.serial else v)
    (fun w => ?_) h
  split_ifs <;> rfl

theorem does_tmpRegisterTmplink (parent : Link) :
    Does (tmpRegisterTmplink o parent) v (Registers v o parent) := by
  refine (does_acquire (Gives.look fun w hw => ?_)).bind
  subst hw
  have hregister : Registers w.view o parent ((w.tmp o).nsRegisterTmplink parent).1
      (if ((w.tmp o).nsRegisterTmplink parent).1 = .success
        then (w.view.setTmp o ((w.tmp o).nsRegisterTmplink parent).2).register parent.serial
        else w.view.setTmp o ((w.tmp o).nsRegisterTmplink parent).2) := by
    split_ifs with hok
    · obtain ⟨hactive, hparent⟩ := tmplink_success_iff.mp hok
      exact inl ⟨hok, hactive, hparent, rfl⟩
    · refine inr ⟨hok, ?_⟩
      have hsame : ((w.tmp o).nsRegisterTmplink parent).2 = w.tmp o := by
        rw [TmpProp.nsRegisterTmplink] at hok ⊢
        split_ifs at hok ⊢ <;> first | rfl | exact (hok rfl).elim
      exact (congrArg _ hsame).trans (setTmp_self _ o)
  generalize (w.tmp o).nsRegisterTmplink parent = r at hregister ⊢
  exact (does_modifyTmp (does_logRegistered (does_done hregister)).bind).bind

theorem does_registerTmplink_temporary (parent : Link) (hkind : IsTemporary (v.kind o)) :
    Does (nsRegisterTmplink o parent) v (Registers v o parent) := by
  refine Gives.look fun w hw => ?_
  subst hw
  cases hk : w.kind o with
  | temporary => exact does_tmpRegisterTmplink parent
  | temporaryDirectory d => exact does_tmpRegisterTmplink parent
  | foreign => exact (hk ▸ hkind : IsTemporary .foreign).elim
  | agency => exact (hk ▸ hkind : IsTemporary .agency).elim
  | directory d => exact (hk ▸ hkind : IsTemporary (.directory d)).elim

theorem does_registerTmplink_other (parent : Link) (hkind : ¬IsTemporary (v.kind o)) :
    Does (nsRegisterTmplink o parent) v fun _ v' => v' = v := by
  refine Gives.look fun w hw => ?_
  subst hw
  cases hk : w.kind o with
  | temporary => exact (hkind (show IsTemporary (w.kind o) from hk ▸ trivial)).elim
  | temporaryDirectory d => exact (hkind (show IsTemporary (w.kind o) from hk ▸ trivial)).elim
  | foreign => exact Gives.pure rfl
  | agency => exact does_volLink rfl
  | directory d => exact does_dirLink rfl

theorem does_getAttributes {attrs : Ret} (h : Q attrs v) : Does (nsGetAttributes o attrs) v Q := by
  refine Gives.look fun w _ => (does_acquire (does_release ?_).bind).bind
  cases w.kind o with
  | foreign => exact Gives.pure h
  | agency => exact Gives.pure h
  | directory d => exact (does_acquire (does_done h)).bind
  | temporary => exact (does_acquire (does_done h)).bind
  | temporaryDirectory d =>
    exact (does_acquire (does_release (does_acquire (does_done h)).bind).bind).bind

def Unregisters (v : View) (o : ObjId) (ret : Ret) (v' : View) : Prop :=
  (ret = .success ∧ ∃ parent, (v.tmp o).active = true ∧ (v.tmp o).parent = some parent ∧
      v' = (v.setTmp o (v.tmp o).tmplinkUnregistered).unregister parent.serial) ∨
    ret ≠ .success ∧ v' = v

theorem unregisters_cases {p : TmpProp Link} {lastLink ret : Ret} {p' : TmpProp Link}
    (h : p.nsUnregisterTmplink lastLink = some (ret, p')) :
    (ret = .success ∧ p.active = true ∧ p.parent.isSome ∧ p' = p.tmplinkUnregistered) ∨
      ret ≠ .success ∧ p' = p := by
  rw [TmpProp.nsUnregisterTmplink] at h
  split_ifs at h with hdead hlinked hlast hunknown hrefused
  · cases some.inj h
    exact inr ⟨nofun, rfl⟩
  · cases some.inj h
    exact inr ⟨nofun, rfl⟩
  · cases some.inj h
    exact inr ⟨hrefused, rfl⟩
  all_goals
    cases some.inj h
    exact inl ⟨rfl, by simpa using hdead, by simpa [isSome_iff_ne_none] using hlinked, rfl⟩

theorem does_logUnregistered {ret : Ret} {parent : Option Link} {Q : Unit → View → Prop}
    (hsome : ∀ l, ret = .success → parent = some l → Q () (v.unregister l.serial))
    (hnone : ret ≠ .success ∨ parent = none → Q () v) : Does (logUnregistered ret parent) v Q := by
  by_cases hok : ret = .success
  · subst hok
    cases parent with
    | none => exact Gives.modify (g := id) (fun _ => rfl) (hnone (inr rfl))
    | some l => exact Gives.modify (g := (unregister · l.serial)) (fun _ => rfl) (hsome l rfl rfl)
  · refine Gives.modify (g := id) (fun w => ?_) (hnone (inl hok))
    cases ret with
    | success => exact (hok rfl).elim
    | _ => rfl

theorem does_tmpUnregisterTmplink (answers : Answers) :
    Does (tmpUnregisterTmplink o answers) v (Unregisters v o) := by
  refine (does_acquire (Gives.look fun w hw => ?_)).bind
  subst hw
  cases hr : (w.tmp o).nsUnregisterTmplink (lastAnswer w o answers.lastLink) with
  | none => exact Gives.fault nofun
  | some r =>
    obtain ⟨ret, p⟩ := r
    refine (does_modifyTmp ?_).bind
    obtain ⟨rfl, hactive, hparent, rfl⟩ | ⟨hret, rfl⟩ := unregisters_cases hr
    · obtain ⟨l, hl⟩ := isSome_iff_exists.mp hparent
      refine (does_logUnregistered (fun l' _ hl' => ?_) fun hnone => ?_).bind
      · exact does_done (inl ⟨rfl, l', hactive, hl', rfl⟩)
      · simp [hl] at hnone
    · refine (does_logUnregistered (fun l' hok _ => (hret hok).elim) fun _ => ?_).bind
      exact does_done (inr ⟨hret, setTmp_self _ o⟩)

theorem does_unregisterTmplink_temporary (answers : Answers) (hkind : IsTemporary (v.kind o)) :
    Does (nsUnregisterTmplink o answers) v (Unregisters v o) := by
  refine Gives.look fun w hw => ?_
  subst hw
  cases hk : w.kind o with
  | temporary => exact does_tmpUnregisterTmplink answers
  | temporaryDirectory d => exact does_tmpUnregisterTmplink answers
  | foreign => exact (hk ▸ hkind : IsTemporary .foreign).elim
  | agency => exact (hk ▸ hkind : IsTemporary .agency).elim
  | directory d => exact (hk ▸ hkind : IsTemporary (.directory d)).elim

theorem does_unregisterTmplink_other (answers : Answers) (hkind : ¬IsTemporary (v.kind o)) :
    Does (nsUnregisterTmplink o answers) v fun ret v' => v' = v ∧ ret ≠ .objectDead := by
  refine Gives.look fun w hw => ?_
  subst hw
  cases hk : w.kind o with
  | temporary => exact (hkind (show IsTemporary (w.kind o) from hk ▸ trivial)).elim
  | temporaryDirectory d => exact (hkind (show IsTemporary (w.kind o) from hk ▸ trivial)).elim
  | foreign => exact Gives.pure ⟨rfl, nofun⟩
  | agency => exact does_volLink ⟨rfl, nofun⟩
  | directory d => exact does_dirUnlink ⟨rfl, nofun⟩ ⟨rfl, nofun⟩

theorem does_tmpReferenceTmplink {answers : Answers}
    (hstays : (v.tmp o).nsReferenceTmplink (v.lastAnswer o answers.lastChance) = (v.tmp o, .stays))
    (hactive : (v.tmp o).active = true → Q .success (v.setTmp o (v.tmp o).referenced.2))
    (hdead : (v.tmp o).active = false → Q .objectDead v) : Does (tmpReferenceTmplink o answers) v Q := by
  refine (does_acquire (Gives.look fun w hw => Gives.bind ?_)).bind
  subst hw
  have hstep : Does (tmpStep o (·.nsReferenceTmplink (lastAnswer w o answers.lastChance))) w.view
      fun shutdown v' => shutdown = .stays ∧ v' = w.view := by
    refine Gives.look fun w' hw' => ?_
    have htmp : w'.tmp = w.tmp := congrArg tmp hw'
    dsimp only
    rw [view_lastAnswer, htmp, show (w.tmp o).nsReferenceTmplink _ = (w.tmp o, .stays) from hstays]
    exact (does_modifyTmp (Gives.pure ⟨rfl, setTmp_self _ o⟩)).bind
  refine hstep.mono fun shutdown v' ⟨hshutdown, hv⟩ => ?_
  subst hshutdown hv
  refine Gives.bind ?_
  refine Gives.pure (a := ()) ?_
  refine Gives.look fun w' hw' => ?_
  have htmp : w'.tmp = w.tmp := congrArg tmp hw'
  rw [htmp]
  cases halive : (w.tmp o).active with
  | true =>
    have href : (w.tmp o).referenced = (.success, (w.tmp o).referenced.2) := by
      simp [TmpProp.referenced, halive]
    rw [href]
    exact (does_modifyTmp (does_done (hactive halive))).bind
  | false =>
    have href : (w.tmp o).referenced = (.objectDead, w.tmp o) := by
      simp [TmpProp.referenced, halive]
    rw [href]
    refine (does_modifyTmp (does_done ?_)).bind
    rw [show w.view.setTmp o (w.tmp o) = w.view from setTmp_self _ o]
    exact hdead halive

end Objects

end MachUS.Dir
