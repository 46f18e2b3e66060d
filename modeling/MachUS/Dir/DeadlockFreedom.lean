import MachUS.Dir.SelfDeadlock

namespace MachUS.Dir

open Program Transition Moves World Or

variable {α β : Type} {k : ObjId → Kind} {h h' : List Lock}

def Walks (w : World) (d : DirId) (name : Name) (e : Entry) : Prop :=
  name.length < nsNamelen ∧ (∃ a, w.found d name = some (a, e)) ∧ e.type ≠ nstReserved

def IsTemporary : Kind → Prop
  | .temporary => True
  | .temporaryDirectory _ => True
  | _ => False

def Slips (w : World) : DirCall → Prop
  | .lookup d name answers =>
    ∃ e o parent, Walks w d name e ∧ e.obj = some o ∧ IsTemporary (w.kind o) ∧
      ShutsDown w o answers parent ∧ parent.dir = d
  | .install d tag o _ _ _ =>
    tag ≠ 0 ∧ (∃ e, w.entries tag = some e ∧ e.type = nstReserved) ∧
      (w.kind o = .directory d ∨
        w.kind o = .temporaryDirectory d ∧ (w.tmp o).active = true ∧ (w.tmp o).parent = none)
  | .remove d name _ => ∃ e o, Walks w d name e ∧ e.obj = some o ∧ w.kind o = .directory d
  | .tmpDirRemove _ d name _ => ∃ e o, Walks w d name e ∧ e.obj = some o ∧ w.kind o = .directory d
  | _ => False

section Calls

variable {w : World} {d : DirId} {o : ObjId} {answers : Answers}

theorem comes_referenceTmplink (hw : Holds k h w) (hl : .tmp o ∉ h)
    (hfree : ∀ parent, IsTemporary (w.kind o) → ShutsDown w o answers parent → .dir parent.dir ∉ h) :
    Comes k h (nsReferenceTmplink o answers) w := by
  refine comes_of_returns (returns_get.mpr ⟨rfl, rfl⟩) ?_
  cases hkind : w.kind o with
  | foreign => exact pure _ w hw
  | agency => exact pure _ w hw
  | directory d => exact pure _ w hw
  | temporary => exact comes_tmpReferenceTmplink hw hl fun p hp => hfree p (hkind ▸ trivial) hp
  | temporaryDirectory d =>
    exact comes_tmpReferenceTmplink hw hl fun p hp => hfree p (hkind ▸ trivial) hp

theorem dies_referenceTmplink {parent : Link} (hw : Holds k h w)
    (hl : .tmp o ∉ h) (hkind : IsTemporary (w.kind o)) (hshuts : ShutsDown w o answers parent)
    (hparent : .dir parent.dir ∈ h) : Dies (nsReferenceTmplink o answers) w := by
  refine dies_look.mpr ?_
  cases hk : w.kind o with
  | foreign => exact (hk ▸ hkind : IsTemporary .foreign).elim
  | agency => exact (hk ▸ hkind : IsTemporary .agency).elim
  | directory d => exact (hk ▸ hkind : IsTemporary (.directory d)).elim
  | temporary => exact dies_tmpReferenceTmplink hw hl hshuts hparent
  | temporaryDirectory d => exact dies_tmpReferenceTmplink hw hl hshuts hparent

theorem found_locked (l : List Lock) (name : Name) :
    ({ w with held := l } : World).found d name = w.found d name := by
  have hbucket (bucket : List Addr) :
      ({ w with held := l } : World).foundIn name bucket = w.foundIn name bucket := by
    induction bucket with
    | nil => rfl
    | cons a rest ih => rw [foundIn, foundIn, ih]
  exact hbucket _

section Walk

variable {name : Name} {short : β} {missing reserved : M β} {rest : Addr → Entry → M β}

theorem comes_walk (hw : Holds k [] w) (hmissing : Moves k [.dir d] [] missing)
    (hreserved : Moves k [.dir d] [] reserved)
    (hrest : ∀ a e, Walks w d name e → Comes k [] (rest a e) { w with held := [.dir d] }) :
    Comes k [] (if nsNamelen ≤ name.length then pure short else do
      acquire (.dir d)
      let found ← scanForName d name
      match found with
      | none => missing
      | some a => do
        let e ← readEntry a
        if e.type = nstReserved then reserved else rest a e) w := by
  by_cases hlong : nsNamelen ≤ name.length
  · rw [if_pos hlong]
    exact pure _ w hw
  rw [if_neg hlong]
  have hlocked : Holds k [.dir d] { w with held := .dir d :: w.held } := ⟨congrArg _ hw.held, hw.kind⟩
  refine comes_of_returns (returns_acquire (by simp [hw.held])) ?_
  refine Comes.bind (moves_scanForName d name _ hlocked) fun r w' hret => ?_
  obtain ⟨rfl, rfl⟩ := found_of_scanForName hret
  rw [found_locked]
  cases hfound : w.found d name with
  | none => exact hmissing _ hlocked
  | some r =>
    obtain ⟨a, e⟩ := r
    have ha := (scanForName_of_found hfound).1
    refine comes_of_returns (returns_readEntry (w := { w with held := .dir d :: w.held }) ha) ?_
    by_cases htype : e.type = nstReserved
    · rw [if_pos htype]
      exact hreserved _ hlocked
    · rw [if_neg htype, hw.held]
      exact hrest a e ⟨by omega, ⟨a, hfound⟩, htype⟩

theorem dies_walk {e : Entry} (hw : Holds k [] w) (hwalks : Walks w d name e)
    (hrest : ∀ a, Dies (rest a e) { w with held := [.dir d] }) :
    Dies (if nsNamelen ≤ name.length then pure short else do
      acquire (.dir d)
      let found ← scanForName d name
      match found with
      | none => missing
      | some a => do
        let e ← readEntry a
        if e.type = nstReserved then reserved else rest a e) w := by
  obtain ⟨hlong, ⟨a, hfound⟩, htype⟩ := hwalks
  rw [if_neg (by omega)]
  refine (dies_bind_of_returns (returns_acquire (by simp [hw.held]))).mpr ?_
  obtain ⟨ha, hscan⟩ := scanForName_of_found (w := { w with held := .dir d :: w.held })
    ((found_locked _ name).trans hfound)
  refine (dies_bind_of_returns hscan).mpr ((dies_bind_of_returns (returns_readEntry ha)).mpr ?_)
  rw [if_neg htype, hw.held]
  exact hrest a

end Walk

variable {name : Name}

theorem comes_lookup (hw : Holds k [] w)
    (hslip : ¬Slips w (.lookup d name answers)) : Comes k [] (nsLookupEntry d name answers) w := by
  refine comes_walk hw (moves_done _ _) (moves_done _ _) fun a e hwalks => ?_
  cases hobj : e.obj with
  | none => exact moves_done _ _ _ ⟨rfl, hw.kind⟩
  | some o =>
    have href : Comes k [.dir d] (nsReferenceTmplink o answers) { w with held := [.dir d] } := by
      refine comes_referenceTmplink ⟨rfl, hw.kind⟩ (by simp) fun parent hkind hshuts hmem => ?_
      refine hslip ⟨e, o, parent, hwalks, hobj, hkind, hshuts, ?_⟩
      simpa using hmem
    refine href.moves fun ret => ite (moves_done _ _) (ite ?_ (moves_done _ _))
    exact (moves_dropDead d name a).bind fun _ => moves_done _ _

theorem dies_lookup (hw : Holds k [] w)
    (hslip : Slips w (.lookup d name answers)) : Dies (nsLookupEntry d name answers) w := by
  obtain ⟨e, o, parent, hwalks, hobj, hkind, hshuts, rfl⟩ := hslip
  refine dies_walk hw hwalks fun a => ?_
  rw [hobj]
  refine dies_bind.mpr (inl (dies_referenceTmplink (h := [.dir parent.dir]) ⟨rfl, hw.kind⟩ ?_
    hkind hshuts ?_))
  · simp
  · simp

theorem moves_unregisterTmplink (answers : Answers)
    (hdir : ∀ d, k o = .directory d → .dir d ∉ h) (htmp : .tmp o ∉ h) (hvol : .vol o ∉ h) :
    Moves k h h (nsUnregisterTmplink o answers) := by
  refine look fun w hw => ?_
  rw [hw.kind]
  cases hkind : k o with
  | foreign => exact pure _
  | agency => exact moves_volLink hvol _
  | directory d => exact moves_dirUnlink (hdir d hkind)
  | temporary => exact moves_tmpUnregisterTmplink htmp answers
  | temporaryDirectory d => exact moves_tmpUnregisterTmplink htmp answers

theorem moves_registerTmplink (parent : Link)
    (hdir : ∀ d, k o = .directory d → .dir d ∉ h) (htmp : .tmp o ∉ h) (hvol : .vol o ∉ h) :
    Moves k h h (nsRegisterTmplink o parent) := by
  refine look fun w hw => ?_
  rw [hw.kind]
  cases hkind : k o with
  | foreign => exact pure _
  | agency => exact moves_volLink hvol _
  | directory d => exact moves_dirLink (hdir d hkind)
  | temporary => exact moves_tmpRegisterTmplink htmp parent
  | temporaryDirectory d => exact moves_tmpRegisterTmplink htmp parent

theorem moves_touch {l : Lock} {m : M α} (hl : l ∉ h) (hm : Moves k h h' m) :
    Moves k h h' (do acquire l; release l; m) :=
  (moves_acquire hl).bind fun _ => (moves_release l).bind fun _ => hm

theorem moves_getAttributes (attrs : Ret)
    (hdir : ∀ d, k o = .directory d ∨ k o = .temporaryDirectory d → .dir d ∉ h)
    (htmp : .tmp o ∉ h) (hvol : .vol o ∉ h) : Moves k h h (nsGetAttributes o attrs) := by
  refine look fun w hw => moves_touch hvol ?_
  rw [hw.kind]
  cases hkind : k o with
  | foreign => exact pure _
  | agency => exact pure _
  | directory d => exact moves_touch (hdir d (inl hkind)) (pure _)
  | temporary => exact moves_touch htmp (pure _)
  | temporaryDirectory d =>
    exact moves_touch (hdir d (inr hkind)) (moves_touch htmp (pure _))

def World.register (w : World) (o : ObjId) (parent : Link) : World :=
  { w with
    tmp := Function.update w.tmp o ((w.tmp o).nsRegisterTmplink parent).2
    registered :=
      if ((w.tmp o).nsRegisterTmplink parent).1 = .success then parent.serial :: w.registered
      else w.registered }

theorem returns_tmpRegisterTmplink (parent : Link) (hl : .tmp o ∉ w.held) :
    Returns (tmpRegisterTmplink o parent) w ((w.tmp o).nsRegisterTmplink parent).1
      (w.register o parent) := by
  refine returns_bind.mpr ⟨(), _, returns_acquire hl, ?_⟩
  refine returns_bind.mpr ⟨_, _, returns_get.mpr ⟨rfl, rfl⟩, ?_⟩
  dsimp only [register]
  generalize (w.tmp o).nsRegisterTmplink parent = step
  refine returns_bind.mpr ⟨(), _, returns_modify.mpr rfl, ?_⟩
  refine returns_bind.mpr ⟨(), _, returns_modify.mpr rfl, ?_⟩
  refine returns_bind.mpr ⟨(), _, returns_modify.mpr rfl, ?_⟩
  simp

theorem returns_registerTmplink (parent : Link)
    (hkind : w.kind o = .temporaryDirectory d) (hl : .tmp o ∉ w.held) :
    Returns (nsRegisterTmplink o parent) w ((w.tmp o).nsRegisterTmplink parent).1
      (w.register o parent) := by
  refine returns_bind.mpr ⟨w, w, returns_get.mpr ⟨rfl, rfl⟩, ?_⟩
  simp only [hkind]
  exact returns_tmpRegisterTmplink parent hl

theorem dies_getAttributes (attrs : Ret)
    (hkind : w.kind o = .temporaryDirectory d) (hheld : w.held = [.dir d]) :
    Dies (nsGetAttributes o attrs) w := by
  refine dies_look.mpr ((dies_bind_of_returns (returns_acquire (by simp [hheld]))).mpr ?_)
  refine (dies_bind_of_returns (a := ⟨⟩) (returns_modify.mpr rfl)).mpr ?_
  simp only [hkind]
  exact dies_bind.mpr (inl (dies_acquire (by simp [hheld])))

theorem tmplink_success_iff {p : TmpProp Link} {parent : Link} :
    (p.nsRegisterTmplink parent).1 = .success ↔ p.active = true ∧ p.parent = none := by
  rw [TmpProp.nsRegisterTmplink]
  split_ifs with hdead hlinked
  · simp [hdead]
  · simp [Option.ne_none_iff_isSome.mpr hlinked]
  · simp_all

theorem comes_remove (answers : Answers) (hw : Holds k [] w)
    (hslip : ∀ e o, Walks w d name e → e.obj = some o → w.kind o ≠ .directory d) :
    Comes k [] (nsRemoveEntry d name answers) w := by
  refine comes_walk hw (moves_done _ _) (moves_done _ _) fun a e hwalks => ?_
  have hunregister : Moves k [.dir d] [.dir d] (unregisterEntryObj e.obj answers) := by
    cases hobj : e.obj with
    | none => exact pure _
    | some o =>
      refine moves_unregisterTmplink answers (fun d' hkind hmem => ?_) (by simp) (by simp)
      obtain rfl : d' = d := by simpa using hmem
      exact hslip e o hwalks hobj (hw.kind ▸ hkind)
  refine Comes.moves (hunregister _ ⟨rfl, hw.kind⟩) fun ret => ite ?_ (ite ?_ ?_)
  · exact (moves_modifyDir d _).bind fun _ => (moves_freeEntry a).bind fun _ => moves_done _ _
  · exact (moves_dropDead d name a).bind fun _ => moves_done _ _
  · exact moves_done _ _

theorem dies_remove (answers : Answers) {e : Entry} (hw : Holds k [] w)
    (hwalks : Walks w d name e) (hobj : e.obj = some o) (hkind : w.kind o = .directory d) :
    Dies (nsRemoveEntry d name answers) w := by
  refine dies_walk hw hwalks fun a => dies_bind.mpr (inl ?_)
  rw [hobj]
  refine dies_look.mpr ?_
  simp only [hkind]
  exact dies_bind.mpr (inl (dies_acquire (by simp)))

section Install

variable {tag : Addr} {o : ObjId} (type objId : ℕ) (attrs : Ret)

def PutElsewhere (w : World) (d : DirId) (o : ObjId) : Prop :=
  ¬(w.kind o = .directory d ∨ w.kind o = .temporaryDirectory d ∧
    (w.tmp o).active = true ∧ (w.tmp o).parent = none)

theorem PutElsewhere.dir (hw : Holds k h w) (helse : PutElsewhere w d o) (d' : DirId)
    (hkind : k o = .directory d') : .dir d' ∉ [Lock.dir d] := by
  intro hmem
  obtain rfl : d' = d := by simpa using hmem
  exact helse (inl (hw.kind ▸ hkind))

theorem PutElsewhere.registered {w' : World} {parent : Link} (hw : Holds k [.dir d] w)
    (helse : PutElsewhere w d o) (hret : Returns (nsRegisterTmplink o parent) w .success w') (d' : DirId)
    (hkind : k o = .directory d' ∨ k o = .temporaryDirectory d') : .dir d' ∉ [Lock.dir d] := by
  obtain hkind | hkind := hkind
  · exact helse.dir hw d' hkind
  intro hmem
  obtain rfl : d' = d := by simpa using hmem
  rw [← hw.kind] at hkind
  have hreg := returns_registerTmplink parent hkind (by simp [hw.held])
  have hok := (Prod.mk.inj (Except.ok.inj (hreg.symm.trans hret))).1
  exact helse (inr ⟨hkind, tmplink_success_iff.mp hok⟩)

theorem comes_installed (hw : Holds k [.dir d] w) (helse : PutElsewhere w d o) (parent : Link) :
    Comes k [] (do
      let ret ← nsRegisterTmplink o parent
      if ret ≠ .success then
        release (.dir d)
        pure ret
      else
        let ret ← nsGetAttributes o attrs
        if ret ≠ .success then
          release (.dir d)
          pure ret
        else
          writeEntry tag fun e => { e with type := type, objId := objId, obj := some o }
          release (.dir d)
          pure .success) w := by
  have hregister : Comes k [.dir d] (nsRegisterTmplink o parent) w :=
    moves_registerTmplink parent (helse.dir hw) (by simp) (by simp) w hw
  refine hregister.bind fun ret w' hret => ?_
  by_cases hok : ret = .success
  · subst hok
    have hattributes : Moves k [.dir d] [.dir d] (nsGetAttributes o attrs) :=
      moves_getAttributes attrs (helse.registered hw hret) (by simp) (by simp)
    rw [if_neg (not_not.mpr rfl)]
    refine Comes.moves (hattributes _ (hregister.2 _ _ hret)) fun ret => ?_
    refine ite (moves_done _ _) ?_
    exact (moves_writeEntry tag _).bind fun _ => moves_done _ _
  · rw [if_pos hok]
    exact moves_done _ _ _ (hregister.2 _ _ hret)

theorem comes_install (hw : Holds k [] w) (hslip : ¬Slips w (.install d tag o type objId attrs)) :
    Comes k [] (nsInstallEntry d tag o type objId attrs) w := by
  have hlocked : Holds k [.dir d] { w with held := .dir d :: w.held } := ⟨congrArg _ hw.held, hw.kind⟩
  refine comes_of_returns (returns_acquire (by simp [hw.held])) ?_
  by_cases htag : tag = 0
  · rw [if_pos htag]
    exact moves_done _ _ _ hlocked
  rw [if_neg htag]
  refine Comes.bind (moves_readEntry tag _ hlocked) fun e w' hret => ?_
  obtain ⟨hentry, rfl⟩ := entry_of_readEntry hret
  by_cases htype : e.type = nstReserved
  · rw [if_neg (not_not.mpr htype)]
    exact comes_installed type objId attrs hlocked
      (fun hself => hslip ⟨htag, ⟨e, hentry, htype⟩, hself⟩) _
  · rw [if_pos htype]
    exact moves_done _ _ _ hlocked

theorem dies_install (hw : Holds k [] w) (hslip : Slips w (.install d tag o type objId attrs)) :
    Dies (nsInstallEntry d tag o type objId attrs) w := by
  obtain ⟨htag, ⟨e, hentry, htype⟩, hself⟩ := hslip
  refine (dies_bind_of_returns (returns_acquire (by simp [hw.held]))).mpr ?_
  rw [if_neg htag, hw.held]
  refine (dies_bind_of_returns (returns_readEntry (w := { w with held := [.dir d] }) hentry)).mpr ?_
  rw [if_neg (not_not.mpr htype)]
  obtain hkind | ⟨hkind, halive⟩ := hself
  · refine dies_bind.mpr (inl (dies_look.mpr ?_))
    simp only [hkind]
    exact dies_bind.mpr (inl (dies_acquire (by simp)))
  · have hreg := returns_registerTmplink (w := { w with held := [.dir d] }) ⟨d, tag, e.serial⟩ hkind
      (by simp)
    rw [tmplink_success_iff.mpr halive] at hreg
    refine (dies_bind_of_returns hreg).mpr ?_
    rw [if_neg (not_not.mpr rfl)]
    exact dies_bind.mpr (inl (dies_getAttributes attrs hkind rfl))

end Install

theorem comes_ignoring {m : M α} (hm : Comes k h m w) : Comes k h (ignoring m) w :=
  hm.moves fun _ => pure ()

theorem dies_ignoring {m : M α} (hm : Dies m w) : Dies (ignoring m) w := dies_bind.mpr (inl hm)

theorem moves_reserve (d : DirId) (name : Name) (fresh : Addr) :
    Moves k [] [] (nsReserveEntry d name fresh) := by
  refine ite (pure _) (ite (pure _) ?_)
  refine (moves_acquire (by simp)).bind fun _ => (moves_scanForName d name).bind fun found => ?_
  cases found with
  | some a => exact moves_done _ _
  | none =>
    refine (moves_newEntry fresh name).bind fun _ => (moves_modifyDir d _).bind fun _ => ?_
    exact moves_done _ _

theorem moves_cancel (d : DirId) (tag : Addr) : Moves k [] [] (nsCancelEntry d tag) := by
  refine (moves_acquire (by simp)).bind fun _ => ite (moves_done _ _) ?_
  refine (moves_readEntry tag).bind fun e => ite (moves_done _ _) ?_
  refine (moves_takeOut d tag).bind fun _ => (moves_release _).bind fun _ => ?_
  exact (moves_freeEntry tag).bind fun _ => pure _

theorem moves_readBucket (bucket : List Addr) : Moves k h h (readBucket bucket) := by
  induction bucket with
  | nil => exact pure _
  | cons a rest ih => exact (moves_readEntry a).bind fun _ => ih.bind fun _ => pure _

theorem moves_readBuckets (dir : Directory) (hashes : List ℕ) :
    Moves k h h (readBuckets dir hashes) := by
  induction hashes with
  | nil => exact pure _
  | cons i rest ih => exact (moves_readBucket _).bind fun _ => ih.bind fun _ => pure _

theorem moves_list (d : DirId) : Moves k [] [] (nsListEntries d) := by
  refine (moves_acquire (by simp)).bind fun _ => look fun w _ => ?_
  refine (moves_readBuckets _ _).bind fun es => (moves_release _).bind fun _ => ?_
  exact ite (pure _) (pure _)

theorem moves_registerStronglink (o : ObjId) : Moves k [] [] (nsRegisterStronglink o) := by
  refine look fun w _ => ?_
  cases w.kind o with
  | foreign => exact pure _
  | agency => exact moves_volLink (by simp) _
  | directory d => exact moves_dirLink (by simp)
  | temporary => exact moves_tmpRegisterStronglink (by simp)
  | temporaryDirectory d => exact moves_tmpRegisterStronglink (by simp)

theorem moves_unregisterStronglink (o : ObjId) (answers : Answers) :
    Moves k [] [] (nsUnregisterStronglink o answers) := by
  refine look fun w _ => ?_
  cases w.kind o with
  | foreign => exact pure _
  | agency => exact moves_volLink (by simp) _
  | directory d => exact moves_dirUnlink (by simp)
  | temporary => exact moves_tmpUnregisterStronglink o answers
  | temporaryDirectory d => exact moves_tmpUnregisterStronglink o answers

theorem comes_tmpDirRemove (hw : Holds k [] w) (hslip : ¬Slips w (.tmpDirRemove o d name answers)) :
    Comes k [] (tmpDirRemoveEntry o d name answers) w := by
  have hremove : Comes k [] (nsRemoveEntry d name answers) w :=
    comes_remove answers hw fun e o hwalks hobj hkind => hslip ⟨e, o, hwalks, hobj, hkind⟩
  refine hremove.moves fun ret => ite ?_ (pure _)
  exact (moves_tmpReferenceTmplink_nil o answers).bind fun _ => pure _

theorem comes_call {c : DirCall} (hw : Holds k [] w) (hslip : ¬Slips w c) : Comes k [] c.run w := by
  cases c with
  | reserve d name fresh => exact comes_ignoring (moves_reserve d name fresh w hw)
  | install d tag o type objId attrs => exact comes_ignoring (comes_install type objId attrs hw hslip)
  | cancel d tag => exact comes_ignoring (moves_cancel d tag w hw)
  | lookup d name answers => exact comes_ignoring (comes_lookup hw hslip)
  | remove d name answers =>
    refine comes_ignoring (comes_remove answers hw fun e o hwalks hobj hkind => ?_)
    exact hslip ⟨e, o, hwalks, hobj, hkind⟩
  | removeTmplink d tag => exact comes_ignoring (moves_removeTmplink (by simp) tag w hw)
  | list d => exact comes_ignoring (moves_list d w hw)
  | getAttributes o attrs =>
    exact comes_ignoring (moves_getAttributes attrs (by simp) (by simp) (by simp) w hw)
  | registerTmplink o parent =>
    exact comes_ignoring (moves_registerTmplink parent (by simp) (by simp) (by simp) w hw)
  | unregisterTmplink o answers =>
    exact comes_ignoring (moves_unregisterTmplink answers (by simp) (by simp) (by simp) w hw)
  | referenceTmplink o answers =>
    exact comes_ignoring (comes_referenceTmplink hw (by simp) (by simp))
  | registerStronglink o => exact comes_ignoring (moves_registerStronglink o w hw)
  | unregisterStronglink o answers => exact comes_ignoring (moves_unregisterStronglink o answers w hw)
  | registerAgent o => exact moves_registerAgent (by simp) w hw
  | unregisterAgent o answers => exact moves_unregisterAgent o answers w hw
  | tmpDirRemove o d name answers => exact comes_ignoring (comes_tmpDirRemove hw hslip)

theorem dies_call {c : DirCall} (hw : Holds k [] w) (hslip : Slips w c) : Dies c.run w := by
  cases c with
  | install d tag o type objId attrs => exact dies_ignoring (dies_install type objId attrs hw hslip)
  | lookup d name answers => exact dies_ignoring (dies_lookup hw hslip)
  | remove d name answers =>
    obtain ⟨e, o, hwalks, hobj, hkind⟩ := hslip
    exact dies_ignoring (dies_remove answers hw hwalks hobj hkind)
  | tmpDirRemove o d name answers =>
    obtain ⟨e, o, hwalks, hobj, hkind⟩ := hslip
    exact dies_ignoring (dies_bind.mpr (inl (dies_remove answers hw hwalks hobj hkind)))
  | _ => exact hslip.elim

theorem returns_of_next {w' : World} {c : DirCall} (hnext : w.next c = some w') :
    ∃ u, Returns c.run w u w' := by
  rw [next] at hnext
  split at hnext
  · next u w₁ hrun =>
    cases hnext
    exact ⟨u, hrun⟩
  · cases hnext

end Calls

def NeverWaitsForItself (w : World) (calls : List DirCall) : Prop :=
  Admits next (fun w c => ¬Dies c.run w) w calls

theorem never_waits_for_itself_iff {w : World} (hw : w.held = []) (calls : List DirCall) :
    NeverWaitsForItself w calls ↔ Admits next (fun w c => ¬Slips w c) w calls := by
  rw [NeverWaitsForItself]
  induction calls generalizing w with
  | nil => exact Iff.rfl
  | cons c calls ih =>
    have hholds : Holds w.kind [] w := ⟨hw, rfl⟩
    have hkeep (hslip : ¬Slips w c) : ∀ w' ∈ w.next c, w'.held = [] := by
      intro w' hnext
      obtain ⟨u, hret⟩ := returns_of_next hnext
      exact ((comes_call hholds hslip).2 u w' hret).held
    constructor
    · intro ⟨hlives, hrest⟩
      have hslip : ¬Slips w c := fun hslip => hlives (dies_call hholds hslip)
      exact ⟨hslip, fun w' hnext => (ih (hkeep hslip w' hnext)).mp (hrest w' hnext)⟩
    · intro ⟨hslip, hrest⟩
      exact ⟨(comes_call hholds hslip).1, fun w' hnext =>
        (ih (hkeep hslip w' hnext)).mpr (hrest w' hnext)⟩

instance decidableDies (m : M α) (w : World) : Decidable (Dies m w) :=
  match hm : m w with
  | .error (.selfDeadlock l) => isTrue ⟨l, hm⟩
  | .error .badEntry => isFalse fun ⟨_, hl⟩ => nomatch hm.symm.trans hl
  | .error .noMemory => isFalse fun ⟨_, hl⟩ => nomatch hm.symm.trans hl
  | .error .nullObject => isFalse fun ⟨_, hl⟩ => nomatch hm.symm.trans hl
  | .ok _ => isFalse fun ⟨_, hl⟩ => nomatch hm.symm.trans hl

instance decidableNeverWaits (w : World) (calls : List DirCall) :
    Decidable (NeverWaitsForItself w calls) :=
  inferInstanceAs (Decidable (Admits next (fun w c => ¬Dies c.run w) w calls))

def World.start (kind : ObjId → Kind) : World where
  kind := kind
  dirs := fun _ => ⟨fun _ => [], 0, 0⟩
  entries := fun _ => none
  tmp := fun _ => TmpProp.start
  links := fun _ => 0
  serials := 0
  held := []
  freed := []
  registered := []
  unregistered := []

def insertion : List DirCall :=
  [.reserve 0 [97] 1, .install 0 1 0 3 7 .success, .lookup 0 [97] ⟨.success, .success⟩]

theorem never_waits_for_itself_agent :
    (start fun _ => .temporary).held = [] ∧
      Admits next (fun w c => ¬Slips w c) (start fun _ => .temporary)
        (.registerAgent 0 :: insertion) := by
  refine ⟨rfl, (never_waits_for_itself_iff rfl _).mp ?_⟩
  decide +kernel

theorem lookup_waits_for_itself :
    ¬∀ w : World, w.held = [] → ∀ calls, NeverWaitsForItself w calls := by
  intro h
  have hnever := h (start fun _ => .temporary) rfl insertion
  revert hnever
  decide +kernel

end MachUS.Dir
