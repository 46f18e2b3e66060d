import MachUS.Dir.DirOperations

namespace MachUS.Dir

open Program Except

variable {α β : Type} {k : ObjId → Kind} {h h' h'' : List Lock}

structure Holds (k : ObjId → Kind) (h : List Lock) (w : World) : Prop where
  held : w.held = h
  kind : w.kind = k

def Dies (m : M α) (w : World) : Prop := ∃ l, m w = .error (.selfDeadlock l)

def Moves (k : ObjId → Kind) (h h' : List Lock) (m : M α) : Prop :=
  ∀ w, Holds k h w → ¬Dies m w ∧ ∀ a w', Returns m w a w' → Holds k h' w'

theorem dies_bind {m : M α} {f : α → M β} {w : World} :
    Dies (m >>= f) w ↔ Dies m w ∨ ∃ a w', Returns m w a w' ∧ Dies (f a) w' := by
  cases hm : m w with
  | error e =>
    have heq : (m >>= f) w = .error e := by simp [Bind.bind, StateT.bind, Except.bind, hm]
    constructor
    · rintro ⟨l, hl⟩
      exact Or.inl ⟨l, hm.trans (congrArg _ (error.inj (heq.symm.trans hl)))⟩
    · rintro (⟨l, hl⟩ | ⟨a, w', hret, -⟩)
      · exact ⟨l, heq.trans (congrArg _ (error.inj (hm.symm.trans hl)))⟩
      · cases hm.symm.trans hret
  | ok r =>
    obtain ⟨a, w'⟩ := r
    have heq : (m >>= f) w = f a w' := by simp [Bind.bind, StateT.bind, Except.bind, hm]
    constructor
    · rintro ⟨l, hl⟩
      exact Or.inr ⟨a, w', hm, l, heq.symm.trans hl⟩
    · rintro (⟨l, hl⟩ | ⟨b, w'', hret, l, hl⟩)
      · cases hm.symm.trans hl
      · cases ok.inj (hm.symm.trans hret)
        exact ⟨l, heq.trans hl⟩

theorem dies_bind_of_returns {m : M α} {f : α → M β} {w w' : World} {a : α}
    (hm : Returns m w a w') : Dies (m >>= f) w ↔ Dies (f a) w' := by
  rw [dies_bind]
  constructor
  · rintro (⟨l, hl⟩ | ⟨b, w'', hret, hdies⟩)
    · cases hm.symm.trans hl
    · cases ok.inj (hm.symm.trans hret)
      exact hdies
  · exact fun hdies => Or.inr ⟨a, w', hm, hdies⟩

theorem not_dies_pure (a : α) (w : World) : ¬Dies (pure a : M α) w := by
  rintro ⟨l, hl⟩
  cases hl

theorem not_dies_modify (f : World → World) (w : World) : ¬Dies (modify f : M PUnit) w := by
  rintro ⟨l, hl⟩
  cases hl

theorem dies_look {f : World → M β} {w : World} : Dies (get >>= f) w ↔ Dies (f w) w :=
  dies_bind_of_returns (returns_get.mpr ⟨rfl, rfl⟩)

theorem Moves.bind {m : M α} {f : α → M β} (hm : Moves k h h' m) (hf : ∀ a, Moves k h' h'' (f a)) :
    Moves k h h'' (m >>= f) := by
  intro w hw
  obtain ⟨hlives, hmoves⟩ := hm w hw
  constructor
  · rw [dies_bind]
    rintro (hdies | ⟨a, w', hret, hdies⟩)
    · exact hlives hdies
    · exact (hf a w' (hmoves a w' hret)).1 hdies
  · intro b w'' hret
    obtain ⟨a, w', ha, hb⟩ := returns_bind.mp hret
    exact (hf a w' (hmoves a w' ha)).2 b w'' hb

theorem Moves.pure (a : α) : Moves k h h (Pure.pure a : M α) := by
  intro w hw
  refine ⟨not_dies_pure a w, fun b w' hret => ?_⟩
  obtain ⟨-, rfl⟩ := returns_pure.mp hret
  exact hw

theorem Moves.look {f : World → M β} (hf : ∀ w, Holds k h w → Moves k h h' (f w)) :
    Moves k h h' (get >>= f) := by
  intro w hw
  constructor
  · rw [dies_look]
    exact (hf w hw w hw).1
  · intro b w' hret
    obtain ⟨w₁, w₂, hget, hret⟩ := returns_bind.mp hret
    obtain ⟨rfl, rfl⟩ := returns_get.mp hget
    exact (hf w hw w hw).2 b w' hret

theorem Moves.modify {f : World → World} (hheld : ∀ w, (f w).held = w.held)
    (hkind : ∀ w, (f w).kind = w.kind) : Moves k h h (modify f : M PUnit) := by
  intro w hw
  refine ⟨not_dies_modify f w, fun a w' hret => ?_⟩
  rw [← returns_modify.mp hret]
  exact ⟨(hheld w).trans hw.held, (hkind w).trans hw.kind⟩

theorem Moves.fault {e : Fault} (he : ∀ l, e ≠ .selfDeadlock l) :
    Moves k h h' (lift (.error e) : M α) := by
  intro w _
  constructor
  · rintro ⟨l, hl⟩
    exact he l (error.inj hl)
  · intro a w' hret
    cases (returns_lift.mp hret).1

theorem Moves.ite {p : Prop} [Decidable p] {m n : M α} (hm : Moves k h h' m) (hn : Moves k h h' n) :
    Moves k h h' (if p then m else n) := by
  split_ifs
  · exact hm
  · exact hn

theorem returns_acquire {w : World} {l : Lock} (hl : l ∉ w.held) :
    Returns (acquire l) w () { w with held := l :: w.held } := by
  simp only [acquire, Returns, Bind.bind, StateT.bind, get, getThe, MonadStateOf.get, StateT.get,
    pure, Except.pure, Except.bind]
  rw [if_neg hl]
  rfl

theorem dies_acquire {w : World} {l : Lock} (hl : l ∈ w.held) : Dies (acquire l) w := by
  refine ⟨l, ?_⟩
  simp only [acquire, Bind.bind, StateT.bind, get, getThe, MonadStateOf.get, StateT.get,
    pure, Except.pure, Except.bind]
  rw [if_pos hl]
  rfl

theorem moves_acquire {l : Lock} (hl : l ∉ h) : Moves k h (l :: h) (acquire l) := by
  intro w hw
  have hret := returns_acquire (w := w) (l := l) (hw.held ▸ hl)
  constructor
  · rintro ⟨l', hl'⟩
    cases hret.symm.trans hl'
  · intro a w' hret'
    cases ok.inj (hret.symm.trans hret')
    exact ⟨congrArg _ hw.held, hw.kind⟩

theorem moves_release (l : Lock) : Moves k (l :: h) h (release l) := by
  intro w hw
  refine ⟨not_dies_modify _ w, fun a w' hret => ?_⟩
  rw [← returns_modify.mp hret]
  refine ⟨?_, hw.kind⟩
  simp [hw.held]

theorem moves_readEntry (a : Addr) : Moves k h h (readEntry a) := by
  refine Moves.look fun w _ => ?_
  cases w.entries a with
  | none => exact Moves.fault nofun
  | some e => exact Moves.pure e

theorem moves_writeEntry (a : Addr) (f : Entry → Entry) : Moves k h h (writeEntry a f) :=
  (moves_readEntry a).bind fun _ => Moves.modify (fun _ => rfl) fun _ => rfl

theorem moves_freeEntry (a : Addr) : Moves k h h (freeEntry a) :=
  (moves_readEntry a).bind fun _ => Moves.modify (fun _ => rfl) fun _ => rfl

theorem moves_newEntry (fresh : Addr) (name : Name) : Moves k h h (newEntry fresh name) :=
  Moves.look fun _ _ => Moves.ite (Moves.fault nofun) (Moves.modify (fun _ => rfl) fun _ => rfl)

theorem moves_modifyDir (d : DirId) (f : Directory → Directory) : Moves k h h (modifyDir d f) :=
  Moves.modify (fun _ => rfl) fun _ => rfl

theorem moves_modifyTmp (o : ObjId) (f : TmpProp Link → TmpProp Link) :
    Moves k h h (modifyTmp o f) := Moves.modify (fun _ => rfl) fun _ => rfl

theorem moves_logRegistered (ret : Ret) (parent : Link) : Moves k h h (logRegistered ret parent) :=
  Moves.modify (fun _ => rfl) fun _ => rfl

theorem moves_logUnregistered (ret : Ret) (parent : Option Link) :
    Moves k h h (logUnregistered ret parent) :=
  Moves.modify (fun _ => rfl) fun _ => rfl

theorem moves_scanBucket (name : Name) (bucket : List Addr) :
    Moves k h h (scanBucket name bucket) := by
  induction bucket with
  | nil => exact Moves.pure none
  | cons a rest ih => exact (moves_readEntry a).bind fun _ => Moves.ite (Moves.pure _) ih

theorem moves_scanForName (d : DirId) (name : Name) : Moves k h h (scanForName d name) :=
  Moves.look fun _ _ => moves_scanBucket name _

theorem moves_takeOut (d : DirId) (a : Addr) : Moves k h h (takeOut d a) := by
  refine (moves_readEntry a).bind fun _ => Moves.look fun _ _ => ?_
  exact Moves.ite (moves_modifyDir d _) (Moves.pure ())

theorem moves_done (l : Lock) (a : α) : Moves k (l :: h) h (do release l; pure a : M α) :=
  (moves_release l).bind fun _ => Moves.pure a

theorem moves_removeTmplink {d : DirId} (hd : .dir d ∉ h) (tag : Addr) :
    Moves k h h (nsRemoveTmplink d tag) := by
  refine (moves_acquire hd).bind fun _ => Moves.ite (moves_done _ _) ?_
  refine (moves_takeOut d tag).bind fun _ => (moves_release _).bind fun _ => ?_
  exact (moves_freeEntry tag).bind fun _ => Moves.pure _

variable {α : Type} {k : ObjId → Kind} {h : List Lock}

theorem moves_volLink {o : ObjId} (hl : .vol o ∉ h) (change : ℤ) : Moves k h h (volLink o change) := by
  have hlinks : Moves k (.vol o :: h) (.vol o :: h) (modify fun w =>
      { w with links := Function.update w.links o (w.links o + change) }) :=
    Moves.modify (fun _ => rfl) fun _ => rfl
  exact (moves_acquire hl).bind fun _ => hlinks.bind fun _ => moves_done _ _

theorem moves_dirLink {d : DirId} (hl : .dir d ∉ h) : Moves k h h (dirLink d) :=
  (moves_acquire hl).bind fun _ => (moves_modifyDir d _).bind fun _ => moves_done _ _

theorem moves_dirUnlink {d : DirId} (hl : .dir d ∉ h) : Moves k h h (dirUnlink d) := by
  refine (moves_acquire hl).bind fun _ => Moves.look fun _ _ => Moves.ite (moves_done _ _) ?_
  exact (moves_modifyDir d _).bind fun _ => moves_done _ _

section Temporary

variable {o : ObjId} (hl : Lock.tmp o ∉ h)

include hl

theorem moves_tmpRegisterTmplink (parent : Link) : Moves k h h (tmpRegisterTmplink o parent) := by
  refine (moves_acquire hl).bind fun _ => Moves.look fun w _ => ?_
  refine (moves_modifyTmp o _).bind fun _ => (moves_logRegistered _ _).bind fun _ => ?_
  exact moves_done _ _

theorem moves_tmpUnregisterTmplink (answers : Answers) :
    Moves k h h (tmpUnregisterTmplink o answers) := by
  refine (moves_acquire hl).bind fun _ => Moves.look fun w _ => ?_
  cases (w.tmp o).nsUnregisterTmplink (lastAnswer w o answers.lastLink) with
  | none => exact Moves.fault nofun
  | some r =>
    refine (moves_modifyTmp o _).bind fun _ => (moves_logUnregistered _ _).bind fun _ => ?_
    exact moves_done _ _

theorem moves_registerAgent : Moves k h h (nsRegisterAgent o) :=
  (moves_acquire hl).bind fun _ => (moves_modifyTmp o _).bind fun _ => moves_release _

theorem moves_tmpRegisterStronglink : Moves k h h (tmpRegisterStronglink o) :=
  (moves_acquire hl).bind fun _ => (moves_modifyTmp o _).bind fun _ => moves_done _ _

theorem moves_removeFromParent {shutdown : TmpProp.Shutdown Link}
    (hfree : ∀ parent, shutdown = .calls (some parent) → .dir parent.dir ∉ h) :
    Moves k (.tmp o :: h) (.tmp o :: h) (removeFromParent o shutdown) := by
  cases shutdown with
  | stays => exact Moves.pure ()
  | calls parent =>
    cases parent with
    | none => exact Moves.fault nofun
    | some parent =>
      refine (moves_logUnregistered _ _).bind fun _ => (moves_release _).bind fun _ => ?_
      refine (moves_removeTmplink (hfree parent rfl) parent.tag).bind fun _ => ?_
      exact (moves_acquire hl).bind fun _ => moves_modifyTmp o _

end Temporary

def ShutsDown (w : World) (o : ObjId) (answers : Answers) (parent : Link) : Prop :=
  (w.tmp o).active = true ∧ (w.tmp o).agentCount = 0 ∧ (w.tmp o).stronglinkCount = 0 ∧
    (w.tmp o).temporaryObj = true ∧ lastAnswer w o answers.lastChance = .success ∧
    0 < (w.tmp o).tmplinkCount ∧ (w.tmp o).parent = some parent

theorem shutsDown_iff {w : World} {o : ObjId} {answers : Answers} {parent : Link} :
    ((w.tmp o).nsReferenceTmplink (lastAnswer w o answers.lastChance)).2 = .calls (some parent) ↔
      ShutsDown w o answers parent := by
  rw [TmpProp.nsReferenceTmplink, TmpProp.shutdownIfUnused, TmpProp.tmpShutdownInternal, ShutsDown]
  split_ifs with hunused hdead hunknown hrefused hlinked
  · simp [hdead]
  · simp [hunknown]
  · simp [hrefused]
  · simp_all
  · simp [hlinked]
  · exact iff_of_false nofun fun hshuts => hunused ⟨hshuts.2.1, hshuts.2.2.1⟩

theorem moves_tmpStep (o : ObjId) (step : TmpProp Link → TmpProp Link × TmpProp.Shutdown Link) :
    Moves k h h (tmpStep o step) :=
  Moves.look fun _ _ => (moves_modifyTmp o _).bind fun _ => Moves.pure _

theorem moves_tmpReferenceTmplink_nil (o : ObjId) (answers : Answers) :
    Moves k [] [] (tmpReferenceTmplink o answers) := by
  refine (moves_acquire (by simp)).bind fun _ => Moves.look fun w _ => ?_
  refine (moves_tmpStep o _).bind fun shutdown => ?_
  refine (moves_removeFromParent (by simp) (by simp)).bind fun _ => Moves.look fun w' _ => ?_
  exact (moves_modifyTmp o _).bind fun _ => moves_done _ _

theorem moves_unregisterAgent (o : ObjId) (answers : Answers) :
    Moves k [] [] (nsUnregisterAgent o answers) := by
  refine (moves_acquire (by simp)).bind fun _ => Moves.look fun w _ => ?_
  refine (moves_tmpStep o _).bind fun shutdown => ?_
  exact (moves_removeFromParent (by simp) (by simp)).bind fun _ => moves_release _

theorem moves_tmpUnregisterStronglink (o : ObjId) (answers : Answers) :
    Moves k [] [] (tmpUnregisterStronglink o answers) := by
  refine (moves_acquire (by simp)).bind fun _ => Moves.look fun w _ => ?_
  split
  · exact Moves.fault nofun
  · refine (moves_tmpStep o _).bind fun shutdown => ?_
    refine (moves_removeFromParent (by simp) (by simp)).bind fun _ => ?_
    refine (moves_release _).bind fun _ => ?_
    exact (moves_modifyTmp o _).bind fun _ => Moves.pure _
  · exact moves_done _ _

def Comes (k : ObjId → Kind) (h : List Lock) (m : M α) (w : World) : Prop :=
  ¬Dies m w ∧ ∀ a w', Returns m w a w' → Holds k h w'

theorem comes_of_returns {β : Type} {m : M α} {f : α → M β} {w w' : World} {a : α}
    (hm : Returns m w a w') (hf : Comes k h (f a) w') : Comes k h (m >>= f) w := by
  refine ⟨(dies_bind_of_returns hm).not.mpr hf.1, fun b w'' hret => ?_⟩
  obtain ⟨a', w₁, ha, hb⟩ := returns_bind.mp hret
  cases ok.inj (hm.symm.trans ha)
  exact hf.2 b w'' hb

theorem returns_tmpStep (w : World) (o : ObjId)
    (step : TmpProp Link → TmpProp Link × TmpProp.Shutdown Link) :
    Returns (tmpStep o step) w (step (w.tmp o)).2
      { w with tmp := Function.update w.tmp o (step (w.tmp o)).1 } := rfl

theorem dies_removeTmplink {w : World} {d : DirId} (hd : .dir d ∈ w.held) (tag : Addr) :
    Dies (nsRemoveTmplink d tag) w :=
  dies_bind.mpr (Or.inl (dies_acquire hd))

theorem dies_removeFromParent {w : World} {o : ObjId} {shutdown : TmpProp.Shutdown Link}
    {parent : Link} (hcalls : shutdown = .calls (some parent))
    (hparent : .dir parent.dir ∈ w.held.erase (.tmp o)) : Dies (removeFromParent o shutdown) w := by
  subst hcalls
  refine (dies_bind_of_returns (a := ⟨⟩) (returns_modify.mpr rfl)).mpr ?_
  refine (dies_bind_of_returns (a := ⟨⟩) (returns_modify.mpr rfl)).mpr ?_
  exact dies_bind.mpr (Or.inl (dies_removeTmplink hparent _))

section Reference

variable {w : World} {o : ObjId} {answers : Answers} (hw : Holds k h w) (hl : Lock.tmp o ∉ h)

include hw hl

theorem comes_tmpReferenceTmplink
    (hfree : ∀ parent, ShutsDown w o answers parent → .dir parent.dir ∉ h) :
    Comes k h (tmpReferenceTmplink o answers) w := by
  refine comes_of_returns (returns_acquire (hw.held ▸ hl)) ?_
  refine comes_of_returns (returns_get.mpr ⟨rfl, rfl⟩) ?_
  refine comes_of_returns (returns_tmpStep _ o _) ?_
  refine (show Moves k (.tmp o :: h) h _ from ?_) _ ⟨congrArg _ hw.held, hw.kind⟩
  refine (moves_removeFromParent hl fun parent hcalls => ?_).bind fun _ => Moves.look fun w' _ => ?_
  · exact hfree parent (shutsDown_iff.mp hcalls)
  · exact (moves_modifyTmp o _).bind fun _ => moves_done _ _

theorem dies_tmpReferenceTmplink {parent : Link} (hshuts : ShutsDown w o answers parent)
    (hparent : .dir parent.dir ∈ h) : Dies (tmpReferenceTmplink o answers) w := by
  refine (dies_bind_of_returns (returns_acquire (hw.held ▸ hl))).mpr ?_
  refine dies_look.mpr ((dies_bind_of_returns (returns_tmpStep _ o _)).mpr ?_)
  refine dies_bind.mpr (Or.inl ?_)
  refine dies_removeFromParent (shutsDown_iff.mpr hshuts) ?_
  simpa [hw.held] using hparent

end Reference

end MachUS.Dir

namespace MachUS.Dir

open Program

variable {α β : Type} {k : ObjId → Kind} {h h' : List Lock}

theorem Comes.bind {m : M α} {f : α → M β} {w : World} (hm : Comes k h' m w)
    (hf : ∀ a w', Returns m w a w' → Comes k h (f a) w') : Comes k h (m >>= f) w := by
  constructor
  · rw [dies_bind]
    rintro (hdies | ⟨a, w', hret, hdies⟩)
    · exact hm.1 hdies
    · exact (hf a w' hret).1 hdies
  · intro b w'' hret
    obtain ⟨a, w', ha, hb⟩ := returns_bind.mp hret
    exact (hf a w' ha).2 b w'' hb

theorem Comes.moves {m : M α} {f : α → M β} {w : World} (hm : Comes k h' m w)
    (hf : ∀ a, Moves k h' h (f a)) : Comes k h (m >>= f) w :=
  hm.bind fun a w' hret => hf a w' (hm.2 a w' hret)

namespace World

def foundIn (w : World) (name : Name) : List Addr → Option (Addr × Entry)
  | [] => none
  | a :: rest =>
    match w.entries a with
    | none => none
    | some e => if e.name = name then some (a, e) else w.foundIn name rest

def found (w : World) (d : DirId) (name : Name) : Option (Addr × Entry) :=
  w.foundIn name ((w.dirs d).buckets (nameHash name))

end World

theorem returns_readEntry {w : World} {a : Addr} {e : Entry} (ha : w.entries a = some e) :
    Returns (readEntry a) w e w := by
  refine returns_bind.mpr ⟨w, w, by simp, ?_⟩
  simp [ha]

theorem entry_of_readEntry {w w' : World} {a : Addr} {e : Entry}
    (hret : Returns (readEntry a) w e w') : w.entries a = some e ∧ w' = w := by
  obtain ⟨w₁, w₂, hget, hret⟩ := returns_bind.mp hret
  obtain ⟨rfl, rfl⟩ := returns_get.mp hget
  cases ha : w.entries a with
  | none =>
    rw [ha] at hret
    cases (returns_lift.mp hret).1
  | some e' =>
    rw [ha] at hret
    obtain ⟨rfl, rfl⟩ := returns_pure.mp hret
    exact ⟨rfl, rfl⟩

theorem scanBucket_of_foundIn {w : World} {name : Name} {bucket : List Addr} {a : Addr} {e : Entry}
    (hfound : w.foundIn name bucket = some (a, e)) :
    w.entries a = some e ∧ Returns (scanBucket name bucket) w (some a) w := by
  induction bucket with
  | nil => cases hfound
  | cons b rest ih =>
    rw [World.foundIn] at hfound
    cases hb : w.entries b with
    | none => simp [hb] at hfound
    | some e' =>
      simp only [hb] at hfound
      by_cases hname : e'.name = name
      · rw [if_pos hname] at hfound
        obtain ⟨rfl, rfl⟩ := Prod.mk.inj (Option.some.inj hfound)
        refine ⟨hb, returns_bind.mpr ⟨e', w, returns_readEntry hb, ?_⟩⟩
        rw [if_pos hname]
        exact returns_pure.mpr ⟨rfl, rfl⟩
      · rw [if_neg hname] at hfound
        obtain ⟨ha, hscan⟩ := ih hfound
        refine ⟨ha, returns_bind.mpr ⟨e', w, returns_readEntry hb, ?_⟩⟩
        rw [if_neg hname]
        exact hscan

theorem foundIn_of_scanBucket {w w' : World} {name : Name} {bucket : List Addr} {r : Option Addr}
    (hret : Returns (scanBucket name bucket) w r w') :
    w' = w ∧ r = (w.foundIn name bucket).map Prod.fst := by
  induction bucket with
  | nil =>
    obtain ⟨rfl, rfl⟩ := returns_pure.mp hret
    exact ⟨rfl, rfl⟩
  | cons b rest ih =>
    obtain ⟨e, w₁, hread, hrest⟩ := returns_bind.mp hret
    obtain ⟨hb, rfl⟩ := entry_of_readEntry hread
    rw [World.foundIn, hb]
    by_cases hname : e.name = name
    · rw [if_pos hname] at hrest
      obtain ⟨rfl, rfl⟩ := returns_pure.mp hrest
      simp [hname]
    · rw [if_neg hname] at hrest
      simpa [hname] using ih hrest

theorem scanForName_of_found {w : World} {d : DirId} {name : Name} {a : Addr} {e : Entry}
    (hfound : w.found d name = some (a, e)) :
    w.entries a = some e ∧ Returns (scanForName d name) w (some a) w := by
  obtain ⟨ha, hscan⟩ := scanBucket_of_foundIn hfound
  exact ⟨ha, returns_bind.mpr ⟨w, w, returns_get.mpr ⟨rfl, rfl⟩, hscan⟩⟩

theorem found_of_scanForName {w w' : World} {d : DirId} {name : Name} {r : Option Addr}
    (hret : Returns (scanForName d name) w r w') :
    w' = w ∧ r = (w.found d name).map Prod.fst := by
  obtain ⟨w₁, w₂, hget, hret⟩ := returns_bind.mp hret
  obtain ⟨rfl, rfl⟩ := returns_get.mp hget
  exact foundIn_of_scanBucket hret

theorem moves_dropDead (d : DirId) (name : Name) (a : Addr) : Moves k h h (dropDead d name a) :=
  (moves_modifyDir d _).bind fun _ => moves_writeEntry a _

end MachUS.Dir
