import MachUS.Dir.Tables

namespace MachUS.Dir

open Function

abbrev OpId := ℕ

structure Insertion where
  dir : DirId
  tag : Addr
  name : Name
  serial : ℕ

structure Service where
  world : World
  insertions : OpId → Option Insertion
  calling : ObjId → Option Link
  stuck : DirId → Bool

inductive Event where
  | reserve (op : OpId) (d : DirId) (name : Name) (fresh : Addr)
  | install (op : OpId) (o : ObjId) (type objId : ℕ) (attrs : Ret)
  | cancel (op : OpId)
  | lookup (d : DirId) (name : Name) (answers : Answers)
  | remove (d : DirId) (name : Name) (answers : Answers)
  | list (d : DirId)
  | referenceTmplink (o : ObjId) (answers : Answers)
  | registerStronglink (o : ObjId)
  | unregisterStronglink (o : ObjId) (answers : Answers)
  | registerAgent (o : ObjId)
  | unregisterAgent (o : ObjId) (answers : Answers)
  | callback (o : ObjId)

namespace Service

def setTmp (x : Service) (o : ObjId) (p : TmpProp Link) : Service :=
  { x with world := { x.world with tmp := update x.world.tmp o p } }

def shutsDown (x : Service) (o : ObjId) : TmpProp Link × TmpProp.Shutdown Link → Option Service
  | (p, .stays) => some (x.setTmp o p)
  | (_, .calls none) => none
  | (p, .calls (some parent)) =>
    some
      { x.setTmp o p with
        world := { (x.setTmp o p).world with unregistered := parent.serial :: x.world.unregistered }
        calling := update x.calling o (some parent) }

def references (x : Service) (o : ObjId) (answers : Answers) : Option Service :=
  match (x.world.tmp o).nsReferenceTmplink (lastAnswer x.world o answers.lastChance) with
  | (p, .stays) => some (x.setTmp o p.referenced.2)
  | r => x.shutsDown o r

def unregistersStronglink (x : Service) (o : ObjId) (answers : Answers) : Option Service :=
  match (x.world.tmp o).mayUnregisterStronglink (lastAnswer x.world o answers.lastLink) with
  | none => none
  | some .success =>
    match TmpProp.shutdownIfUnused
        { x.world.tmp o with stronglinkCount := (x.world.tmp o).stronglinkCount - 1 }
        (lastAnswer x.world o answers.lastChance) with
    | (p, shutdown) => x.shutsDown o (p.dereferenceTemporary, shutdown)
  | some _ => some x

def hangs (x : Service) (d : DirId) (name : Name) (answers : Answers) : Option Service :=
  match x.world.found d name with
  | none => none
  | some (_, e) =>
    match e.obj with
    | none => none
    | some o =>
      (x.shutsDown o ((x.world.tmp o).nsReferenceTmplink
        (lastAnswer x.world o answers.lastChance))).map fun y =>
          { y with stuck := update y.stuck d true }

def carryOn {α : Type} (x : Service) (d : DirId) (m : M α) (finish : α → Service → Service) :
    Option Service :=
  if x.stuck d then none
  else
    match m x.world with
    | .ok (a, w) => some (finish a { x with world := w })
    | .error _ => none

def reserved (op : OpId) (i : Insertion) (ret : Ret) (x : Service) : Service :=
  if ret = .success then { x with insertions := update x.insertions op (some i) } else x

def ended (op : OpId) (ret : Ret) (x : Service) : Service :=
  if ret = .success then { x with insertions := update x.insertions op none } else x

def calledBack (o : ObjId) (x : Service) : Service :=
  { x.setTmp o (x.world.tmp o).tmplinkRemoved with calling := update x.calling o none }

def next (x : Service) : Event → Option Service
  | .reserve op d name fresh =>
    if (x.insertions op).isSome then none
    else x.carryOn d (nsReserveEntry d name fresh) (reserved op ⟨d, fresh, name, x.world.serials⟩)
  | .install op o type objId attrs =>
    match x.insertions op with
    | none => none
    | some i => x.carryOn i.dir (nsInstallEntry i.dir i.tag o type objId attrs) (ended op)
  | .cancel op =>
    match x.insertions op with
    | none => none
    | some i => x.carryOn i.dir (nsCancelEntry i.dir i.tag) fun _ => ended op .success
  | .lookup d name answers =>
    match nsLookupEntry d name answers x.world with
    | .error (.selfDeadlock _) => if x.stuck d then none else x.hangs d name answers
    | _ => x.carryOn d (nsLookupEntry d name answers) fun _ y => y
  | .remove d name answers => x.carryOn d (nsRemoveEntry d name answers) fun _ y => y
  | .list d => x.carryOn d (nsListEntries d) fun _ y => y
  | .referenceTmplink o answers => x.references o answers
  | .registerStronglink o => some (x.setTmp o (x.world.tmp o).nsRegisterStronglink)
  | .unregisterStronglink o answers => x.unregistersStronglink o answers
  | .registerAgent o => some (x.setTmp o (x.world.tmp o).nsRegisterAgent)
  | .unregisterAgent o answers =>
    x.shutsDown o (TmpProp.shutdownIfUnused
      { x.world.tmp o with agentCount := (x.world.tmp o).agentCount - 1 }
      (lastAnswer x.world o answers.lastChance))
  | .callback o =>
    match x.calling o with
    | none => none
    | some parent =>
      x.carryOn parent.dir (nsRemoveTmplink parent.dir parent.tag) fun _ => calledBack o

end Service

structure Serials (v : View) : Prop where
  fresh : ∀ a e, v.entries a = some e → e.serial < v.serials ∧ e.serial ∉ v.freed
  sole : ∀ a b e e', v.entries a = some e → v.entries b = some e' → e.serial = e'.serial → a = b
  once : v.freed.Nodup
  made : ∀ s ∈ v.freed, s < v.serials
  kept : ∀ s < v.serials, s ∈ v.freed ∨ ∃ a e, v.entries a = some e ∧ e.serial = s

def Linked (v : View) (d : DirId) (a : Addr) (e : Entry) : Prop := a ∈ v.buckets d (nameHash e.name)

def Refers (v : View) (o : ObjId) (l : Link) : Prop := (v.tmp o).parent = some l

inductive Placed (v : View) (a : Addr) (e : Entry) : Prop where
  | reserved (d : DirId) (linked : Linked v d a e) (type : e.type = nstReserved) (obj : e.obj = none)
    (unregistered : e.serial ∉ v.registered)
  | installed (d : DirId) (o : ObjId) (linked : Linked v d a e) (type : e.type ≠ nstReserved)
    (obj : e.obj = some o) (refers : IsTemporary (v.kind o) → Refers v o ⟨d, a, e.serial⟩)
  | dropped (d : DirId) (o : ObjId) (unlinked : Unlinked v a) (type : e.type ≠ nstReserved)
    (obj : e.obj = none) (refers : Refers v o ⟨d, a, e.serial⟩)

structure Target (v : View) (o : ObjId) (l : Link) (e : Entry) : Prop where
  entry : v.entries l.tag = some e
  serial : e.serial = l.serial
  type : e.type ≠ nstReserved
  place : Linked v l.dir l.tag e ∧ e.obj = some o ∨ Unlinked v l.tag ∧ e.obj = none

structure Bonds (v : View) : Prop where
  placed : ∀ a e, v.entries a = some e → Placed v a e
  target : ∀ o l, Refers v o l → ∃ e, Target v o l e
  sole : ∀ o o' l l', Refers v o l → Refers v o' l' → l.tag = l'.tag → o = o'
  temporary : ∀ o l, Refers v o l → IsTemporary (v.kind o) ∧ (v.tmp o).temporaryObj = true
  links : ∀ o, (v.tmp o).tmplinkCount =
    if (v.tmp o).active = true ∧ (v.tmp o).parent ≠ none then 1 else 0

structure Logs (v : View) : Prop where
  once : v.registered.Nodup
  back : v.unregistered.Nodup
  matched : ∀ s ∈ v.unregistered, s ∈ v.registered
  made : ∀ s ∈ v.registered, s < v.serials
  pending : ∀ s ∈ v.registered, s ∉ v.unregistered →
    ∃ o l, Refers v o l ∧ (v.tmp o).active = true ∧ l.serial = s
  registered : ∀ o l, Refers v o l → l.serial ∈ v.registered
  active : ∀ o l, Refers v o l → (v.tmp o).active = true → l.serial ∉ v.unregistered

structure Owned (v : View) (i : Insertion) (e : Entry) : Prop where
  entry : v.entries i.tag = some e
  serial : e.serial = i.serial
  name : e.name = i.name
  type : e.type = nstReserved
  linked : Linked v i.dir i.tag e

structure Reservations (v : View) (insertions : OpId → Option Insertion) : Prop where
  owned : ∀ op i, insertions op = some i → ∃ e, Owned v i e
  sole : ∀ op op' i i', insertions op = some i → insertions op' = some i' → i.tag = i'.tag → op = op'

structure Coherent (v : View) (insertions : OpId → Option Insertion)
    (calling : ObjId → Option Link) : Prop where
  null : v.entries 0 = none
  tables : Tables v
  serials : Serials v
  bonds : Bonds v
  logs : Logs v
  reservations : Reservations v insertions
  calls : ∀ o l, calling o = some l ↔ Refers v o l ∧ (v.tmp o).active = false

structure SameAt (v v' : View) (b : Addr) : Prop where
  entry : v'.entries b = v.entries b
  linked : ∀ d i, b ∈ v'.buckets d i ↔ b ∈ v.buckets d i

section SameAt

variable {v v' : View} {b : Addr} {e : Entry}

theorem SameAt.unlinked (hsame : SameAt v v' b) (h : Unlinked v b) : Unlinked v' b :=
  fun d i hb => h d i ((hsame.linked d i).mp hb)

theorem Placed.same (h : Placed v b e) (hsame : SameAt v v' b) (hkind : v'.kind = v.kind)
    (hrefers : ∀ o l, Refers v o l → l.tag = b → Refers v' o l)
    (hregistered : e.type = nstReserved → e.serial ∉ v.registered → e.serial ∉ v'.registered) :
    Placed v' b e := by
  cases h with
  | reserved d linked type obj unregistered =>
    exact .reserved d ((hsame.linked d _).mpr linked) type obj (hregistered type unregistered)
  | installed d o linked type obj refers =>
    refine .installed d o ((hsame.linked d _).mpr linked) type obj fun htemporary => ?_
    exact hrefers o _ (refers (hkind ▸ htemporary)) rfl
  | dropped d o unlinked type obj refers =>
    exact .dropped d o (hsame.unlinked unlinked) type obj (hrefers o _ refers rfl)

theorem Target.same {o : ObjId} {l : Link} (h : Target v o l e) (hsame : SameAt v v' l.tag) :
    Target v' o l e where
  entry := hsame.entry.trans h.entry
  serial := h.serial
  type := h.type
  place := h.place.imp (fun ⟨hlinked, hobj⟩ => ⟨(hsame.linked _ _).mpr hlinked, hobj⟩)
    fun ⟨hunlinked, hobj⟩ => ⟨hsame.unlinked hunlinked, hobj⟩

theorem Owned.same {i : Insertion} (h : Owned v i e) (hsame : SameAt v v' i.tag) : Owned v' i e where
  entry := hsame.entry.trans h.entry
  serial := h.serial
  name := h.name
  type := h.type
  linked := (hsame.linked _ _).mpr h.linked

variable {a : Addr} {d : DirId} {name : Name}

theorem sameAt_setEntry (hb : b ≠ a) : SameAt v (v.setEntry a e) b :=
  ⟨update_of_ne hb _ _, fun _ _ => Iff.rfl⟩

theorem sameAt_freeEntry (hb : b ≠ a) : SameAt v (v.freeEntry a e) b :=
  ⟨update_of_ne hb _ _, fun _ _ => Iff.rfl⟩

theorem sameAt_reserved (hb : b ≠ a) : SameAt v (v.reserved d name a) b := by
  refine ⟨update_of_ne hb _ _, fun d' i => View.mem_link.trans ?_⟩
  exact or_iff_left fun h => hb h.1

theorem sameAt_unlink {i : ℕ} (hnodup : (v.buckets d i).Nodup) (hb : b ≠ a) :
    SameAt v (v.unlink d i a) b := by
  refine ⟨rfl, fun d' j => (View.mem_unlink hnodup).trans ?_⟩
  exact and_iff_left fun h => hb h.1

theorem SameAt.trans {v'' : View} (h : SameAt v v' b) (h' : SameAt v' v'' b) : SameAt v v'' b :=
  ⟨h'.entry.trans h.entry, fun d i => (h'.linked d i).trans (h.linked d i)⟩

end SameAt

namespace Serials

variable {v : View} {a : Addr} {e : Entry} (h : Serials v)

include h

theorem newEntry (hfree : v.entries a = none) (name : Name) : Serials (v.newEntry a name) := by
  have hnew : (v.newEntry a name).entries a = some ⟨name, nstReserved, 0, none, v.serials⟩ :=
    update_self _ _ _
  have hold {b : Addr} (hb : b ≠ a) : (v.newEntry a name).entries b = v.entries b :=
    update_of_ne hb _ _
  have hcases {b : Addr} {f : Entry} (hf : (v.newEntry a name).entries b = some f) :
      b = a ∧ f.serial = v.serials ∨ v.entries b = some f ∧ f.serial < v.serials := by
    by_cases hb : b = a
    · subst hb
      rw [← Option.some.inj (hnew.symm.trans hf)]
      exact Or.inl ⟨rfl, rfl⟩
    · have hf := (hold hb).symm.trans hf
      exact Or.inr ⟨hf, (h.fresh b f hf).1⟩
  constructor
  · intro b f hf
    have hserials : (v.newEntry a name).serials = v.serials + 1 := rfl
    obtain ⟨-, hs⟩ | ⟨hf, hlt⟩ := hcases hf
    · refine ⟨by omega, fun hmem => ?_⟩
      have := h.made _ hmem
      omega
    · exact ⟨by omega, (h.fresh b f hf).2⟩
  · intro b c f g hf hg heq
    obtain ⟨rfl, hs⟩ | ⟨hf, hlt⟩ := hcases hf
    · obtain ⟨rfl, -⟩ | ⟨-, hlt⟩ := hcases hg
      · rfl
      · omega
    · obtain ⟨rfl, hs⟩ | ⟨hg, -⟩ := hcases hg
      · omega
      · exact h.sole b c f g hf hg heq
  · exact h.once
  · exact fun s hs => Nat.lt_succ_of_lt (h.made s hs)
  · intro s hs
    obtain hlt | rfl := Nat.lt_succ_iff_lt_or_eq.mp hs
    · obtain hfreed | ⟨b, f, hf, hserial⟩ := h.kept s hlt
      · exact Or.inl hfreed
      · refine Or.inr ⟨b, f, (hold ?_).trans hf, hserial⟩
        rintro rfl
        rw [hfree] at hf
        cases hf
    · exact Or.inr ⟨a, _, hnew, rfl⟩

theorem setEntry {e' : Entry} (he : v.entries a = some e) (hserial : e'.serial = e.serial) :
    Serials (v.setEntry a e') := by
  have hself : (v.setEntry a e').entries a = some e' := update_self _ _ _
  have hold {b : Addr} (hb : b ≠ a) : (v.setEntry a e').entries b = v.entries b :=
    update_of_ne hb _ _
  have hentry {b : Addr} {f' : Entry} (hb : (v.setEntry a e').entries b = some f') :
      ∃ f, v.entries b = some f ∧ f'.serial = f.serial := by
    by_cases hba : b = a
    · subst hba
      rw [← Option.some.inj (hself.symm.trans hb)]
      exact ⟨e, he, hserial⟩
    · exact ⟨f', (hold hba).symm.trans hb, rfl⟩
  constructor
  · intro b f' hf'
    obtain ⟨f, hf, hs⟩ := hentry hf'
    rw [hs]
    exact h.fresh b f hf
  · intro b c f' g' hf' hg' heq
    obtain ⟨f, hf, hs⟩ := hentry hf'
    obtain ⟨g, hg, ht⟩ := hentry hg'
    exact h.sole b c f g hf hg (hs.symm.trans (heq.trans ht))
  · exact h.once
  · exact h.made
  · intro s hs
    obtain hfreed | ⟨b, f, hf, rfl⟩ := h.kept s hs
    · exact Or.inl hfreed
    · by_cases hba : b = a
      · subst hba
        cases he.symm.trans hf
        exact Or.inr ⟨b, e', hself, hserial⟩
      · exact Or.inr ⟨b, f, (hold hba).trans hf, rfl⟩

theorem freeEntry (he : v.entries a = some e) : Serials (v.freeEntry a e) := by
  have hgone : (v.freeEntry a e).entries a = none := update_self _ _ _
  have hold {b : Addr} (hb : b ≠ a) : (v.freeEntry a e).entries b = v.entries b :=
    update_of_ne hb _ _
  have hentry {b : Addr} {f : Entry} (hb : (v.freeEntry a e).entries b = some f) :
      b ≠ a ∧ v.entries b = some f := by
    have hba : b ≠ a := by
      rintro rfl
      rw [hgone] at hb
      cases hb
    exact ⟨hba, (hold hba).symm.trans hb⟩
  constructor
  · intro b f hf
    obtain ⟨hba, hf⟩ := hentry hf
    refine ⟨(h.fresh b f hf).1, fun hmem => ?_⟩
    obtain hs | hmem := List.mem_cons.mp hmem
    · exact hba (h.sole b a f e hf he hs)
    · exact (h.fresh b f hf).2 hmem
  · exact fun b c f g hf hg => h.sole b c f g (hentry hf).2 (hentry hg).2
  · exact List.nodup_cons.mpr ⟨(h.fresh a e he).2, h.once⟩
  · intro s hs
    obtain rfl | hs := List.mem_cons.mp hs
    · exact (h.fresh a e he).1
    · exact h.made s hs
  · intro s hs
    obtain hfreed | ⟨b, f, hf, rfl⟩ := h.kept s hs
    · exact Or.inl (List.mem_cons_of_mem _ hfreed)
    · by_cases hba : b = a
      · subst hba
        cases he.symm.trans hf
        exact Or.inl (by simp [View.freeEntry])
      · exact Or.inr ⟨b, f, (hold hba).trans hf, rfl⟩

end Serials

end MachUS.Dir
