import MachUS.Auth.Effects

namespace MachUS.Auth

open Text Groups

def textTraps : List Trap :=
  [.endlessProbe, .endlessRecursion, .stringOverrun, .nameIndex, .nullPointer, .freedPointer]

section TextTraps

open Outcome

variable {t : Trap} (ht : t ∉ textTraps)

include ht

theorem avoids_textTrap {α : Type} {u : Trap} (hu : u ∈ textTraps) :
    Avoids t (.error u : Outcome α) := by
  refine Avoids.error_iff.mpr ?_
  rintro rfl
  exact ht hu

theorem avoids_deref (g : Groups) (a : Addr) : Avoids t (g.deref a) := by
  rw [deref]
  cases g.heap a with
  | none => exact avoids_textTrap ht (by decide)
  | some r => exact Avoids.ok r

theorem avoids_hashPort (keys : Fin portMapMax → Port) (p : Port) : Avoids t (hashPort keys p) := by
  rw [hashPort]
  cases Probing.probe keys machPortNull (hashHome p) p with
  | none => exact avoids_textTrap ht (by decide)
  | some i => exact Avoids.ok i

theorem avoids_hashIndex (size : ℕ) (name : Bytes) : Avoids t (hashIndex size name) :=
  Avoids.ite_iff.mpr ⟨fun _ => avoids_textTrap ht (by decide), fun _ => Avoids.ok _⟩

theorem avoids_encryptPassword (w : PassWord) : Avoids t (encryptPassword w) := by
  rw [encryptPassword]
  cases w.bytes.findIdx? (· == 0) with
  | none => exact avoids_textTrap ht (by decide)
  | some i => exact Avoids.ok _

theorem avoids_sprintf (size : ℕ) (format : Bytes) (id : GroupId) :
    Avoids t (sprintf size format id) := by
  rw [sprintf]
  cases CString.ofBytes? size (format ++ formatInt id.toInt32.toInt) with
  | none => exact avoids_textTrap ht (by decide)
  | some c => exact Avoids.ok c

theorem avoids_findName (g : Groups) (name : Bytes) (original fuel index : ℕ) :
    Avoids t (g.findName name original fuel index) := by
  induction fuel generalizing index with
  | zero => exact Avoids.ok _
  | succ fuel ih =>
    rw [findName]
    cases g.names.entry index with
    | none => exact Avoids.ok _
    | some a =>
      refine bind_ne_error (avoids_deref ht g a) fun r _ => Avoids.ite_iff.mpr ⟨?_, fun _ => ?_⟩
      · exact fun _ => Avoids.ok _
      · exact Avoids.ite_iff.mpr ⟨fun _ => Avoids.ok _, fun _ => ih _⟩

theorem avoids_findSlot (g : Groups) (name : Bytes) : Avoids t (g.findSlot name) :=
  bind_ne_error (avoids_hashIndex ht _ _) fun _ _ => avoids_findName ht _ _ _ _ _

theorem avoids_lookupName (g : Groups) (name : GroupName) : Avoids t (g.lookupName name) := by
  refine bind_ne_error (avoids_findSlot ht _ _) fun o _ => ?_
  cases o with
  | none => exact Avoids.ok _
  | some i => exact Avoids.ok _

theorem avoids_rehash (g : Groups) (old slots : List (Option Addr)) :
    Avoids t (g.rehash old slots) := by
  induction old generalizing slots with
  | nil => exact Avoids.ok _
  | cons e old ih =>
    cases e with
    | none => exact avoids_textTrap ht (by decide)
    | some a =>
      refine bind_ne_error (avoids_deref ht _ _) fun r _ =>
        bind_ne_error (avoids_hashIndex ht _ _) fun index _ => ?_
      cases emptySlot slots index with
      | none => exact avoids_textTrap ht (by decide)
      | some i => exact ih _

theorem avoids_growNameHashTable (k : Kernel) (g : Groups) : Avoids t (g.growNameHashTable k) :=
  Avoids.ite_iff.mpr ⟨fun _ => bind_ne_error (avoids_rehash ht _ _ _) fun _ _ => Avoids.ok _,
    fun _ => Avoids.ok _⟩

theorem avoids_enterNameFrom (k : Kernel) (fuel : ℕ) (g : Groups) (a : Addr) :
    Avoids t (enterNameFrom k fuel g a) := by
  induction fuel generalizing g with
  | zero => exact avoids_textTrap ht (by decide)
  | succ fuel ih =>
    have hgrow : Avoids t (g.countEntry.growIfOver k) :=
      Avoids.ite_iff.mpr ⟨fun _ => avoids_growNameHashTable ht _ _, fun _ => Avoids.ok _⟩
    refine bind_ne_error hgrow fun g₁ _ => bind_ne_error (avoids_deref ht _ _) fun r _ =>
      bind_ne_error (avoids_hashIndex ht _ _) fun index _ => ?_
    cases emptySlot g₁.names.slots index with
    | some i => exact Avoids.ok _
    | none => exact bind_ne_error (avoids_growNameHashTable ht _ _) fun g₂ _ => ih g₂

theorem avoids_enterName (k : Kernel) (g : Groups) (a : Addr) : Avoids t (g.enterName k a) :=
  avoids_enterNameFrom ht k 2 g a

theorem avoids_rehashAfter (k : Kernel) (fuel : ℕ) (g : Groups) (index : ℕ) :
    Avoids t (rehashAfter k fuel g index) := by
  induction fuel generalizing g index with
  | zero => exact avoids_textTrap ht (by decide)
  | succ fuel ih =>
    rw [rehashAfter]
    cases g.names.entry index with
    | none => exact Avoids.ok _
    | some a => exact bind_ne_error (avoids_enterName ht _ _ _) fun g₁ _ => ih _ _

theorem avoids_deleteName (k : Kernel) (g : Groups) (name : Bytes) :
    Avoids t (g.deleteName k name) := by
  refine bind_ne_error (avoids_findSlot ht _ _) fun o _ => ?_
  cases o with
  | none => exact Avoids.ok _
  | some i =>
    simp only
    cases g.names.entry i with
    | none => exact Avoids.ok _
    | some a => exact avoids_rehashAfter ht _ _ _ _

end TextTraps

def InBounds {α : Type} (x : Outcome α) : Prop := x ≠ .error .memberOverrun

namespace InBounds

variable {α β : Type} {x y : Outcome α} {k : Kernel} {g : Groups}

theorem named : Trap.memberOverrun ∉ textTraps := by decide

theorem ok (a : α) : InBounds (.ok a : Outcome α) := by simp [InBounds]

theorem trap {t : Trap} (h : t ≠ .memberOverrun) : InBounds (.error t : Outcome α) := by
  simpa [InBounds] using h

theorem bind {f : α → Outcome β} (hx : InBounds x) (hf : ∀ a, x = .ok a → InBounds (f a)) :
    InBounds (x >>= f) := by
  cases x with
  | error t => exact trap fun h => hx (congrArg Except.error h)
  | ok a => exact hf a rfl

theorem ite {c : Prop} [Decidable c] (hx : c → InBounds x) (hy : ¬c → InBounds y) :
    InBounds (if c then x else y) := by
  split_ifs with h
  · exact hx h
  · exact hy h

theorem idSlot (g : Groups) (id : GroupId) : InBounds (g.idSlot id) :=
  ite (fun _ => ok _) fun _ => trap (by decide)

theorem foldlM {σ : Type} {f : σ → GroupId → Outcome σ} (hf : ∀ s m, InBounds (f s m))
    (ms : List GroupId) (s : σ) : InBounds (ms.foldlM f s) := by
  induction ms generalizing s with
  | nil => exact ok s
  | cons m ms ih =>
    rw [List.foldlM_cons]
    exact bind (hf s m) fun s' _ => ih s'

theorem doRecursiveSearch (g : Groups) (dir : Direction) (depth : ℕ) (id : GroupId)
    (acc : Search) : InBounds (g.doRecursiveSearch dir depth id acc) := by
  induction depth generalizing id acc with
  | zero => exact trap (by decide)
  | succ depth ih =>
    refine bind (idSlot _ _) fun o _ => ?_
    cases o with
    | none => exact ok _
    | some a =>
      exact bind (avoids_deref named _ _) fun r _ => ite (fun _ => ok _) fun _ =>
        foldlM (fun s m => ih m s) _ _

theorem fillClosure (k : Kernel) (g : Groups) (dir : Direction) (r : GroupRecord) :
    InBounds (g.fillClosure k dir r) :=
  bind (bind (foldlM (fun s m => doRecursiveSearch g dir _ m s) _ _) fun _ _ => ok _) fun _ _ =>
    ite (fun _ => ok _) fun _ => trap (by decide)

theorem asCaller {s : Server} {p : Port} {refused : α} {body : Fin portMapMax → Addr → Outcome α}
    (h : ∀ i a, s.Bound p i a → InBounds (body i a)) : InBounds (s.asCaller p refused body) := by
  refine ite (fun _ => ok _) fun hp => bind (avoids_hashPort named _ _) fun i hi => ?_
  cases hr : (s.privPortMap i).record with
  | none => exact ok _
  | some a => exact h i a ⟨hp, hi, hr⟩

theorem openSession (k : Kernel) (s : Server) (a : Addr) (p : Port) :
    InBounds (s.openSession k a p) :=
  bind (avoids_deref named _ _) fun _ _ => ite (fun _ => ok _) fun _ =>
    bind (fillClosure _ _ _ _) fun _ _ => bind (avoids_hashPort named _ _) fun _ _ => ok _

theorem casCreateGroupRec {i : ℕ} {id : GroupId} {ms : List GroupId} {isUser : Bool}
    (h : k.record i = none ∨ (ms.drop 1).length ≤ membersMax) :
    InBounds (g.casCreateGroupRec k i id ms isUser) := by
  rw [Groups.casCreateGroupRec]
  cases hk : k.record i with
  | none => exact ok _
  | some a =>
    have hlen : (ms.drop 1).length ≤ membersMax := h.resolve_left (by simp [hk])
    exact ite (fun _ => trap (by decide)) fun _ => bind (avoids_sprintf named _ _ _) fun _ _ =>
      bind (avoids_sprintf named _ _ _) fun _ _ => bind (avoids_sprintf named _ _ _) fun _ _ =>
      bind (idSlot _ _) fun _ _ => bind (avoids_encryptPassword named _) fun _ _ =>
      ite (fun hlt => absurd hlt (not_lt.mpr hlen)) fun _ =>
      bind (avoids_enterName named _ _ _) fun _ _ => ok _

theorem admitGroups (create : Bool) (i : ℕ) (ids : List GroupId) (g : Groups) :
    InBounds (Groups.admitGroups k create i ids g) := by
  induction ids generalizing i g with
  | nil => exact ok _
  | cons id ids ih =>
    rw [Groups.admitGroups]
    cases g.lookupId id with
    | some a => exact ih _ _
    | none =>
      refine ite (fun _ => ok _) fun _ =>
        bind (casCreateGroupRec (Or.inr (by simp))) fun done _ => ?_
      obtain ⟨o, g₁⟩ := done
      cases o with
      | none => exact ok _
      | some a => exact ih _ _

theorem onTrMemberships (k : Kernel) (r : GroupRecord) (ids : List GroupId) :
    InBounds (onTrMemberships k r ids) := by
  induction ids with
  | nil => exact ok _
  | cons id ids ih =>
    refine ite (fun _ => ?_) fun _ => ih
    cases k.stray id with
    | none => exact trap (by decide)
    | some b =>
      cases b with
      | false => exact ok _
      | true => exact ih

theorem dropEach (dir : Direction) (g : Groups) (id : GroupId) (ms : List GroupId) :
    InBounds (dropEach dir g id ms) := by
  induction ms generalizing g with
  | nil => exact ok _
  | cons m ms ih =>
    refine bind (idSlot _ _) fun o _ => ?_
    cases o with
    | none => exact ih _
    | some b => exact bind (bind (avoids_deref named _ _) fun _ _ => ok _) fun g₁ _ => ih g₁

theorem removeGroup (k : Kernel) (g : Groups) (a : Addr) : InBounds (g.removeGroup k a) :=
  bind (avoids_deref named _ _) fun _ _ => bind (dropEach _ _ _ _) fun _ _ =>
    bind (avoids_deref named _ _) fun _ _ => bind (dropEach _ _ _ _) fun _ _ =>
    bind (avoids_deleteName named _ _ _) fun _ _ =>
    bind (idSlot _ _) fun _ _ => ok _

variable {s : Server}

theorem casLogin (u : GroupName) (w : PassWord) (p : Port) : InBounds (s.casLogin k u w p) := by
  refine bind (avoids_lookupName named _ _) fun o _ => ?_
  cases o with
  | none => exact ok _
  | some a =>
    exact bind (avoids_deref named _ _) fun _ _ => ite (fun _ => ok _) fun _ =>
      bind (avoids_encryptPassword named _) fun _ _ =>
      ite (fun _ => ok _) fun _ => openSession _ _ _ _

theorem casLoginPriv (p : Port) (u : GroupId) (q : Port) : InBounds (s.casLoginPriv k p u q) := by
  refine asCaller fun _ _ _ => bind (avoids_deref named _ _) fun _ _ =>
    ite (fun _ => ok _) fun _ => ?_
  cases s.groups.lookupId u with
  | none => exact ok _
  | some a => exact openSession _ _ _ _

theorem findOrCreate {i : ℕ} {id : GroupId} {ms : List GroupId} {isUser : Bool}
    (h : g.lookupId id ≠ none ∨ k.record i = none ∨ (ms.drop 1).length ≤ membersMax) :
    InBounds (g.findOrCreate k i id ms isUser) := by
  rw [Groups.findOrCreate]
  cases hid : g.lookupId id with
  | some a => exact ok _
  | none => exact casCreateGroupRec (h.resolve_left (by simp [hid]))

theorem casLoginCreate {p q : Port} {ids : List GroupId}
    (h : s.Administrator p → ∀ user rest, ids = user :: rest →
      s.groups.lookupId user ≠ none ∨ k.record 0 = none) :
    InBounds (s.casLoginCreate k p ids q) := by
  refine asCaller fun i a hb => bind (avoids_deref named _ _) fun c hc =>
    ite (fun _ => ok _) fun hadm => ?_
  have hadmin : s.Administrator p :=
    ⟨i, a, c, hb, deref_eq_ok.mp hc, by simpa using hadm⟩
  cases ids with
  | nil => exact trap (by decide)
  | cons user rest =>
    refine bind (findOrCreate ((h hadmin user rest rfl).imp id Or.inl)) fun done _ => ?_
    obtain ⟨o, g₁⟩ := done
    cases o with
    | none => exact ok _
    | some login =>
      cases rest with
      | nil => exact trap (by decide)
      | cons group rest =>
        refine bind (findOrCreate (Or.inr (Or.inr (by simp)))) fun done _ => ?_
        obtain ⟨o, g₂⟩ := done
        cases o with
        | none => exact ok _
        | some other => exact openSession _ _ _ _

theorem casLogout (p : Port) : InBounds (s.casLogout p) :=
  asCaller fun _ _ _ => bind (avoids_deref named _ _) fun _ _ => ok _

theorem admitToken (r : GroupRecord) (ids : List GroupId) (create : Bool) :
    InBounds (Server.admitToken k g r ids create) :=
  ite (fun _ => ok _) fun _ => ite (fun _ => admitGroups _ _ _ _) fun _ =>
    bind (onTrMemberships _ _ _) fun _ _ => ok _

theorem casRegisterToken (p : Port) (ids : List GroupId) (t : Port) (create : Bool) :
    InBounds (s.casRegisterToken k p ids t create) := by
  refine asCaller fun _ _ _ => bind (avoids_deref named _ _) fun r _ =>
    bind (admitToken r ids create) fun done _ => ?_
  obtain ⟨b, g₁⟩ := done
  cases b with
  | false => exact ok _
  | true => exact bind (avoids_hashPort named _ _) fun _ _ => ite (fun _ => ok _) fun _ => ok _

theorem casDeleteToken (p t : Port) : InBounds (s.casDeleteToken k p t) :=
  asCaller fun _ _ _ => bind (avoids_hashPort named _ _) fun _ _ =>
    ite (fun _ => ok _) fun _ => ok _

theorem ownerOf (c : GroupRecord) (n o : GroupName) : InBounds (s.ownerOf c n o) := by
  refine ite (fun _ => ok _) fun _ => bind (avoids_lookupName named _ _) fun x _ => ?_
  cases x with
  | none => exact ok _
  | some a => exact bind (avoids_deref named _ _) fun _ _ => ite (fun _ => ok _) fun _ => ok _

theorem chooseId (g : Groups) (id : GroupId) : InBounds (g.chooseId id) := by
  refine ite (fun _ => ?_) fun _ => bind (idSlot _ _) fun o _ => ?_
  · cases g.freeId with
    | none => exact ok _
    | some i => exact ok _
  · cases o with
    | none => exact ok _
    | some a => exact ok _

theorem createRecord (n : GroupName) (ty : GroupType) (f : FullName) (w : PassWord)
    (o : Option GroupId) (id : GroupId) : InBounds (s.createRecord k n ty f w o id) := by
  rw [Server.createRecord]
  cases k.record 0 with
  | none => exact ok _
  | some a =>
    exact ite (fun _ => trap (by decide)) fun _ =>
      bind (ite (fun _ => avoids_encryptPassword named _) fun _ => ok _) fun _ _ =>
      bind (bind (avoids_enterName named _ _ _) fun _ _ => ok _) fun _ _ => ok _

theorem casCreateGroup (p : Port) (n : GroupName) (ty : GroupType) (f : FullName) (w : PassWord)
    (o : GroupName) (id : GroupId) : InBounds (s.casCreateGroup k p n ty f w o id) := by
  refine asCaller fun _ _ _ => bind (avoids_deref named _ _) fun c _ => ite (fun _ => ok _) fun _ =>
    bind (ownerOf _ _ _) fun x _ => ?_
  cases x with
  | error ret => exact ok _
  | ok owner =>
    refine bind (avoids_lookupName named _ _) fun y _ => ?_
    cases y with
    | some b => exact ok _
    | none =>
      refine bind (chooseId _ _) fun z _ => ?_
      cases z with
      | error ret => exact ok _
      | ok id => exact createRecord _ _ _ _ _ _

theorem casDeleteGroup (p : Port) (n : GroupName) : InBounds (s.casDeleteGroup k p n) := by
  refine asCaller fun _ _ _ => bind (avoids_lookupName named _ _) fun o _ => ?_
  cases o with
  | none => exact ok _
  | some a =>
    exact bind (avoids_deref named _ _) fun _ _ => bind (avoids_deref named _ _) fun _ _ =>
      ite (fun _ => ok _) fun _ => bind (removeGroup _ _ _) fun _ _ => ok _

theorem casChangeOwner (p : Port) (n o : GroupName) : InBounds (s.casChangeOwner p n o) := by
  refine asCaller fun _ _ _ => bind (avoids_lookupName named _ _) fun x _ => ?_
  cases x with
  | none => exact ok _
  | some a =>
    refine bind (avoids_deref named _ _) fun _ _ => bind (avoids_deref named _ _) fun _ _ =>
      ite (fun _ => ok _) fun _ => bind (avoids_lookupName named _ _) fun y _ => ?_
    cases y with
    | none => exact ok _
    | some b => exact bind (avoids_deref named _ _) fun _ _ => ok _

theorem casChangePassword (p : Port) (n : GroupName) (w w' : PassWord) :
    InBounds (s.casChangePassword p n w w') := by
  refine asCaller fun _ _ _ => bind (avoids_lookupName named _ _) fun x _ => ?_
  cases x with
  | none => exact ok _
  | some a =>
    refine bind (avoids_deref named _ _) fun _ _ => ite (fun _ => ok _) fun _ =>
      bind (avoids_deref named _ _) fun _ _ =>
      bind (ite (fun _ => bind (avoids_encryptPassword named _) fun _ _ => ok _) fun _ => ok _)
      fun y _ => ?_
    cases y with
    | some ret => exact ok _
    | none => exact bind (avoids_encryptPassword named _) fun _ _ => ok _

theorem casRemoveFromGroup (p : Port) (n m : GroupName) :
    InBounds (s.casRemoveFromGroup p n m) := by
  refine asCaller fun _ _ _ => bind (avoids_lookupName named _ _) fun x _ => ?_
  cases x with
  | none => exact ok _
  | some a =>
    refine bind (avoids_deref named _ _) fun _ _ => ite (fun _ => ok _) fun _ =>
      bind (avoids_lookupName named _ _) fun y _ => ?_
    cases y with
    | none => exact ok _
    | some b =>
      exact bind (avoids_deref named _ _) fun _ _ => bind (avoids_deref named _ _) fun _ _ =>
        ite (fun _ => ok _) fun _ =>
        bind (bind (avoids_deref named _ _) fun _ _ => ok _) fun _ _ =>
        bind (bind (avoids_deref named _ _) fun _ _ => ok _) fun _ _ => ok _

end InBounds

end MachUS.Auth
