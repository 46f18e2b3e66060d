import MachUS.Dir.Effects
import Mathlib.Algebra.BigOperators.Group.Finset.Piecewise

namespace MachUS.Dir

open Program Function View Gives Or Option

variable {v : View} {d : DirId} {name : Name}

section Walk

variable {β : Type} {short : β} {missing reserved : M β} {rest : Addr → Entry → M β}
  {Q : β → View → Prop}

theorem does_walk (hread : v.Readable d) (hshort : Q short v)
    (hmissing : v.found d name = none → Does missing v Q)
    (hreserved : Does reserved v Q)
    (hrest : ∀ a e, v.found d name = some (a, e) → e.type ≠ nstReserved → Does (rest a e) v Q) :
    Does (if nsNamelen ≤ name.length then pure short else do
      acquire (.dir d)
      let found ← scanForName d name
      match found with
      | none => missing
      | some a => do
        let e ← readEntry a
        if e.type = nstReserved then reserved else rest a e) v Q := by
  refine ite (fun _ => pure hshort) fun _ => ?_
  refine (does_acquire (does_scanForName hread ?_).bind).bind
  cases hfound : v.found d name with
  | none => exact hmissing hfound
  | some r =>
    obtain ⟨a, e⟩ := r
    refine (does_readEntry (entry_of_found hfound).1 ?_).bind
    exact ite (fun _ => hreserved) (hrest a e hfound)

end Walk

def View.Steady (v : View) (o : ObjId) (answers : Answers) : Prop :=
  (v.tmp o).nsReferenceTmplink (v.lastAnswer o answers.lastChance) = (v.tmp o, .stays)

structure Holding (v : View) (d : DirId) (name : Name) (a : Addr) (e : Entry) (o : ObjId) : Prop where
  found : v.found d name = some (a, e)
  type : e.type ≠ nstReserved
  obj : e.obj = some o

def Occupied (v : View) (d : DirId) (name : Name) : Prop :=
  ∀ a e, v.found d name = some (a, e) → e.type ≠ nstReserved → ∃ o, e.obj = some o

def LooksUp (v : View) (d : DirId) (name : Name) (v' : View) : Prop :=
  v' = v ∨ ∃ a e o, Holding v d name a e o ∧ IsTemporary (v.kind o) ∧
    (v' = v.setTmp o (v.tmp o).referenced.2 ∨ v' = v.dropped d name a e)

theorem does_referenceTmplink_other {o : ObjId} (answers : Answers) (hkind : ¬IsTemporary (v.kind o)) :
    Does (nsReferenceTmplink o answers) v fun ret v' => v' = v ∧ ret ≠ .objectDead := by
  refine look fun w hw => ?_
  subst hw
  cases hk : w.kind o with
  | temporary => exact (hkind (show IsTemporary (w.kind o) from hk ▸ trivial)).elim
  | temporaryDirectory d => exact (hkind (show IsTemporary (w.kind o) from hk ▸ trivial)).elim
  | foreign => exact pure ⟨rfl, nofun⟩
  | agency => exact pure ⟨rfl, nofun⟩
  | directory d => exact pure ⟨rfl, nofun⟩

theorem does_referenceTmplink_temporary {o : ObjId} {answers : Answers} {Q : Ret → View → Prop}
    (hkind : IsTemporary (v.kind o)) (hsteady : v.Steady o answers)
    (hactive : (v.tmp o).active = true → Q .success (v.setTmp o (v.tmp o).referenced.2))
    (hdead : (v.tmp o).active = false → Q .objectDead v) : Does (nsReferenceTmplink o answers) v Q := by
  refine look fun w hw => ?_
  subst hw
  cases hk : w.kind o with
  | temporary => exact does_tmpReferenceTmplink hsteady hactive hdead
  | temporaryDirectory d => exact does_tmpReferenceTmplink hsteady hactive hdead
  | foreign => exact (hk ▸ hkind : IsTemporary .foreign).elim
  | agency => exact (hk ▸ hkind : IsTemporary .agency).elim
  | directory d => exact (hk ▸ hkind : IsTemporary (.directory d)).elim

theorem does_lookup {answers : Answers} (hread : v.Readable d) (hoccupied : Occupied v d name)
    (hsteady : ∀ a e o, Holding v d name a e o → IsTemporary (v.kind o) → v.Steady o answers) :
    Does (nsLookupEntry d name answers) v fun _ v' => LooksUp v d name v' := by
  refine does_walk hread (inl rfl) (fun _ => does_done (inl rfl)) (does_done (inl rfl))
    fun a e hfound htype => ?_
  obtain ⟨o, hobj⟩ := hoccupied a e hfound htype
  have hholding : Holding v d name a e o := ⟨hfound, htype, hobj⟩
  rw [hobj]
  by_cases hkind : IsTemporary (v.kind o)
  · refine (does_referenceTmplink_temporary hkind (hsteady a e o hholding hkind) (fun _ => ?_)
      fun _ => ?_).bind
    · exact does_done (inr ⟨a, e, o, hholding, hkind, inl rfl⟩)
    · refine (does_dropDead (entry_of_found hfound).1 ?_).bind
      exact does_done (inr ⟨a, e, o, hholding, hkind, inr rfl⟩)
  · refine (does_referenceTmplink_other answers hkind).then fun ret v' ⟨hv, hret⟩ => ?_
    subst hv
    refine ite (fun _ => does_done (inl rfl)) fun _ => ?_
    exact ite (fun hdead => (hret hdead).elim) fun _ => does_done (inl rfl)

def View.removed (v : View) (d : DirId) (name : Name) (a : Addr) (e : Entry) : View :=
  (v.unlink d (nameHash name) a).freeEntry a e

def Removes (v : View) (d : DirId) (name : Name) (v' : View) : Prop :=
  v' = v ∨ ∃ a e o, Holding v d name a e o ∧
    (¬IsTemporary (v.kind o) ∧ v' = v.removed d name a e ∨
      IsTemporary (v.kind o) ∧ (v' = v.dropped d name a e ∨
        ∃ parent, (v.tmp o).active = true ∧ (v.tmp o).parent = some parent ∧
          v' = ((v.setTmp o (v.tmp o).tmplinkUnregistered).unregister parent.serial).removed d name a e))

theorem does_remove {answers : Answers} (hread : v.Readable d) (hoccupied : Occupied v d name) :
    Does (nsRemoveEntry d name answers) v fun _ v' => Removes v d name v' := by
  refine does_walk hread (inl rfl) (fun _ => does_done (inl rfl)) (does_done (inl rfl))
    fun a e hfound htype => ?_
  obtain ⟨o, hobj⟩ := hoccupied a e hfound htype
  have ha := (entry_of_found hfound).1
  have hholding : Holding v d name a e o := ⟨hfound, htype, hobj⟩
  rw [hobj]
  by_cases hkind : IsTemporary (v.kind o)
  · refine (does_unregisterTmplink_temporary answers hkind).then fun ret v' hret => ?_
    obtain ⟨rfl, parent, hactive, hparent, rfl⟩ | ⟨hret, rfl⟩ := hret
    · have ha' : (((v.setTmp o (v.tmp o).tmplinkUnregistered).unregister parent.serial).unlink d
          (nameHash name) a).entries a = some e := ha
      refine (does_unlink (does_freeEntry ha' (does_done ?_)).bind).bind
      exact inr ⟨a, e, o, hholding, inr ⟨hkind, inr ⟨parent, hactive, hparent, rfl⟩⟩⟩
    · refine ite (fun hok => (hret hok).elim) fun _ => ite (fun _ => ?_) fun _ => ?_
      · refine (does_dropDead ha (does_done ?_)).bind
        exact inr ⟨a, e, o, hholding, inr ⟨hkind, inl rfl⟩⟩
      · exact does_done (inl rfl)
  · refine (does_unregisterTmplink_other answers hkind).then fun ret v' ⟨hv, hret⟩ => ?_
    subst hv
    refine ite (fun _ => ?_) fun _ => ite (fun hdead => (hret hdead).elim) fun _ => ?_
    · refine (does_unlink (does_freeEntry (v := v'.unlink d (nameHash name) a) ha ?_).bind).bind
      exact does_done (inr ⟨a, e, o, hholding, inl ⟨hkind, rfl⟩⟩)
    · exact does_done (inl rfl)

def Installs (v : View) (d : DirId) (tag : Addr) (e : Entry) (o : ObjId) (type objId : ℕ) (ret : Ret)
    (v' : View) : Prop :=
  ret ≠ .success ∧ v' = v ∨
    ret = .success ∧
      (¬IsTemporary (v.kind o) ∧
          v' = v.setEntry tag { e with type := type, objId := objId, obj := some o } ∨
        IsTemporary (v.kind o) ∧ (v.tmp o).active = true ∧ (v.tmp o).parent = none ∧
          v' = ((v.setTmp o ((v.tmp o).nsRegisterTmplink ⟨d, tag, e.serial⟩).2).register
            e.serial).setEntry tag { e with type := type, objId := objId, obj := some o })

theorem does_install {tag : Addr} {e : Entry} {o : ObjId} {type objId : ℕ} {attrs : Ret}
    (hzero : tag ≠ 0) (htag : v.entries tag = some e) (htype : e.type = nstReserved)
    (hattrs : IsTemporary (v.kind o) → (v.tmp o).active = true → (v.tmp o).parent = none →
      attrs = .success) :
    Does (nsInstallEntry d tag o type objId attrs) v (Installs v d tag e o type objId) := by
  refine (does_acquire (Gives.ite (fun hnull => (hzero hnull).elim) fun _ => ?_)).bind
  refine (does_readEntry htag (Gives.ite (fun hother => (hother htype).elim) fun _ => ?_)).bind
  by_cases hkind : IsTemporary (v.kind o)
  · refine (does_registerTmplink_temporary _ hkind).then fun ret v' hret => ?_
    obtain ⟨rfl, hactive, hparent, rfl⟩ | ⟨hret, rfl⟩ := hret
    · refine ite (fun hfail => (hfail rfl).elim) fun _ => ?_
      refine (does_getAttributes (Gives.ite (fun hfail => ?_) fun _ => ?_)).bind
      · exact (hfail (hattrs hkind hactive hparent)).elim
      · have htag' : ((v.setTmp o ((v.tmp o).nsRegisterTmplink ⟨d, tag, e.serial⟩).2).register
            e.serial).entries tag = some e := htag
        refine (does_writeEntry htag' (does_done ?_)).bind
        exact inr ⟨rfl, inr ⟨hkind, hactive, hparent, rfl⟩⟩
    · exact ite (fun _ => does_done (inl ⟨hret, rfl⟩)) fun hok => (hok hret).elim
  · refine (does_registerTmplink_other _ hkind).then fun ret v' hv => ?_
    subst hv
    refine ite (fun hret => does_done (inl ⟨hret, rfl⟩)) fun _ => ?_
    refine (does_getAttributes (Gives.ite (fun hret => does_done (inl ⟨hret, rfl⟩)) fun _ => ?_)).bind
    refine (does_writeEntry htag (does_done ?_)).bind
    exact inr ⟨rfl, inl ⟨hkind, rfl⟩⟩

theorem does_readBucket {bucket : List Addr} (hread : ∀ a ∈ bucket, ∃ e, v.entries a = some e) :
    Does (readBucket bucket) v fun _ v' => v' = v := by
  induction bucket with
  | nil => exact pure rfl
  | cons a rest ih =>
    obtain ⟨e, ha⟩ := hread a (by simp)
    refine (does_readEntry ha ?_).bind
    refine (ih fun b hb => hread b (by simp [hb])).then fun es v' hv => ?_
    exact pure hv

theorem does_list (hread : v.Readable d) : Does (nsListEntries d) v fun _ v' => v' = v := by
  refine (does_acquire (look fun w hw => ?_)).bind
  subst hw
  have hbuckets (hashes : List ℕ) : Does (readBuckets (w.dirs d) hashes) w.view fun _ v' => v' = w.view := by
    induction hashes with
    | nil => exact pure rfl
    | cons i rest ih =>
      refine (does_readBucket (hread i)).then fun es v' hv => ?_
      subst hv
      exact ih.then fun more v' hv => pure hv
  refine (hbuckets _).then fun es v' hv => (does_release ?_).bind
  exact ite (fun _ => pure hv) fun _ => pure hv

namespace View

variable {v : View} {d d' : DirId} {i j : ℕ} {a b : Addr}

theorem mem_link : b ∈ (v.link d i a).buckets d' j ↔
    b ∈ v.buckets d' j ∨ b = a ∧ d' = d ∧ j = i := by
  by_cases hd : d' = d
  · subst hd
    by_cases hj : j = i
    · subst hj
      simp [link, or_comm]
    · simp [link, hj]
  · simp [link, hd]

theorem mem_unlink (hnodup : (v.buckets d i).Nodup) : b ∈ (v.unlink d i a).buckets d' j ↔
    b ∈ v.buckets d' j ∧ ¬(b = a ∧ d' = d ∧ j = i) := by
  by_cases hd : d' = d
  · subst hd
    by_cases hj : j = i
    · subst hj
      simp [unlink, hnodup.mem_erase_iff, and_comm]
    · simp [unlink, hj]
  · simp [unlink, hd]

end View

def entriesIn (buckets : ℕ → List Addr) : ℤ := ∑ i ∈ Finset.range hashsize, ((buckets i).length : ℤ)

theorem entriesIn_update (buckets : ℕ → List Addr) {i : ℕ} (hi : i < hashsize) (bucket : List Addr) :
    entriesIn (update buckets i bucket) =
      entriesIn buckets - (buckets i).length + bucket.length := by
  have hmem : i ∈ Finset.range hashsize := Finset.mem_range.mpr hi
  have hlength : (fun j => ((update buckets i bucket j).length : ℤ)) =
      update (fun j => ((buckets j).length : ℤ)) i bucket.length := by
    funext j
    by_cases hj : j = i
    · subst hj
      simp
    · simp [hj]
  rw [entriesIn, entriesIn, hlength, Finset.sum_update_of_mem hmem,
    Finset.sum_eq_add_sum_sdiff_singleton_of_mem hmem fun j => ((buckets j).length : ℤ)]
  omega

theorem nameHash_lt (name : Name) : nameHash name < hashsize := by
  have hand := UInt8.toNat_and (name.foldl (· ^^^ ·) 0) 31
  have hle : (name.foldl (· ^^^ ·) 0).toNat &&& 31 ≤ 31 := Nat.and_le_right
  rw [nameHash, hand]
  exact Nat.lt_succ_of_le hle

structure Tables (v : View) : Prop where
  live : ∀ d i, ∀ a ∈ v.buckets d i, ∃ e, v.entries a = some e ∧ nameHash e.name = i
  nodup : ∀ d i, (v.buckets d i).Nodup
  unique : ∀ d i, ∀ a ∈ v.buckets d i, ∀ b ∈ v.buckets d i, ∀ e e', v.entries a = some e →
    v.entries b = some e' → e.name = e'.name → a = b
  apart : ∀ d d' i i' a, a ∈ v.buckets d i → a ∈ v.buckets d' i' → d = d'
  counted : ∀ d, v.count d = entriesIn (v.buckets d)

def Unlinked (v : View) (a : Addr) : Prop := ∀ d i, a ∉ v.buckets d i

namespace Tables

variable {v : View} {d : DirId} {name : Name} {a : Addr} {e : Entry} (h : Tables v)

include h

theorem readable (d : DirId) : v.Readable d := by
  intro i a ha
  obtain ⟨e, he, -⟩ := h.live d i a ha
  exact ⟨e, he⟩

theorem unlinked_of_none (ha : v.entries a = none) : Unlinked v a := by
  intro d i hmem
  obtain ⟨e, he, -⟩ := h.live d i a hmem
  rw [ha] at he
  cases he

theorem name_ne_of_not_found (hfound : v.found d name = none) {i : ℕ} (ha : a ∈ v.buckets d i)
    (he : v.entries a = some e) : e.name ≠ name := by
  intro hname
  obtain ⟨e', he', hi⟩ := h.live d i a ha
  obtain rfl : e' = e := some.inj (he'.symm.trans he)
  subst hi
  rw [hname] at ha
  have hnone (bucket : List Addr) (hread : ∀ b ∈ bucket, ∃ e, v.entries b = some e) (hmem : a ∈ bucket) :
      v.foundIn name bucket ≠ none := by
    induction bucket with
    | nil => cases hmem
    | cons b rest ih =>
      obtain ⟨e'', hb⟩ := hread b (by simp)
      rw [foundIn, hb]
      by_cases hb' : e''.name = name
      · simp [hb']
      · obtain rfl | hmem := List.mem_cons.mp hmem
        · rw [he] at hb
          cases hb
          exact (hb' hname).elim
        · simpa [hb'] using ih (fun c hc => hread c (by simp [hc])) hmem
  exact hnone _ (h.readable d _) ha hfound

theorem found_of_linked (he : v.entries a = some e) (ha : a ∈ v.buckets d (nameHash e.name)) :
    v.found d e.name = some (a, e) := by
  cases hfound : v.found d e.name with
  | none => exact (h.name_ne_of_not_found hfound ha he rfl).elim
  | some r =>
    obtain ⟨b, e'⟩ := r
    obtain ⟨hb, hmem, hname⟩ := entry_of_found hfound
    obtain rfl := h.unique d _ a ha b hmem e e' he hb hname.symm
    rw [he] at hb
    rw [some.inj hb]

theorem reserved {fresh : Addr} (hfree : v.entries fresh = none) (hfound : v.found d name = none) :
    Tables (v.reserved d name fresh) := by
  have hfresh := h.unlinked_of_none hfree
  have hold {b : Addr} {d' : DirId} {i : ℕ} (hb : b ∈ v.buckets d' i) :
      (v.reserved d name fresh).entries b = v.entries b :=
    update_of_ne (by rintro rfl; exact hfresh _ _ hb) _ _
  have hnew : (v.reserved d name fresh).entries fresh = some ⟨name, nstReserved, 0, none, v.serials⟩ :=
    update_self _ _ _
  constructor
  · intro d' i b hb
    obtain hb | ⟨rfl, rfl, rfl⟩ := mem_link.mp hb
    · obtain ⟨e, he, hi⟩ := h.live d' i b hb
      exact ⟨e, (hold hb).trans he, hi⟩
    · exact ⟨_, hnew, rfl⟩
  · intro d' i
    by_cases hd : d' = d
    · subst hd
      by_cases hi : i = nameHash name
      · subst hi
        have hnodup := List.nodup_cons.mpr ⟨hfresh d' _, h.nodup d' (nameHash name)⟩
        simpa [View.reserved, View.link, View.newEntry] using hnodup
      · simpa [View.reserved, View.link, View.newEntry, hi] using h.nodup d' i
    · simpa [View.reserved, View.link, View.newEntry, hd] using h.nodup d' i
  · intro d' i b hb c hc e e' he he' hname
    obtain hb₁ | ⟨rfl, rfl, rfl⟩ := mem_link.mp hb
    · obtain hc₁ | ⟨rfl, rfl, rfl⟩ := mem_link.mp hc
      · refine h.unique d' i b hb₁ c hc₁ e e' ?_ ?_ hname
        · exact (hold hb₁).symm.trans he
        · exact (hold hc₁).symm.trans he'
      · cases hnew.symm.trans he'
        exact (h.name_ne_of_not_found hfound hb₁ ((hold hb₁).symm.trans he) hname).elim
    · obtain hc₁ | ⟨rfl, -, -⟩ := mem_link.mp hc
      · cases hnew.symm.trans he
        exact (h.name_ne_of_not_found hfound hc₁ ((hold hc₁).symm.trans he') hname.symm).elim
      · rfl
  · intro d₁ d₂ i₁ i₂ b h₁ h₂
    obtain h₁ | ⟨rfl, rfl, -⟩ := mem_link.mp h₁
    · obtain h₂ | ⟨rfl, -, -⟩ := mem_link.mp h₂
      · exact h.apart d₁ d₂ i₁ i₂ b h₁ h₂
      · exact (hfresh _ _ h₁).elim
    · obtain h₂ | ⟨-, rfl, -⟩ := mem_link.mp h₂
      · exact (hfresh _ _ h₂).elim
      · rfl
  · intro d'
    by_cases hd : d' = d
    · subst hd
      have hsum := entriesIn_update (v.buckets d') (nameHash_lt name)
        (fresh :: v.buckets d' (nameHash name))
      simp only [View.reserved, View.link, View.newEntry, update_self, h.counted, hsum,
        List.length_cons]
      omega
    · simpa [View.reserved, View.link, View.newEntry, hd] using h.counted d'

theorem unlink {i : ℕ} (ha : a ∈ v.buckets d i) : Tables (v.unlink d i a) := by
  have hmem {d' : DirId} {j : ℕ} {b : Addr} (hb : b ∈ (v.unlink d i a).buckets d' j) :
      b ∈ v.buckets d' j := ((mem_unlink (h.nodup d i)).mp hb).1
  constructor
  · exact fun d' j b hb => h.live d' j b (hmem hb)
  · intro d' j
    by_cases hd : d' = d
    · subst hd
      by_cases hj : j = i
      · subst hj
        simpa [View.unlink] using (h.nodup d' j).erase a
      · simpa [View.unlink, hj] using h.nodup d' j
    · simpa [View.unlink, hd] using h.nodup d' j
  · exact fun d' j b hb c hc => h.unique d' j b (hmem hb) c (hmem hc)
  · exact fun d₁ d₂ i₁ i₂ b h₁ h₂ => h.apart d₁ d₂ i₁ i₂ b (hmem h₁) (hmem h₂)
  · intro d'
    by_cases hd : d' = d
    · subst hd
      obtain ⟨e, -, rfl⟩ := h.live d' i a ha
      have hsum := entriesIn_update (v.buckets d') (nameHash_lt e.name)
        ((v.buckets d' (nameHash e.name)).erase a)
      have hpos : 0 < (v.buckets d' (nameHash e.name)).length := List.length_pos_of_mem ha
      simp only [View.unlink, update_self, h.counted, hsum, List.length_erase_of_mem ha]
      omega
    · simpa [View.unlink, hd] using h.counted d'

theorem setEntry {e' : Entry} (he : v.entries a = some e) (hname : e'.name = e.name) :
    Tables (v.setEntry a e') := by
  have hentry {b : Addr} {f' : Entry} (hb : (v.setEntry a e').entries b = some f') :
      ∃ f, v.entries b = some f ∧ f'.name = f.name := by
    by_cases hba : b = a
    · subst hba
      have hself : (v.setEntry b e').entries b = some e' := update_self _ _ _
      cases hself.symm.trans hb
      exact ⟨e, he, hname⟩
    · exact ⟨f', (update_of_ne hba _ _).symm.trans hb, rfl⟩
  constructor
  · intro d' i b hb
    obtain ⟨f, hf, hi⟩ := h.live d' i b hb
    by_cases hba : b = a
    · subst hba
      cases he.symm.trans hf
      exact ⟨e', update_self _ _ _, (congrArg nameHash hname).trans hi⟩
    · exact ⟨f, (update_of_ne hba _ _).trans hf, hi⟩
  · exact h.nodup
  · intro d' i b hb c hc f f' hf hf' hname'
    obtain ⟨g, hg, hfg⟩ := hentry hf
    obtain ⟨g', hg', hfg'⟩ := hentry hf'
    exact h.unique d' i b hb c hc g g' hg hg' (hfg.symm.trans (hname'.trans hfg'))
  · exact h.apart
  · exact h.counted

theorem freeEntry (hunlinked : Unlinked v a) : Tables (v.freeEntry a e) := by
  have hne {d' : DirId} {i : ℕ} {b : Addr} (hb : b ∈ v.buckets d' i) : b ≠ a := by
    rintro rfl
    exact hunlinked d' i hb
  constructor
  · intro d' i b hb
    obtain ⟨f, hf, hi⟩ := h.live d' i b hb
    exact ⟨f, (update_of_ne (hne hb) _ _).trans hf, hi⟩
  · exact h.nodup
  · intro d' i b hb c hc f f' hf hf' hname
    refine h.unique d' i b hb c hc f f' ?_ ?_ hname
    · exact (update_of_ne (hne hb) _ _).symm.trans hf
    · exact (update_of_ne (hne hc) _ _).symm.trans hf'
  · exact h.apart
  · exact h.counted

theorem unlinked_of_unlink (he : v.entries a = some e) (ha : a ∈ v.buckets d (nameHash e.name)) :
    Unlinked (v.unlink d (nameHash e.name) a) a := by
  intro d' i hmem
  obtain ⟨hold, hother⟩ := (mem_unlink (h.nodup d _)).mp hmem
  obtain rfl := h.apart d' d i _ a hold ha
  obtain ⟨e', he', rfl⟩ := h.live d' i a hold
  cases he'.symm.trans he
  exact hother ⟨rfl, rfl, rfl⟩

end Tables

end MachUS.Dir
