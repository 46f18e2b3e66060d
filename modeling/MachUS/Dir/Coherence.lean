import MachUS.Dir.Registrations

namespace MachUS.Dir

open Function View Option List

variable {v v' : View} {insertions insertions' : OpId → Option Insertion}
  {calling calling' : ObjId → Option Link} {a : Addr} {e : Entry} {o : ObjId} {d : DirId} {name : Name}

theorem Tables.of_eq (h : Tables v) (hbuckets : v'.buckets = v.buckets) (hcount : v'.count = v.count)
    (hentries : v'.entries = v.entries) : Tables v' := by
  obtain ⟨hlive, hnodup, hunique, hapart, hcounted⟩ := h
  constructor
  · rwa [hbuckets, hentries]
  · rwa [hbuckets]
  · rwa [hbuckets, hentries]
  · rwa [hbuckets]
  · rwa [hbuckets, hcount]

theorem Serials.of_eq (h : Serials v) (hentries : v'.entries = v.entries)
    (hserials : v'.serials = v.serials) (hfreed : v'.freed = v.freed) : Serials v' := by
  obtain ⟨hfresh, hsole, honce, hmade, hkept⟩ := h
  constructor
  · rwa [hentries, hserials, hfreed]
  · rwa [hentries]
  · rwa [hfreed]
  · rwa [hserials, hfreed]
  · rwa [hentries, hserials, hfreed]

theorem refers_setTmp {p : TmpProp Link} {o' : ObjId} {l : Link} :
    Refers (v.setTmp o p) o' l ↔ if o' = o then p.parent = some l else Refers v o' l := by
  by_cases ho : o' = o
  · subst ho
    simp [Refers, View.setTmp]
  · simp [Refers, View.setTmp, ho]

theorem Reservations.reserve {fresh : Addr} {op : OpId} (h : Reservations v insertions)
    (hfree : v.entries fresh = none)
    (hnew : (v.reserved d name fresh).entries fresh = some ⟨name, nstReserved, 0, none, v.serials⟩)
    (hlinked : Linked (v.reserved d name fresh) d fresh ⟨name, nstReserved, 0, none, v.serials⟩) :
    Reservations (v.reserved d name fresh)
      (update insertions op (some ⟨d, fresh, name, v.serials⟩)) := by
  have hlive {i : Insertion} {f : Entry} (hf : Owned v i f) : i.tag ≠ fresh := by
    rintro rfl
    cases hfree.symm.trans hf.entry
  have hcases {op' : OpId} {i : Insertion}
      (hi : update insertions op (some ⟨d, fresh, name, v.serials⟩) op' = some i) :
      op' = op ∧ i = ⟨d, fresh, name, v.serials⟩ ∨
        op' ≠ op ∧ insertions op' = some i ∧ i.tag ≠ fresh := by
    by_cases hop : op' = op
    · subst hop
      rw [update_self] at hi
      exact Or.inl ⟨rfl, (some.inj hi).symm⟩
    · rw [update_of_ne hop] at hi
      obtain ⟨f, hf⟩ := h.owned op' i hi
      exact Or.inr ⟨hop, hi, hlive hf⟩
  constructor
  · intro op' i hi
    obtain ⟨-, rfl⟩ | ⟨-, hi, htag⟩ := hcases hi
    · exact ⟨_, ⟨hnew, rfl, rfl, rfl, hlinked⟩⟩
    · obtain ⟨f, hf⟩ := h.owned op' i hi
      exact ⟨f, hf.same (sameAt_reserved htag)⟩
  · intro op₁ op₂ i₁ i₂ h₁ h₂ htag
    obtain ⟨rfl, rfl⟩ | ⟨-, h₁, htag₁⟩ := hcases h₁
    · obtain ⟨rfl, -⟩ | ⟨-, -, htag₂⟩ := hcases h₂
      · rfl
      · exact (htag₂ htag.symm).elim
    · obtain ⟨rfl, rfl⟩ | ⟨-, h₂, -⟩ := hcases h₂
      · exact (htag₁ htag).elim
      · exact h.sole op₁ op₂ i₁ i₂ h₁ h₂ htag

theorem Reservations.finish {op : OpId} {i : Insertion} (h : Reservations v insertions)
    (hi : insertions op = some i) (hsame : ∀ b ≠ i.tag, SameAt v v' b) :
    Reservations v' (update insertions op none) := by
  have hcases {op' : OpId} {i' : Insertion} (hi' : update insertions op none op' = some i') :
      insertions op' = some i' ∧ i'.tag ≠ i.tag := by
    have hop : op' ≠ op := by
      rintro rfl
      rw [update_self] at hi'
      cases hi'
    rw [update_of_ne hop] at hi'
    exact ⟨hi', fun htag => hop (h.sole op' op i' i hi' hi htag)⟩
  constructor
  · intro op' i' hi'
    obtain ⟨hi', htag⟩ := hcases hi'
    obtain ⟨f, hf⟩ := h.owned op' i' hi'
    exact ⟨f, hf.same (hsame _ htag)⟩
  · exact fun op₁ op₂ i₁ i₂ h₁ h₂ => h.sole op₁ op₂ i₁ i₂ (hcases h₁).1 (hcases h₂).1

theorem Reservations.keep (h : Reservations v insertions) (he : v.entries a = some e)
    (htype : e.type ≠ nstReserved) (hsame : ∀ b ≠ a, SameAt v v' b) : Reservations v' insertions := by
  refine ⟨fun op i hi => ?_, h.sole⟩
  obtain ⟨f, hf⟩ := h.owned op i hi
  refine ⟨f, hf.same (hsame _ ?_)⟩
  rintro rfl
  cases he.symm.trans hf.entry
  exact htype hf.type

namespace Coherent

variable (h : Coherent v insertions calling)

include h

theorem refers_inj {o' : ObjId} {l l' : Link} (hl : Refers v o l) (hl' : Refers v o' l')
    (hserial : l.serial = l'.serial) : o = o' := by
  obtain ⟨e, he⟩ := h.bonds.target o l hl
  obtain ⟨e', he'⟩ := h.bonds.target o' l' hl'
  have hsame : e.serial = e'.serial := he.serial.trans (hserial.trans he'.serial.symm)
  exact h.bonds.sole o o' l l' hl hl' (h.serials.sole _ _ e e' he.entry he'.entry hsame)

theorem ne_null (he : v.entries a = some e) : a ≠ 0 := by
  rintro rfl
  cases h.null.symm.trans he

theorem not_refers_of_reserved (he : v.entries a = some e) (htype : e.type = nstReserved) {l : Link}
    (hl : Refers v o l) : l.tag ≠ a := by
  rintro rfl
  obtain ⟨e', he'⟩ := h.bonds.target o l hl
  cases he.symm.trans he'.entry
  exact he'.type htype

theorem setTmp {p : TmpProp Link} (hparent : p.parent = (v.tmp o).parent)
    (hcount : p.tmplinkCount = (v.tmp o).tmplinkCount)
    (hactive : (v.tmp o).parent ≠ none → p.active = (v.tmp o).active)
    (hobj : (v.tmp o).parent ≠ none → p.temporaryObj = (v.tmp o).temporaryObj) :
    Coherent (v.setTmp o p) insertions calling := by
  have hrefers {o' : ObjId} {l : Link} : Refers (v.setTmp o p) o' l ↔ Refers v o' l := by
    rw [refers_setTmp]
    split_ifs with ho
    · rw [hparent, ho, Refers]
    · exact Iff.rfl
  have hsame {o' : ObjId} {l : Link} (hl : Refers v o' l) :
      ((v.setTmp o p).tmp o').active = (v.tmp o').active ∧
        ((v.setTmp o p).tmp o').temporaryObj = (v.tmp o').temporaryObj := by
    by_cases ho : o' = o
    · subst ho
      have hlinked : (v.tmp o').parent ≠ none := by simp [show (v.tmp o').parent = some l from hl]
      simp [View.setTmp, hactive hlinked, hobj hlinked]
    · simp [View.setTmp, ho]
  refine ⟨h.null, h.tables.of_eq rfl rfl rfl, h.serials.of_eq rfl rfl rfl, ⟨?_, ?_, ?_, ?_, ?_⟩,
    ⟨h.logs.once, h.logs.back, h.logs.matched, h.logs.made, ?_, ?_, ?_⟩, ?_, ?_⟩
  · intro a e he
    exact (h.bonds.placed a e he).same ⟨rfl, fun _ _ => Iff.rfl⟩ rfl
      (fun o' l hl _ => hrefers.mpr hl) fun _ hs => hs
  · intro o' l hl
    obtain ⟨e, he⟩ := h.bonds.target o' l (hrefers.mp hl)
    exact ⟨e, he.same ⟨rfl, fun _ _ => Iff.rfl⟩⟩
  · exact fun o₁ o₂ l l' hl hl' => h.bonds.sole o₁ o₂ l l' (hrefers.mp hl) (hrefers.mp hl')
  · intro o' l hl
    obtain ⟨hkind, hobj⟩ := h.bonds.temporary o' l (hrefers.mp hl)
    exact ⟨hkind, (hsame (hrefers.mp hl)).2.trans hobj⟩
  · intro o'
    by_cases ho : o' = o
    · subst ho
      have hlinks := h.bonds.links o'
      by_cases hlinked : (v.tmp o').parent = none
      · simpa [View.setTmp, hparent, hcount, hlinked] using hlinks
      · simpa [View.setTmp, hparent, hcount, hlinked, hactive hlinked] using hlinks
    · simpa [View.setTmp, ho] using h.bonds.links o'
  · intro s hs hnot
    obtain ⟨o', l, hl, halive, hserial⟩ := h.logs.pending s hs hnot
    exact ⟨o', l, hrefers.mpr hl, (hsame hl).1.trans halive, hserial⟩
  · exact fun o' l hl => h.logs.registered o' l (hrefers.mp hl)
  · intro o' l hl halive
    exact h.logs.active o' l (hrefers.mp hl) ((hsame (hrefers.mp hl)).1.symm.trans halive)
  · refine ⟨fun op i hi => ?_, h.reservations.sole⟩
    obtain ⟨e, he⟩ := h.reservations.owned op i hi
    exact ⟨e, he.same ⟨rfl, fun _ _ => Iff.rfl⟩⟩
  · intro o' l
    rw [h.calls, hrefers]
    refine and_congr_right fun hl => ?_
    rw [(hsame hl).1]

theorem shutdown {p : TmpProp Link} {l : Link} (hl : Refers v o l) (halive : (v.tmp o).active = true)
    (hparent : p.parent = some l) (hdead : p.active = false) (hcount : p.tmplinkCount = 0)
    (hobj : p.temporaryObj = (v.tmp o).temporaryObj) :
    Coherent ((v.setTmp o p).unregister l.serial) insertions (update calling o (some l)) := by
  have hrefers {o' : ObjId} {l' : Link} :
      Refers ((v.setTmp o p).unregister l.serial) o' l' ↔ Refers v o' l' := by
    refine refers_setTmp.trans ?_
    split_ifs with ho
    · rw [hparent, ho, Refers, show (v.tmp o).parent = some l from hl]
    · exact Iff.rfl
  have hother {o' : ObjId} (ho : o' ≠ o) : (v.setTmp o p).tmp o' = v.tmp o' :=
    update_of_ne ho _ _
  have hself : (v.setTmp o p).tmp o = p := update_self _ _ _
  refine ⟨h.null, h.tables.of_eq rfl rfl rfl, h.serials.of_eq rfl rfl rfl, ⟨?_, ?_, ?_, ?_, ?_⟩,
    ⟨h.logs.once, ?_, ?_, h.logs.made, ?_, ?_, ?_⟩, ?_, ?_⟩
  · intro a e he
    exact (h.bonds.placed a e he).same ⟨rfl, fun _ _ => Iff.rfl⟩ rfl
      (fun o' l' hl' _ => hrefers.mpr hl') fun _ hs => hs
  · intro o' l' hl'
    obtain ⟨e, he⟩ := h.bonds.target o' l' (hrefers.mp hl')
    exact ⟨e, he.same ⟨rfl, fun _ _ => Iff.rfl⟩⟩
  · exact fun o₁ o₂ l₁ l₂ hl₁ hl₂ => h.bonds.sole o₁ o₂ l₁ l₂ (hrefers.mp hl₁) (hrefers.mp hl₂)
  · intro o' l' hl'
    obtain ⟨hkind, htemporary⟩ := h.bonds.temporary o' l' (hrefers.mp hl')
    refine ⟨hkind, ?_⟩
    by_cases ho : o' = o
    · subst ho
      exact (congrArg _ hself).trans (hobj.trans htemporary)
    · exact (congrArg _ (hother ho)).trans htemporary
  · intro o'
    by_cases ho : o' = o
    · subst ho
      simp [unregister, hself, hdead, hcount]
    · simpa [unregister, hother ho] using h.bonds.links o'
  · exact nodup_cons.mpr ⟨h.logs.active o l hl halive, h.logs.back⟩
  · intro s hs
    obtain rfl | hs := mem_cons.mp hs
    · exact h.logs.registered o l hl
    · exact h.logs.matched s hs
  · intro s hs hnot
    obtain ⟨hne, hnot⟩ := not_or.mp (mt mem_cons.mpr hnot)
    obtain ⟨o', l', hl', halive', hserial⟩ := h.logs.pending s hs hnot
    have ho : o' ≠ o := by
      rintro rfl
      cases hl.symm.trans hl'
      exact hne hserial.symm
    exact ⟨o', l', hrefers.mpr hl', (congrArg _ (hother ho)).trans halive', hserial⟩
  · exact fun o' l' hl' => h.logs.registered o' l' (hrefers.mp hl')
  · intro o' l' hl' halive'
    have ho : o' ≠ o := by
      rintro rfl
      exact Bool.noConfusion (halive'.symm.trans ((congrArg _ hself).trans hdead))
    intro hmem
    obtain hserial | hmem := mem_cons.mp hmem
    · exact ho (h.refers_inj (hrefers.mp hl') hl hserial)
    · refine h.logs.active o' l' (hrefers.mp hl') ?_ hmem
      exact (congrArg _ (hother ho)).symm.trans halive'
  · refine ⟨fun op i hi => ?_, h.reservations.sole⟩
    obtain ⟨e, he⟩ := h.reservations.owned op i hi
    exact ⟨e, he.same ⟨rfl, fun _ _ => Iff.rfl⟩⟩
  · intro o' l'
    rw [hrefers]
    by_cases ho : o' = o
    · subst ho
      simp [unregister, hself, hdead, show (v.tmp o').parent = some l from hl, Refers]
    · simpa [unregister, hother ho, ho] using h.calls o' l'

theorem reserved {fresh : Addr} {op : OpId} (hzero : fresh ≠ 0) (hfree : v.entries fresh = none)
    (hfound : v.found d name = none) :
    Coherent (v.reserved d name fresh)
      (update insertions op (some ⟨d, fresh, name, v.serials⟩)) calling := by
  have hnew : (v.reserved d name fresh).entries fresh = some ⟨name, nstReserved, 0, none, v.serials⟩ :=
    update_self _ _ _
  have hlinked : Linked (v.reserved d name fresh) d fresh ⟨name, nstReserved, 0, none, v.serials⟩ :=
    mem_link.mpr (Or.inr ⟨rfl, rfl, rfl⟩)
  have hlive {b : Addr} {f : Entry} (hf : v.entries b = some f) : b ≠ fresh := by
    rintro rfl
    cases hfree.symm.trans hf
  refine ⟨(sameAt_reserved hzero.symm).entry.trans h.null, h.tables.reserved hfree hfound,
    (h.serials.newEntry hfree name).of_eq rfl rfl rfl, ⟨?_, ?_, ?_, ?_, ?_⟩,
    ⟨h.logs.once, h.logs.back, h.logs.matched, ?_, h.logs.pending, h.logs.registered,
      h.logs.active⟩, ?_, h.calls⟩
  · intro b f hf
    by_cases hb : b = fresh
    · subst hb
      cases hnew.symm.trans hf
      refine .reserved d hlinked rfl rfl fun hmem => ?_
      exact Nat.lt_irrefl _ (h.logs.made _ hmem)
    · have hsame : SameAt v (v.reserved d name fresh) b := sameAt_reserved hb
      exact (h.bonds.placed b f (hsame.entry.symm.trans hf)).same hsame rfl (fun _ _ hl _ => hl)
        fun _ hs => hs
  · intro o l hl
    obtain ⟨f, hf⟩ := h.bonds.target o l hl
    exact ⟨f, hf.same (sameAt_reserved (hlive hf.entry))⟩
  · exact h.bonds.sole
  · exact h.bonds.temporary
  · exact h.bonds.links
  · exact fun s hs => Nat.lt_succ_of_lt (h.logs.made s hs)
  · exact h.reservations.reserve hfree hnew hlinked

section Install

variable {op : OpId} {i : Insertion} {type objId : ℕ} (hi : insertions op = some i) (howned : Owned v i e)
  (htype : type ≠ nstReserved)

include hi howned htype

theorem installed (hother : ¬IsTemporary (v.kind o)) :
    Coherent (v.setEntry i.tag { e with type := type, objId := objId, obj := some o })
      (update insertions op none) calling := by
  have htag {o' : ObjId} {l : Link} (hl : Refers v o' l) : l.tag ≠ i.tag :=
    h.not_refers_of_reserved howned.entry howned.type hl
  have hzero : i.tag ≠ 0 := h.ne_null howned.entry
  refine ⟨(sameAt_setEntry hzero.symm).entry.trans h.null, h.tables.setEntry howned.entry rfl,
    h.serials.setEntry howned.entry rfl, ⟨?_, ?_, h.bonds.sole, h.bonds.temporary, h.bonds.links⟩,
    ⟨h.logs.once, h.logs.back, h.logs.matched, h.logs.made, h.logs.pending, h.logs.registered,
      h.logs.active⟩, ?_, h.calls⟩
  · intro b f hf
    by_cases hb : b = i.tag
    · subst hb
      cases (update_self i.tag _ v.entries).symm.trans hf
      exact .installed i.dir o howned.linked htype rfl fun htemporary => (hother htemporary).elim
    · have hsame := sameAt_setEntry (v := v)
        (e := { e with type := type, objId := objId, obj := some o }) hb
      exact (h.bonds.placed b f (hsame.entry.symm.trans hf)).same hsame rfl (fun _ _ hl _ => hl)
        fun _ hs => hs
  · intro o' l hl
    obtain ⟨f, hf⟩ := h.bonds.target o' l hl
    exact ⟨f, hf.same (sameAt_setEntry (htag hl))⟩
  · exact h.reservations.finish hi fun b hb => sameAt_setEntry hb

theorem installed_temporary {p : TmpProp Link} (hkind : IsTemporary (v.kind o))
    (hparent : (v.tmp o).parent = none) (hlinked : p.parent = some ⟨i.dir, i.tag, e.serial⟩)
    (hactive : p.active = true) (hobj : p.temporaryObj = true)
    (hcount : p.tmplinkCount = (v.tmp o).tmplinkCount + 1) :
    Coherent
      (((v.setTmp o p).register e.serial).setEntry i.tag
        { e with type := type, objId := objId, obj := some o })
      (update insertions op none) calling := by
  have htag {o' : ObjId} {l : Link} (hl : Refers v o' l) : l.tag ≠ i.tag :=
    h.not_refers_of_reserved howned.entry howned.type hl
  have hzero : i.tag ≠ 0 := h.ne_null howned.entry
  have hself : (v.setTmp o p).tmp o = p := update_self _ _ _
  have hsame {o' : ObjId} (ho : o' ≠ o) : (v.setTmp o p).tmp o' = v.tmp o' :=
    update_of_ne ho _ _
  have hold {o' : ObjId} {l : Link} (hl : Refers v o' l) : o' ≠ o := by
    rintro rfl
    cases hparent.symm.trans hl
  have hcases {o' : ObjId} {l : Link} (hl : Refers (v.setTmp o p) o' l) :
      o' = o ∧ l = ⟨i.dir, i.tag, e.serial⟩ ∨ o' ≠ o ∧ Refers v o' l := by
    rw [refers_setTmp] at hl
    split_ifs at hl with ho
    · exact Or.inl ⟨ho, some.inj (hl.symm.trans hlinked)⟩
    · exact Or.inr ⟨ho, hl⟩
  have hnew : Refers (v.setTmp o p) o ⟨i.dir, i.tag, e.serial⟩ := (congrArg _ hself).trans hlinked
  have hkeeps {o' : ObjId} {l : Link} (hl : Refers v o' l) : Refers (v.setTmp o p) o' l :=
    (congrArg _ (hsame (hold hl))).trans hl
  have hunregistered : e.serial ∉ v.registered := by
    cases h.bonds.placed i.tag e howned.entry with
    | reserved _ _ _ _ hnot => exact hnot
    | installed _ _ _ hother _ _ => exact (hother howned.type).elim
    | dropped _ _ _ hother _ _ => exact (hother howned.type).elim
  have htarget : Target (((v.setTmp o p).register e.serial).setEntry i.tag
      { e with type := type, objId := objId, obj := some o }) o ⟨i.dir, i.tag, e.serial⟩
        { e with type := type, objId := objId, obj := some o } :=
    ⟨update_self _ _ _, rfl, htype, Or.inl ⟨howned.linked, rfl⟩⟩
  have htables : Tables (v.setEntry i.tag { e with type := type, objId := objId, obj := some o }) :=
    h.tables.setEntry howned.entry rfl
  have hserials : Serials (v.setEntry i.tag { e with type := type, objId := objId, obj := some o }) :=
    h.serials.setEntry howned.entry rfl
  refine ⟨(sameAt_setEntry hzero.symm).entry.trans h.null, htables.of_eq rfl rfl rfl,
    hserials.of_eq rfl rfl rfl, ⟨?_, ?_, ?_, ?_, ?_⟩,
    ⟨?_, h.logs.back, ?_, ?_, ?_, ?_, ?_⟩, ?_, ?_⟩
  · intro b f hf
    by_cases hb : b = i.tag
    · subst hb
      cases (update_self i.tag _ v.entries).symm.trans hf
      exact .installed i.dir o howned.linked htype rfl fun _ => hnew
    · have hsame' : SameAt v (((v.setTmp o p).register e.serial).setEntry i.tag
          { e with type := type, objId := objId, obj := some o }) b :=
        ⟨update_of_ne hb _ _, fun _ _ => Iff.rfl⟩
      have hf' := hsame'.entry.symm.trans hf
      refine (h.bonds.placed b f hf').same hsame' rfl (fun _ _ hl _ => hkeeps hl) fun _ hnot hmem => ?_
      obtain hserial | hmem := mem_cons.mp hmem
      · exact hb (h.serials.sole b i.tag f e hf' howned.entry hserial)
      · exact hnot hmem
  · intro o' l hl
    obtain ⟨rfl, rfl⟩ | ⟨-, hl⟩ := hcases hl
    · exact ⟨_, htarget⟩
    · obtain ⟨f, hf⟩ := h.bonds.target o' l hl
      exact ⟨f, hf.same ⟨update_of_ne (htag hl) _ _, fun _ _ => Iff.rfl⟩⟩
  · intro o₁ o₂ l₁ l₂ h₁ h₂ heq
    obtain ⟨rfl, rfl⟩ | ⟨-, hold₁⟩ := hcases h₁
    · obtain ⟨rfl, -⟩ | ⟨-, hold₂⟩ := hcases h₂
      · rfl
      · exact (htag hold₂ heq.symm).elim
    · obtain ⟨rfl, rfl⟩ | ⟨-, hold₂⟩ := hcases h₂
      · exact (htag hold₁ heq).elim
      · exact h.bonds.sole o₁ o₂ l₁ l₂ hold₁ hold₂ heq
  · intro o' l hl
    obtain ⟨rfl, -⟩ | ⟨ho, hl⟩ := hcases hl
    · exact ⟨hkind, (congrArg _ hself).trans hobj⟩
    · obtain ⟨hkind', hobj'⟩ := h.bonds.temporary o' l hl
      exact ⟨hkind', (congrArg _ (hsame ho)).trans hobj'⟩
  · intro o'
    by_cases ho : o' = o
    · subst ho
      have hlinks := h.bonds.links o'
      simp only [hparent] at hlinks
      simpa [setEntry, register, hself, hlinked, hactive, hcount] using hlinks
    · simpa [setEntry, register, hsame ho] using h.bonds.links o'
  · exact nodup_cons.mpr ⟨hunregistered, h.logs.once⟩
  · exact fun s hs => mem_cons_of_mem _ (h.logs.matched s hs)
  · intro s hs
    obtain rfl | hs := mem_cons.mp hs
    · exact (h.serials.fresh _ e howned.entry).1
    · exact h.logs.made s hs
  · intro s hs hnot
    obtain rfl | hs := mem_cons.mp hs
    · exact ⟨o, _, hnew, (congrArg _ hself).trans hactive, rfl⟩
    · obtain ⟨o', l, hl, halive, hserial⟩ := h.logs.pending s hs hnot
      exact ⟨o', l, hkeeps hl, (congrArg _ (hsame (hold hl))).trans halive, hserial⟩
  · intro o' l hl
    obtain ⟨-, rfl⟩ | ⟨-, hl⟩ := hcases hl
    · exact mem_cons_self
    · exact mem_cons_of_mem _ (h.logs.registered o' l hl)
  · intro o' l hl halive
    obtain ⟨-, rfl⟩ | ⟨ho, hl⟩ := hcases hl
    · exact fun hmem => hunregistered (h.logs.matched _ hmem)
    · exact h.logs.active o' l hl ((congrArg _ (hsame ho)).symm.trans halive)
  · exact h.reservations.finish hi fun b hb => ⟨update_of_ne hb _ _, fun _ _ => Iff.rfl⟩
  · intro o' l
    rw [h.calls]
    constructor
    · intro ⟨hl, hdead⟩
      exact ⟨hkeeps hl, (congrArg _ (hsame (hold hl))).trans hdead⟩
    · intro ⟨hl, hdead⟩
      obtain ⟨rfl, -⟩ | ⟨ho, hl⟩ := hcases hl
      · exact Bool.noConfusion (hactive.symm.trans ((congrArg _ hself).symm.trans hdead))
      · exact ⟨hl, (congrArg _ (hsame ho)).symm.trans hdead⟩

end Install

end Coherent

end MachUS.Dir
