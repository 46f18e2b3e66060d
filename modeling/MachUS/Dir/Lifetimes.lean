import MachUS.Dir.Coherence

namespace MachUS.Dir

open Function View

variable {v v' : View} {insertions insertions' : OpId → Option Insertion}
  {calling calling' : ObjId → Option Link} {a : Addr} {e : Entry} {o : ObjId} {d : DirId} {name : Name}

theorem nstInvalid_ne : nstInvalid ≠ nstReserved := by decide

namespace View

def takenOut (v : View) (d : DirId) (a : Addr) (e : Entry) : View :=
  if a ∈ v.buckets d (nameHash e.name) then v.unlink d (nameHash e.name) a else v

def released (v : View) (d : DirId) (a : Addr) (e : Entry) : View :=
  (v.takenOut d a e).freeEntry a e

end View

theorem released_of_linked (hlinked : Linked v d a e) :
    v.released d a e = (v.unlink d (nameHash e.name) a).freeEntry a e :=
  congrArg (View.freeEntry · a e) (if_pos hlinked)

section Released

variable (h : Tables v) (he : v.entries a = some e)

include h he

theorem sameAt_takenOut {b : Addr} (hb : b ≠ a) : SameAt v (v.takenOut d a e) b := by
  rw [takenOut]
  split_ifs
  · exact sameAt_unlink (h.nodup d _) hb
  · exact ⟨rfl, fun _ _ => Iff.rfl⟩

theorem sameAt_released {b : Addr} (hb : b ≠ a) : SameAt v (v.released d a e) b :=
  (sameAt_takenOut h he hb).trans (sameAt_freeEntry hb)

theorem tables_released (hplace : Linked v d a e ∨ Unlinked v a) : Tables (v.released d a e) := by
  rw [released, takenOut]
  split_ifs with hmem
  · exact (h.unlink hmem).freeEntry (h.unlinked_of_unlink he hmem)
  · exact h.freeEntry (hplace.resolve_left hmem)

end Released

theorem serials_released (h : Serials v) (he : v.entries a = some e) : Serials (v.released d a e) := by
  rw [released, takenOut]
  split_ifs
  · exact (h.freeEntry he).of_eq rfl rfl rfl
  · exact h.freeEntry he

theorem released_frame (v : View) (d : DirId) (a : Addr) (e : Entry) :
    (v.released d a e).kind = v.kind ∧ (v.released d a e).tmp = v.tmp ∧
      (v.released d a e).serials = v.serials ∧ (v.released d a e).registered = v.registered ∧
        (v.released d a e).unregistered = v.unregistered := by
  rw [released, takenOut]
  split_ifs <;> exact ⟨rfl, rfl, rfl, rfl, rfl⟩

theorem Logs.of_eq (h : Logs v) (htmp : v'.tmp = v.tmp) (hserials : v'.serials = v.serials)
    (hregistered : v'.registered = v.registered) (hunregistered : v'.unregistered = v.unregistered) :
    Logs v' := by
  have hrefers (o : ObjId) (l : Link) : Refers v' o l ↔ Refers v o l := by rw [Refers, htmp, Refers]
  obtain ⟨honce, hback, hmatched, hmade, hpending, hreg, hactive⟩ := h
  constructor
  · rwa [hregistered]
  · rwa [hunregistered]
  · rwa [hregistered, hunregistered]
  · rwa [hregistered, hserials]
  · simpa only [hregistered, hunregistered, hrefers, htmp] using hpending
  · simpa only [hregistered, hrefers] using hreg
  · simpa only [hunregistered, hrefers, htmp] using hactive

theorem Bonds.release (h : Bonds v) (hgone : v'.entries a = none) (hsame : ∀ b ≠ a, SameAt v v' b)
    (hkind : v'.kind = v.kind) (hregistered : v'.registered = v.registered)
    (hrefers : ∀ o l, Refers v' o l ↔ Refers v o l ∧ l.tag ≠ a)
    (htmp : ∀ o, v'.tmp o = v.tmp o ∨ (v'.tmp o).parent = none ∧ (v'.tmp o).tmplinkCount = 0) :
    Bonds v' := by
  have hkept {o : ObjId} {l : Link} (hl : Refers v' o l) : v'.tmp o = v.tmp o := by
    refine (htmp o).resolve_right fun hnone => ?_
    cases hnone.1.symm.trans hl
  constructor
  · intro b f hf
    have hb : b ≠ a := by
      rintro rfl
      cases hgone.symm.trans hf
    refine (h.placed b f ((hsame b hb).entry.symm.trans hf)).same (hsame b hb) hkind
      (fun o l hl htag => ?_) fun _ hnot => hregistered ▸ hnot
    exact (hrefers o l).mpr ⟨hl, fun ha => hb (htag.symm.trans ha)⟩
  · intro o l hl
    obtain ⟨hl, htag⟩ := (hrefers o l).mp hl
    obtain ⟨f, hf⟩ := h.target o l hl
    exact ⟨f, hf.same (hsame _ htag)⟩
  · intro o o' l l' hl hl' htag
    exact h.sole o o' l l' ((hrefers o l).mp hl).1 ((hrefers o' l').mp hl').1 htag
  · intro o l hl
    rw [hkind, hkept hl]
    exact h.temporary o l ((hrefers o l).mp hl).1
  · intro o
    obtain hsame | ⟨hparent, hcount⟩ := htmp o
    · rw [hsame]
      exact h.links o
    · simp [hparent, hcount]

namespace Coherent

variable (h : Coherent v insertions calling)

include h

theorem null_released (he : v.entries a = some e) : (v.released d a e).entries 0 = none := by
  have hzero : a ≠ 0 := h.ne_null he
  exact (sameAt_released h.tables he hzero.symm).entry.trans h.null

theorem released (he : v.entries a = some e) (hplace : Linked v d a e ∨ Unlinked v a)
    (hnone : ∀ o l, Refers v o l → l.tag ≠ a)
    (hreservations : Reservations (v.released d a e) insertions') :
    Coherent (v.released d a e) insertions' calling := by
  obtain ⟨hkind, htmp, hserials, hregistered, hunregistered⟩ := released_frame v d a e
  have hrefers (o : ObjId) (l : Link) : Refers (v.released d a e) o l ↔ Refers v o l := by
    rw [Refers, htmp, Refers]
  refine ⟨h.null_released he, tables_released h.tables he hplace, serials_released h.serials he, ?_, ?_,
    hreservations, ?_⟩
  · refine h.bonds.release (update_self _ _ _) (fun b hb => sameAt_released h.tables he hb)
      hkind hregistered (fun o l => ?_) fun o => Or.inl (congrFun htmp o)
    rw [hrefers]
    exact (and_iff_left_of_imp (hnone o l)).symm
  · exact h.logs.of_eq htmp hserials hregistered hunregistered
  · intro o l
    rw [hrefers, htmp]
    exact h.calls o l

theorem logs_released {l : Link} (hl : Refers v o l) (hserials : v'.serials = v.serials)
    (hregistered : v'.registered = v.registered)
    (hunregistered : (v.tmp o).active = true ∧ v'.unregistered = l.serial :: v.unregistered ∨
      (v.tmp o).active = false ∧ v'.unregistered = v.unregistered)
    (hgone : ∀ l', ¬Refers v' o l') (hother : ∀ o' ≠ o, v'.tmp o' = v.tmp o') : Logs v' := by
  have hcases {o' : ObjId} {l' : Link} (hl' : Refers v' o' l') :
      o' ≠ o ∧ v'.tmp o' = v.tmp o' ∧ Refers v o' l' := by
    have ho : o' ≠ o := by
      rintro rfl
      exact hgone l' hl'
    exact ⟨ho, hother o' ho, (congrArg _ (hother o' ho)).symm.trans hl'⟩
  have hmem {s : ℕ} (hs : s ∈ v'.unregistered) : s = l.serial ∨ s ∈ v.unregistered := by
    obtain ⟨-, heq⟩ | ⟨-, heq⟩ := hunregistered
    · exact List.mem_cons.mp (heq ▸ hs)
    · exact Or.inr (heq ▸ hs)
  constructor
  · rw [hregistered]
    exact h.logs.once
  · obtain ⟨halive, heq⟩ | ⟨-, heq⟩ := hunregistered
    · rw [heq]
      exact List.nodup_cons.mpr ⟨h.logs.active o l hl halive, h.logs.back⟩
    · rw [heq]
      exact h.logs.back
  · intro s hs
    rw [hregistered]
    obtain rfl | hs := hmem hs
    · exact h.logs.registered o l hl
    · exact h.logs.matched s hs
  · rw [hregistered, hserials]
    exact h.logs.made
  · intro s hs hnot
    rw [hregistered] at hs
    have hnot' : s ∉ v.unregistered := by
      obtain ⟨-, heq⟩ | ⟨-, heq⟩ := hunregistered
      · exact fun hs => hnot (heq ▸ List.mem_cons_of_mem _ hs)
      · exact fun hs => hnot (heq ▸ hs)
    obtain ⟨o', l', hl', halive, hserial⟩ := h.logs.pending s hs hnot'
    have ho : o' ≠ o := by
      rintro rfl
      cases hl.symm.trans hl'
      obtain ⟨-, heq⟩ | ⟨hdead, -⟩ := hunregistered
      · exact hnot (heq ▸ hserial ▸ List.mem_cons_self)
      · exact Bool.noConfusion (hdead.symm.trans halive)
    refine ⟨o', l', ?_, ?_, hserial⟩
    · exact (congrArg _ (hother o' ho)).trans hl'
    · exact (congrArg _ (hother o' ho)).trans halive
  · intro o' l' hl'
    rw [hregistered]
    exact h.logs.registered o' l' (hcases hl').2.2
  · intro o' l' hl' halive hs
    obtain ⟨ho, htmp, hold⟩ := hcases hl'
    obtain hserial | hs := hmem hs
    · exact ho (h.refers_inj hold hl hserial)
    · exact h.logs.active o' l' hold ((congrArg _ htmp).symm.trans halive) hs

theorem released_temporary {p : TmpProp Link} {l : Link} {unregistered : List ℕ}
    (hl : Refers v o l) (he : v.entries l.tag = some e)
    (hplace : Linked v l.dir l.tag e ∨ Unlinked v l.tag) (htype : e.type ≠ nstReserved)
    (hparent : p.parent = none) (hcount : p.tmplinkCount = 0)
    (hunregistered : (v.tmp o).active = true ∧ unregistered = l.serial :: v.unregistered ∨
      (v.tmp o).active = false ∧ unregistered = v.unregistered) :
    Coherent { (v.released l.dir l.tag e).setTmp o p with unregistered := unregistered } insertions
      (update calling o none) := by
  obtain ⟨hkind, htmp, hserials, hregistered, -⟩ := released_frame v l.dir l.tag e
  let v' : View := { (v.released l.dir l.tag e).setTmp o p with unregistered := unregistered }
  have hself : v'.tmp o = p := update_self _ _ _
  have hother {o' : ObjId} (ho : o' ≠ o) : v'.tmp o' = v.tmp o' :=
    (update_of_ne ho _ _).trans (congrFun htmp o')
  have hsame {b : Addr} (hb : b ≠ l.tag) : SameAt v v' b := by
    obtain ⟨hentry, hlinked⟩ := sameAt_released (d := l.dir) h.tables he hb
    exact ⟨hentry, hlinked⟩
  have hgone {l' : Link} : ¬Refers v' o l' := by
    rw [Refers, hself, hparent]
    simp
  have hrefers (o' : ObjId) (l' : Link) : Refers v' o' l' ↔ Refers v o' l' ∧ l'.tag ≠ l.tag := by
    by_cases ho : o' = o
    · subst ho
      refine iff_of_false hgone ?_
      rintro ⟨hl', htag⟩
      cases hl.symm.trans hl'
      exact htag rfl
    · rw [Refers, hother ho]
      exact (and_iff_left_of_imp fun hl' htag => ho (h.bonds.sole o' o l' l hl' hl htag)).symm
  refine ⟨h.null_released he, (tables_released h.tables he hplace).of_eq rfl rfl rfl,
    (serials_released h.serials he).of_eq rfl rfl rfl, ?_, ?_, ?_, ?_⟩
  · refine h.bonds.release (update_self _ _ _) (fun b hb => hsame hb) hkind hregistered
      hrefers fun o' => ?_
    by_cases ho : o' = o
    · subst ho
      rw [hself]
      exact Or.inr ⟨hparent, hcount⟩
    · exact Or.inl (hother ho)
  · exact h.logs_released hl hserials hregistered hunregistered (fun _ => hgone) fun _ => hother
  · exact h.reservations.keep he htype fun b hb => hsame hb
  · intro o' l'
    by_cases ho : o' = o
    · subst ho
      rw [update_self]
      exact iff_of_false (by simp) fun hl' => hgone hl'.1
    · rw [update_of_ne ho, h.calls]
      change Refers v o' l' ∧ _ ↔ (v'.tmp o').parent = some l' ∧ (v'.tmp o').active = false
      rw [hother ho, Refers]

section

variable (hholding : Holding v d name a e o)

include hholding

theorem linked_of_holding : v.entries a = some e ∧ e.name = name ∧ Linked v d a e := by
  obtain ⟨he, hmem, hname⟩ := entry_of_found hholding.found
  refine ⟨he, hname, ?_⟩
  rw [Linked, hname]
  exact hmem

theorem refers_of_holding (hkind : IsTemporary (v.kind o)) : Refers v o ⟨d, a, e.serial⟩ := by
  obtain ⟨he, -, hlinked⟩ := h.linked_of_holding hholding
  cases h.bonds.placed a e he with
  | reserved _ _ htype _ _ => exact (hholding.type htype).elim
  | installed d' o' hlinked' _ hobj hrefers =>
    obtain rfl := h.tables.apart d d' _ _ a hlinked hlinked'
    cases hobj.symm.trans hholding.obj
    exact hrefers hkind
  | dropped _ _ hunlinked _ _ _ => exact (hunlinked _ _ hlinked).elim

theorem dropped (hkind : IsTemporary (v.kind o)) :
    Coherent (v.dropped d name a e) insertions calling := by
  obtain ⟨he, rfl, hlinked⟩ := h.linked_of_holding hholding
  have hrefers := h.refers_of_holding hholding hkind
  have hzero : a ≠ 0 := h.ne_null he
  have hsame {b : Addr} (hb : b ≠ a) : SameAt v (v.dropped d e.name a e) b :=
    (sameAt_unlink (h.tables.nodup d _) hb).trans (sameAt_setEntry hb)
  have hunlinked : Unlinked (v.dropped d e.name a e) a := h.tables.unlinked_of_unlink he hlinked
  have hself : (v.dropped d e.name a e).entries a = some { e with type := nstInvalid, obj := none } :=
    update_self _ _ _
  have htables : Tables (v.dropped d e.name a e) :=
    (h.tables.unlink hlinked).setEntry (v := v.unlink d (nameHash e.name) a) he rfl
  have hserials : Serials (v.setEntry a { e with type := nstInvalid, obj := none }) :=
    h.serials.setEntry he rfl
  refine ⟨(hsame hzero.symm).entry.trans h.null, htables, hserials.of_eq rfl rfl rfl,
    ⟨?_, ?_, h.bonds.sole, h.bonds.temporary, h.bonds.links⟩,
    ⟨h.logs.once, h.logs.back, h.logs.matched, h.logs.made, h.logs.pending, h.logs.registered,
      h.logs.active⟩, h.reservations.keep he hholding.type fun b hb => hsame hb, h.calls⟩
  · intro b f hf
    by_cases hb : b = a
    · subst hb
      cases hself.symm.trans hf
      exact .dropped d o hunlinked nstInvalid_ne rfl hrefers
    · exact (h.bonds.placed b f ((hsame hb).entry.symm.trans hf)).same (hsame hb) rfl
        (fun _ _ hl _ => hl) fun _ hs => hs
  · intro o' l hl
    obtain ⟨f, hf⟩ := h.bonds.target o' l hl
    by_cases htag : l.tag = a
    · subst htag
      cases he.symm.trans hf.entry
      exact ⟨_, hself, hf.serial, nstInvalid_ne, Or.inr ⟨hunlinked, rfl⟩⟩
    · exact ⟨f, hf.same (hsame htag)⟩

end

end Coherent

end MachUS.Dir

namespace MachUS.Dir

open Program TmpProp Option

inductive Shuts (p : TmpProp Link) : TmpProp Link → Shutdown Link → Prop where
  | stays {q : TmpProp Link} (parent : q.parent = p.parent) (count : q.tmplinkCount = p.tmplinkCount)
    (obj : q.temporaryObj = p.temporaryObj) (active : p.parent ≠ none → q.active = p.active) :
    Shuts p q .stays
  | calls {q : TmpProp Link} (alive : p.active = true) (parent : q.parent = p.parent)
    (count : q.tmplinkCount = p.tmplinkCount - 1) (obj : q.temporaryObj = p.temporaryObj)
    (active : q.active = false) : Shuts p q (.calls p.parent)

theorem shuts_dereference {p q : TmpProp Link} {s : Shutdown Link} (h : Shuts p q s) :
    Shuts p q.dereferenceTemporary s := by
  have hfields : q.dereferenceTemporary.parent = q.parent ∧
      q.dereferenceTemporary.tmplinkCount = q.tmplinkCount ∧
        q.dereferenceTemporary.temporaryObj = q.temporaryObj ∧
          q.dereferenceTemporary.active = q.active := by
    rw [dereferenceTemporary]
    split_ifs <;> exact ⟨rfl, rfl, rfl, rfl⟩
  obtain ⟨hparent, hcount, hobj, hactive⟩ := hfields
  cases h with
  | stays parent count obj active =>
    refine .stays (hparent.trans parent) (hcount.trans count) (hobj.trans obj) fun hlinked => ?_
    exact hactive.trans (active hlinked)
  | calls alive parent count obj active =>
    exact .calls alive (hparent.trans parent) (hcount.trans count) (hobj.trans obj)
      (hactive.trans active)

theorem shuts_ifUnused {p : TmpProp Link} (lastChance : Ret)
    (hlinked : p.parent ≠ none → p.temporaryObj = true ∧ (p.active = true → 0 < p.tmplinkCount)) :
    Shuts p (p.shutdownIfUnused lastChance).1 (p.shutdownIfUnused lastChance).2 := by
  rw [TmpProp.shutdownIfUnused, TmpProp.tmpShutdownInternal]
  split_ifs with hunused hdead hunknown hrefused hcount
  · exact .stays rfl rfl rfl fun _ => rfl
  · refine .stays rfl rfl rfl fun hparent => ?_
    exact Bool.noConfusion (hunknown.symm.trans (hlinked hparent).1)
  · exact .stays rfl rfl rfl fun _ => rfl
  · exact .calls (by simpa using hdead) rfl rfl rfl rfl
  · refine shuts_dereference (.stays rfl rfl rfl fun hparent => ?_)
    exact (hcount ((hlinked hparent).2 (by simpa using hdead))).elim
  · exact .stays rfl rfl rfl fun _ => rfl

theorem Shuts.of_eq {p p' q : TmpProp Link} {s : Shutdown Link} (h : Shuts p' q s)
    (hparent : p'.parent = p.parent) (hcount : p'.tmplinkCount = p.tmplinkCount)
    (hobj : p'.temporaryObj = p.temporaryObj) (hactive : p'.active = p.active) : Shuts p q s := by
  cases h with
  | stays parent count obj active =>
    refine .stays (parent.trans hparent) (count.trans hcount) (obj.trans hobj) fun hlinked => ?_
    exact (active (hparent ▸ hlinked)).trans hactive
  | calls alive parent count obj active =>
    rw [hparent]
    exact .calls (hactive ▸ alive) (parent.trans hparent) (hcount ▸ count) (obj.trans hobj) active

theorem Service.carryOn_cases {α : Type} {x y : Service} {d : DirId} {m : M α}
    {finish : α → Service → Service} (hnext : x.carryOn d m finish = some y) :
    ∃ a w, Returns m x.world a w ∧ y = finish a { x with world := w } := by
  rw [Service.carryOn] at hnext
  split_ifs at hnext
  split at hnext
  · next a w hm => exact ⟨a, w, hm, (some.inj hnext).symm⟩
  · cases hnext

theorem TmpProp.registered_of_success {p : TmpProp Link} (parent : Link) (halive : p.active = true)
    (hnone : p.parent = none) :
    (p.nsRegisterTmplink parent).2.parent = some parent ∧ (p.nsRegisterTmplink parent).2.active = true ∧
      (p.nsRegisterTmplink parent).2.temporaryObj = true ∧
        (p.nsRegisterTmplink parent).2.tmplinkCount = p.tmplinkCount + 1 := by
  rw [nsRegisterTmplink, if_neg (by simp [halive]), if_neg (by simp [hnone])]
  refine ⟨rfl, ?_, rfl, rfl⟩
  simp [registered, halive]

structure Sound (x : Service) : Prop where
  free : x.world.held = []
  coherent : Coherent x.world.view x.insertions x.calling

namespace Sound

variable {x y : Service} (h : Sound x)

include h

theorem linked (o : ObjId) (hparent : (x.world.tmp o).parent ≠ none) :
    (x.world.tmp o).temporaryObj = true ∧
      ((x.world.tmp o).active = true → 0 < (x.world.tmp o).tmplinkCount) := by
  obtain ⟨l, hl⟩ := ne_none_iff_exists'.mp hparent
  refine ⟨(h.coherent.bonds.temporary o l hl).2, fun halive => ?_⟩
  have hlinks := h.coherent.bonds.links o
  rw [if_pos ⟨halive, hparent⟩] at hlinks
  exact hlinks ▸ Int.one_pos

variable {o : ObjId}

theorem setTmp {p : TmpProp Link} (hparent : p.parent = (x.world.tmp o).parent)
    (hcount : p.tmplinkCount = (x.world.tmp o).tmplinkCount)
    (hobj : p.temporaryObj = (x.world.tmp o).temporaryObj)
    (hactive : (x.world.tmp o).parent ≠ none → p.active = (x.world.tmp o).active) :
    Sound (x.setTmp o p) :=
  ⟨h.free, h.coherent.setTmp hparent hcount hactive fun _ => hobj⟩

theorem shutsDown {q : TmpProp Link} {s : Shutdown Link}
    (hshuts : Shuts (x.world.tmp o) q s) (hnext : x.shutsDown o (q, s) = some y) : Sound y := by
  cases hshuts with
  | stays parent count obj active =>
    cases hnext
    exact h.setTmp parent count obj active
  | calls alive parent count obj active =>
    cases hl : (x.world.tmp o).parent with
    | none => simp [Service.shutsDown, hl] at hnext
    | some l =>
      rw [hl] at hnext
      cases hnext
      have hlinks := h.coherent.bonds.links o
      rw [if_pos ⟨alive, by simp [World.view, hl]⟩] at hlinks
      have hzero : q.tmplinkCount = 0 := by
        rw [count, show (x.world.tmp o).tmplinkCount = 1 from hlinks]
        rfl
      exact ⟨h.free, h.coherent.shutdown hl alive (parent.trans hl) active hzero obj⟩

omit h in
theorem carryOn {α : Type} {d : DirId} {m : M α} {finish : α → Service → Service}
    {Q : α → View → Prop} (hdoes : Does m x.world.view Q)
    (hheld : ∀ a w, Returns m x.world a w → w.held = [])
    (hfinish : ∀ a w, w.held = [] → Q a w.view → Sound (finish a { x with world := w }))
    (hnext : x.carryOn d m finish = some y) : Sound y := by
  obtain ⟨a, w, hret, rfl⟩ := Service.carryOn_cases hnext
  exact hfinish a w (hheld a w hret) ((hdoes x.world rfl).2 a w hret)

theorem holds : Holds x.world.kind [] x.world := ⟨h.free, rfl⟩

variable {d : DirId} {name : Name}

theorem reserve {op : OpId} {fresh : Addr}
    (hnext : x.next (.reserve op d name fresh) = some y) : Sound y := by
  rw [Service.next] at hnext
  split_ifs at hnext
  refine carryOn (does_reserve fresh (h.coherent.tables.readable d)) (fun a w hret => ?_) ?_ hnext
  · exact ((moves_reserve d name fresh x.world h.holds).2 a w hret).held
  · intro ret w hheld hreserves
    obtain ⟨hfail, hview⟩ | ⟨rfl, hzero, hfree, hfound, hview⟩ := hreserves
    · rw [Service.reserved, if_neg hfail]
      refine ⟨hheld, ?_⟩
      rw [hview]
      exact h.coherent
    · refine ⟨hheld, ?_⟩
      change Coherent w.view _ _
      rw [hview]
      exact h.coherent.reserved hzero hfree hfound

theorem cancel {op : OpId} (hnext : x.next (.cancel op) = some y) : Sound y := by
  rw [Service.next] at hnext
  cases hi : x.insertions op with
  | none => simp [hi] at hnext
  | some i =>
    simp only [hi] at hnext
    obtain ⟨e, he⟩ := h.coherent.reservations.owned op i hi
    have hzero : i.tag ≠ 0 := h.coherent.ne_null he.entry
    have hdoes : Does (nsCancelEntry i.dir i.tag) x.world.view fun _ v' =>
        v' = x.world.view.released i.dir i.tag e := by
      exact does_cancel he.entry hzero he.type he.linked (released_of_linked he.linked).symm
    refine carryOn hdoes (fun a w hret => ?_) (fun _ w hheld hview => ⟨hheld, ?_⟩) hnext
    · exact ((moves_cancel i.dir i.tag x.world h.holds).2 a w hret).held
    · change Coherent w.view _ _
      rw [hview]
      refine h.coherent.released he.entry (Or.inl he.linked) (fun o l hl => ?_) ?_
      · exact h.coherent.not_refers_of_reserved he.entry he.type hl
      · exact h.coherent.reservations.finish hi fun b hb =>
          sameAt_released h.coherent.tables he.entry hb

theorem occupied (d : DirId) (name : Name) : Occupied x.world.view d name := by
  intro a e hfound htype
  obtain ⟨he, hmem, rfl⟩ := View.entry_of_found hfound
  cases h.coherent.bonds.placed a e he with
  | reserved _ _ hreserved _ _ => exact (htype hreserved).elim
  | installed _ o _ _ hobj _ => exact ⟨o, hobj⟩
  | dropped _ _ hunlinked _ _ _ => exact (hunlinked _ _ hmem).elim

theorem removed_eq {a : Addr} {e : Entry} (hholding : Holding x.world.view d name a e o) :
    x.world.view.removed d name a e = x.world.view.released d a e := by
  obtain ⟨-, rfl, hlinked⟩ := h.coherent.linked_of_holding hholding
  exact (released_of_linked hlinked).symm

theorem not_refers_of_other {a : Addr} {e : Entry} {o o' : ObjId} {l : Link}
    (hholding : Holding x.world.view d name a e o) (hother : ¬IsTemporary (x.world.kind o))
    (hl : Refers x.world.view o' l) : l.tag ≠ a := by
  rintro rfl
  obtain ⟨he, -, hlinked⟩ := h.coherent.linked_of_holding hholding
  obtain ⟨f, hf⟩ := h.coherent.bonds.target o' l hl
  cases he.symm.trans hf.entry
  obtain ⟨-, hobj⟩ | ⟨hunlinked, -⟩ := hf.place
  · obtain rfl := some.inj (hobj.symm.trans hholding.obj)
    exact hother (h.coherent.bonds.temporary o' l hl).1
  · exact hunlinked _ _ hlinked

theorem removes {w : World} (hheld : w.held = [])
    (hremoves : Removes x.world.view d name w.view) : Sound { x with world := w } := by
  refine ⟨hheld, ?_⟩
  obtain hview | ⟨a, e, o, hholding, hcases⟩ := hremoves
  · rw [hview]
    exact h.coherent
  obtain ⟨he, -, hlinked⟩ := h.coherent.linked_of_holding hholding
  obtain ⟨hother, hview⟩ | ⟨hkind, hview | ⟨parent, halive, hparent, hview⟩⟩ := hcases
  · rw [hview, h.removed_eq hholding]
    refine h.coherent.released he (Or.inl hlinked) (fun o' l hl => ?_) ?_
    · exact h.not_refers_of_other hholding hother hl
    · exact h.coherent.reservations.keep he hholding.type fun b hb =>
        sameAt_released h.coherent.tables he hb
  · rw [hview]
    exact h.coherent.dropped hholding hkind
  · have hl := h.coherent.refers_of_holding hholding hkind
    cases hparent.symm.trans hl
    have hcalling : Function.update x.calling o none = x.calling := by
      refine Function.update_eq_self_iff.mpr ?_
      cases hcalls : x.calling o with
      | none => rfl
      | some l => exact Bool.noConfusion (halive.symm.trans ((h.coherent.calls o l).mp hcalls).2)
    have hcoherent := h.coherent.released_temporary (p := (x.world.tmp o).tmplinkUnregistered)
      hl he (Or.inl hlinked) hholding.type rfl ?_ (Or.inl ⟨halive, rfl⟩)
    · rw [hcalling, released_of_linked hlinked] at hcoherent
      rw [hview]
      obtain ⟨-, rfl, -⟩ := h.coherent.linked_of_holding hholding
      exact hcoherent
    · have hlinks := h.coherent.bonds.links o
      rw [if_pos ⟨halive, by simp [hparent]⟩] at hlinks
      rw [tmplinkUnregistered]
      exact Int.sub_eq_zero.mpr hlinks

variable {answers : Answers}

theorem remove (hnext : x.next (.remove d name answers) = some y) : Sound y := by
  rw [Service.next] at hnext
  have hdoes : Does (nsRemoveEntry d name answers) x.world.view
      fun _ v' => Removes x.world.view d name v' :=
    does_remove (h.coherent.tables.readable d) (h.occupied d name)
  refine carryOn hdoes (fun a w hret => ?_) (fun _ w hheld hview => h.removes hheld hview) hnext
  by_cases hslip : Slips x.world (.remove d name answers)
  · obtain ⟨e, o, hwalks, hobj, hkind⟩ := hslip
    obtain ⟨l, hl⟩ := dies_remove answers h.holds hwalks hobj hkind
    cases hl.symm.trans hret
  · refine ((comes_remove answers h.holds fun e o hwalks hobj hkind => ?_).2 a w hret).held
    exact hslip ⟨e, o, hwalks, hobj, hkind⟩

theorem steady {a : Addr} {e : Entry}
    (hslip : ¬Slips x.world (.lookup d name answers)) (hlong : name.length < nsNamelen)
    (hholding : Holding x.world.view d name a e o) (hkind : IsTemporary (x.world.kind o)) :
    x.world.view.Steady o answers := by
  have hl := h.coherent.refers_of_holding hholding hkind
  have hparent : (x.world.tmp o).parent = some ⟨d, a, e.serial⟩ := hl
  obtain ⟨hobj, hcount⟩ := h.linked o (by simp [hparent])
  have hwalks : Walks x.world d name e :=
    ⟨hlong, ⟨a, (view_found x.world d name).trans hholding.found⟩, hholding.type⟩
  rw [View.Steady, ← view_lastAnswer]
  change (x.world.tmp o).nsReferenceTmplink _ = (x.world.tmp o, _)
  rw [TmpProp.nsReferenceTmplink, TmpProp.shutdownIfUnused, TmpProp.tmpShutdownInternal]
  split_ifs with hunused hdead hunknown hrefused hlinks
  · rfl
  · exact Bool.noConfusion (hunknown.symm.trans hobj)
  · rfl
  · refine (hslip ⟨e, o, _, hwalks, hholding.obj, hkind, ⟨?_, hunused.1, hunused.2, hobj, ?_, hlinks,
      hparent⟩, rfl⟩).elim
    · simpa using hdead
    · exact not_not.mp hrefused
  · exact (hlinks (hcount (by simpa using hdead))).elim
  · rfl

theorem does_lookup (hslip : ¬Slips x.world (.lookup d name answers)) :
    Does (nsLookupEntry d name answers) x.world.view fun _ v' => LooksUp x.world.view d name v' := by
  by_cases hlong : name.length < nsNamelen
  · exact Dir.does_lookup (h.coherent.tables.readable d) (h.occupied d name)
      fun a e o hholding hkind => h.steady hslip hlong hholding hkind
  · rw [nsLookupEntry, if_pos (by omega)]
    exact Gives.pure (Or.inl rfl)

theorem referenced (o : ObjId) : Coherent (x.world.view.setTmp o (x.world.tmp o).referenced.2)
    x.insertions x.calling := by
  have hfields : (x.world.tmp o).referenced.2.parent = (x.world.tmp o).parent ∧
      (x.world.tmp o).referenced.2.tmplinkCount = (x.world.tmp o).tmplinkCount ∧
        (x.world.tmp o).referenced.2.active = (x.world.tmp o).active ∧
          (x.world.tmp o).referenced.2.temporaryObj = (x.world.tmp o).temporaryObj := by
    rw [TmpProp.referenced]
    split_ifs <;> exact ⟨rfl, rfl, rfl, rfl⟩
  obtain ⟨hparent, hcount, hactive, hobj⟩ := hfields
  exact h.coherent.setTmp hparent hcount (fun _ => hactive) fun _ => hobj

theorem looksUp {w : World} (hheld : w.held = [])
    (hlooks : LooksUp x.world.view d name w.view) : Sound { x with world := w } := by
  refine ⟨hheld, ?_⟩
  obtain hview | ⟨a, e, o, hholding, hkind, hview | hview⟩ := hlooks
  · rw [hview]
    exact h.coherent
  · rw [hview]
    exact h.referenced o
  · rw [hview]
    exact h.coherent.dropped hholding hkind

theorem hangs (hnext : x.hangs d name answers = some y) : Sound y := by
  rw [Service.hangs] at hnext
  split at hnext
  · cases hnext
  · split at hnext
    · cases hnext
    · next o _ =>
      obtain ⟨z, hz, rfl⟩ := map_eq_some_iff.mp hnext
      have hsound : Sound z := h.shutsDown (shuts_ifUnused _ (h.linked o)) hz
      exact ⟨hsound.free, hsound.coherent⟩

theorem lookup (hnext : x.next (.lookup d name answers) = some y) : Sound y := by
  rw [Service.next] at hnext
  split at hnext
  · split_ifs at hnext
    exact h.hangs hnext
  · next hlives =>
    have hslip : ¬Slips x.world (.lookup d name answers) := by
      intro hslip
      obtain ⟨l, hl⟩ := dies_lookup h.holds hslip
      exact hlives l hl
    refine carryOn (h.does_lookup hslip) (fun a w hret => ?_)
      (fun _ w hheld hview => h.looksUp hheld hview) hnext
    exact ((comes_lookup h.holds hslip).2 a w hret).held

theorem list (hnext : x.next (.list d) = some y) : Sound y := by
  rw [Service.next] at hnext
  refine carryOn (does_list (h.coherent.tables.readable d)) (fun a w hret => ?_)
    (fun _ w hheld hview => ⟨hheld, ?_⟩) hnext
  · exact ((moves_list d x.world h.holds).2 a w hret).held
  · rw [hview]
    exact h.coherent

theorem callback (hnext : x.next (.callback o) = some y) : Sound y := by
  rw [Service.next] at hnext
  cases hl : x.calling o with
  | none => simp [hl] at hnext
  | some l =>
    simp only [hl] at hnext
    obtain ⟨hrefers, hdead⟩ := (h.coherent.calls o l).mp hl
    obtain ⟨e, he⟩ := h.coherent.bonds.target o l hrefers
    have hzero : l.tag ≠ 0 := h.coherent.ne_null he.entry
    have hdoes : Does (nsRemoveTmplink l.dir l.tag) x.world.view fun _ v' =>
        v' = x.world.view.released l.dir l.tag e := by
      refine does_removeTmplink he.entry hzero (fun hmem => ?_) fun hmem => ?_
      · exact (released_of_linked hmem).symm
      · exact (congrArg (View.freeEntry · l.tag e) (if_neg hmem)).symm
    refine carryOn hdoes (fun a w hret => ?_) (fun _ w hheld hview => ⟨hheld, ?_⟩) hnext
    · exact ((moves_removeTmplink (by simp) l.tag x.world h.holds).2 a w hret).held
    · obtain ⟨-, htmp, -, -, hunregistered⟩ := released_frame x.world.view l.dir l.tag e
      have hremoved : (x.world.tmp o).tmplinkRemoved.parent = none ∧
          (x.world.tmp o).tmplinkRemoved.tmplinkCount = (x.world.tmp o).tmplinkCount := by
        rw [tmplinkRemoved, dereferenceTemporary]
        split_ifs <;> exact ⟨rfl, rfl⟩
      have hcount : (x.world.tmp o).tmplinkCount = 0 := by
        refine (h.coherent.bonds.links o).trans (if_neg fun hlinked => ?_)
        exact Bool.noConfusion (hdead.symm.trans hlinked.1)
      have hcoherent := h.coherent.released_temporary hrefers he.entry
        (he.place.imp And.left And.left) he.type hremoved.1 (hremoved.2.trans hcount)
        (Or.inr ⟨hdead, hunregistered⟩)
      have hw : w.tmp = x.world.tmp := (congrArg View.tmp hview).trans htmp
      change Coherent (w.view.setTmp o (w.tmp o).tmplinkRemoved) _ _
      rw [hview, hw]
      exact hcoherent

theorem install {op : OpId} {type objId : ℕ} {attrs : Ret} (htype : type ≠ nstReserved)
    (hattrs : IsTemporary (x.world.kind o) → (x.world.tmp o).active = true →
      (x.world.tmp o).parent = none → attrs = .success)
    (hnext : x.next (.install op o type objId attrs) = some y) : Sound y := by
  rw [Service.next] at hnext
  cases hi : x.insertions op with
  | none => simp [hi] at hnext
  | some i =>
    simp only [hi] at hnext
    obtain ⟨e, he⟩ := h.coherent.reservations.owned op i hi
    have hzero : i.tag ≠ 0 := h.coherent.ne_null he.entry
    refine carryOn (does_install hzero he.entry he.type hattrs) (fun a w hret => ?_) ?_ hnext
    · by_cases hslip : Slips x.world (.install i.dir i.tag o type objId attrs)
      · obtain ⟨l, hl⟩ := dies_install type objId attrs h.holds hslip
        cases hl.symm.trans hret
      · exact ((comes_install type objId attrs h.holds hslip).2 a w hret).held
    · intro ret w hheld hinstalls
      obtain ⟨hfail, hview⟩ | ⟨rfl, hcases⟩ := hinstalls
      · rw [Service.ended, if_neg hfail]
        refine ⟨hheld, ?_⟩
        rw [hview]
        exact h.coherent
      · refine ⟨hheld, ?_⟩
        change Coherent w.view (Function.update x.insertions op none) x.calling
        obtain ⟨hother, hview⟩ | ⟨hkind, halive, hparent, hview⟩ := hcases
        · rw [hview]
          exact h.coherent.installed hi he htype hother
        · have hregistered := registered_of_success ⟨i.dir, i.tag, e.serial⟩ halive hparent
          rw [hview]
          refine h.coherent.installed_temporary hi he htype hkind hparent ?_ ?_ ?_ ?_
          · exact hregistered.1
          · exact hregistered.2.1
          · exact hregistered.2.2.1
          · exact hregistered.2.2.2

end Sound

end MachUS.Dir
