import MachUS.Naming.Answers
import MachUS.Naming.Balance

namespace MachUS.Naming

open StdName PfxEntry

variable {W : Type} {sv : Servers W} {s s' t : StdName W}

def Permanent (e : PfxEntry) : Prop := e.type = .system ∨ e.type = .user

theorem Spare.not_permanent {e : PfxEntry} (h : Spare e) : ¬Permanent e := by
  rintro (hp | hp) <;> rcases h with h | h <;> cases h.symm.trans hp

theorem not_permanent_iff {e : PfxEntry} : ¬Permanent e ↔ Spare e := by
  refine ⟨fun h => ?_, Spare.not_permanent⟩
  cases htype : e.type with
  | invalid => exact Or.inl htype
  | system => exact absurd (Or.inl htype) h
  | user => exact absurd (Or.inr htype) h
  | cache => exact Or.inr htype

structure Tidy (s : StdName W) : Prop where
  sound : s.Sound
  path : ∀ slot e, s.entry slot = some e → (e.prefixPath = [] ↔ slot = .null)
  unique : ∀ slot slot' e e', s.entry slot = some e → s.entry slot' = some e' →
    e.type ≠ .invalid → Serves e.prefixPath e' → slot' = slot
  target : ∀ slot e, s.entry slot = some e → (e.target = none ↔ e.type = .invalid)

structure Sole (s : StdName W) : Prop where
  sound : s.Sound
  path : ∀ slot e, s.entry slot = some e → (e.prefixPath = [] ↔ slot = .null)
  unique : ∀ slot slot' e e', s.entry slot = some e → s.entry slot' = some e' →
    e.type ≠ .invalid → Serves e.prefixPath e' → slot' = slot

theorem Tidy.sole (h : Tidy s) : Sole s := ⟨h.sound, h.path, h.unique⟩

theorem Sole.tidy (h : Sole s)
    (htarget : ∀ slot e, s.entry slot = some e → (e.target = none ↔ e.type = .invalid)) : Tidy s :=
  ⟨h.sound, h.path, h.unique, htarget⟩

def Intact (s s' : StdName W) : Prop :=
  ∀ slot e, s.entry slot = some e → Permanent e → s'.entry slot = some e

theorem Intact.refl (s : StdName W) : Intact s s := fun _ _ he _ => he

theorem Intact.trans (h : Intact s t) (h' : Intact t s') : Intact s s' :=
  fun slot e he hp => h' slot e (h slot e he hp) hp

theorem Intact.of_entry (h : ∀ slot, s'.entry slot = s.entry slot) : Intact s s' :=
  fun slot _ he _ => (h slot).trans he

namespace StdName

theorem entry_valid (hs : s.Sound) {slot : Slot} {e : PfxEntry} (he : s.entry slot = some e) :
    slot.Valid := by
  cases slot with
  | null => trivial
  | index i =>
    by_contra hi
    have hout : s.pfxTable[i]? = none := List.getElem?_eq_none (by rw [hs.size]; exact not_lt.mp hi)
    simp [entry, hout] at he

theorem store_entry_ne (e : PfxEntry) {slot slot' : Slot} (h : slot' ≠ slot) :
    (s.store e slot).entry slot' = s.entry slot' := by
  cases slot with
  | null =>
    cases slot' with
    | null => exact absurd rfl h
    | index j => rfl
  | index i =>
    cases slot' with
    | null => rfl
    | index j =>
      have hij : i ≠ j := fun hij => h (hij ▸ rfl)
      simp [store, entry, List.getElem?_set_ne hij]

variable (s) in
theorem store_entry_cases (hs : s.Sound) {slot : Slot} (hslot : slot.Valid) (e : PfxEntry)
    (slot' : Slot) (e' : PfxEntry) (he' : (s.store e slot).entry slot' = some e') :
    slot' = slot ∧ e' = e ∨ slot' ≠ slot ∧ s.entry slot' = some e' := by
  by_cases hne : slot' = slot
  · subst hne
    rw [store_entry hs e hslot] at he'
    exact Or.inl ⟨rfl, (Option.some.inj he').symm⟩
  · rw [store_entry_ne e hne] at he'
    exact Or.inr ⟨hne, he'⟩

theorem note_entry (x : Happening) (slot : Slot) : (s.note x).entry slot = s.entry slot := by
  cases slot <;> rfl

theorem evict_entry_ne (path : Path) {i : ℕ} {slot : Slot} (h : slot ≠ .index i) :
    (s.evict path i).entry slot = s.entry slot := by
  have hstore := store_entry_ne (s := s.count (-1) ((s.entry (.index i)).bind target))
    (.blank path) h
  rw [count_entry] at hstore
  rw [← hstore]
  cases slot <;> rfl

theorem advance_entry (world : W) (slot : Slot) : (s.advance world).entry slot = s.entry slot := by
  cases slot <;> rfl

end StdName

namespace Sole

section

variable (h : Sole s)

include h

theorem congr (hsound : s'.Sound) (hentry : ∀ slot, s'.entry slot = s.entry slot) : Sole s' where
  sound := hsound
  path := fun slot e he => h.path slot e (hentry slot ▸ he)
  unique := fun slot slot' e e' he he' =>
    h.unique slot slot' e e' (hentry slot ▸ he) (hentry slot' ▸ he')

theorem count (n : ℤ) (o : Option Obj) : Sole (s.count n o) :=
  h.congr (h.sound.count n o) fun slot => count_entry s n o slot

theorem note (x : Happening) : Sole (s.note x) :=
  h.congr (h.sound.note x) fun slot => note_entry x slot

theorem notes (l : List Happening) : Sole (s.notes l) :=
  h.congr ⟨h.sound.size, h.sound.last⟩ fun slot => notes_entry s l slot

theorem advance (world : W) : Sole (s.advance world) :=
  h.congr (h.sound.advance world) fun slot => advance_entry world slot

theorem store {slot : Slot} (hslot : slot.Valid) {e : PfxEntry}
    (hpath : e.prefixPath = [] ↔ slot = .null)
    (hunique : e.type ≠ .invalid → ∀ slot' e', s.entry slot' = some e' →
      Serves e.prefixPath e' → slot' = slot) : Sole (s.store e slot) := by
  have hentry := s.store_entry_cases h.sound hslot e
  refine ⟨h.sound.store _ _, ?_, ?_⟩
  · intro slot' e' he'
    rcases hentry slot' e' he' with ⟨rfl, rfl⟩ | ⟨-, he'⟩
    · exact hpath
    · exact h.path slot' e' he'
  · intro slot₁ slot₂ e₁ e₂ he₁ he₂ hvalid hserves
    rcases hentry slot₁ e₁ he₁ with ⟨rfl, rfl⟩ | ⟨-, hold₁⟩
    · rcases hentry slot₂ e₂ he₂ with ⟨rfl, rfl⟩ | ⟨-, hold₂⟩
      · rfl
      · exact hunique hvalid slot₂ e₂ hold₂ hserves
    · rcases hentry slot₂ e₂ he₂ with ⟨rfl, rfl⟩ | ⟨-, hold₂⟩
      · exact (hunique hserves.1 slot₁ e₁ hold₁ ⟨hvalid, hserves.2.symm⟩).symm
      · exact h.unique slot₁ slot₂ e₁ e₂ hold₁ hold₂ hvalid hserves

theorem rewrite {slot : Slot} {e e' : PfxEntry} (he : s.entry slot = some e)
    (hpath : e'.prefixPath = e.prefixPath) (hvalid : e'.type ≠ .invalid → e.type ≠ .invalid) :
    Sole (s.store e' slot) := by
  refine h.store (entry_valid h.sound he) ?_ ?_
  · rw [hpath]
    exact h.path slot e he
  · intro hne slot' e'' he'' hserves
    rw [hpath] at hserves
    exact h.unique slot slot' e e'' he he'' (hvalid hne) hserves

theorem retire {slot : Slot} {e e' : PfxEntry} (he : s.entry slot = some e)
    (hpath : e'.prefixPath = e.prefixPath) (htype : e'.type = .invalid) :
    Sole (s.replace slot e e') := by
  refine (h.count (-1) e.target).rewrite ?_ hpath fun hne => absurd htype hne
  rw [count_entry, he]

end

end Sole

namespace Tidy

section

variable (h : Tidy s)

include h

theorem congr (hsound : s'.Sound) (hentry : ∀ slot, s'.entry slot = s.entry slot) : Tidy s' :=
  (h.sole.congr hsound hentry).tidy fun slot e he => h.target slot e (hentry slot ▸ he)

theorem count (n : ℤ) (o : Option Obj) : Tidy (s.count n o) :=
  h.congr (h.sound.count n o) fun slot => count_entry s n o slot

theorem note (x : Happening) : Tidy (s.note x) :=
  h.congr (h.sound.note x) fun slot => note_entry x slot

theorem notes (l : List Happening) : Tidy (s.notes l) :=
  h.congr ⟨h.sound.size, h.sound.last⟩ fun slot => notes_entry s l slot

theorem advance (world : W) : Tidy (s.advance world) :=
  h.congr (h.sound.advance world) fun slot => advance_entry world slot

theorem store {slot : Slot} (hslot : slot.Valid) {e : PfxEntry}
    (hpath : e.prefixPath = [] ↔ slot = .null)
    (hunique : e.type ≠ .invalid → ∀ slot' e', s.entry slot' = some e' →
      Serves e.prefixPath e' → slot' = slot)
    (htarget : e.target = none ↔ e.type = .invalid) : Tidy (s.store e slot) := by
  refine (h.sole.store hslot hpath hunique).tidy fun slot' e' he' => ?_
  rcases s.store_entry_cases h.sound hslot e slot' e' he' with ⟨rfl, rfl⟩ | ⟨-, he'⟩
  · exact htarget
  · exact h.target slot' e' he'

theorem rewrite {slot : Slot} {e e' : PfxEntry} (he : s.entry slot = some e)
    (hpath : e'.prefixPath = e.prefixPath) (hvalid : e'.type ≠ .invalid → e.type ≠ .invalid)
    (htarget : e'.target = none ↔ e'.type = .invalid) : Tidy (s.store e' slot) := by
  refine (h.sole.rewrite he hpath hvalid).tidy fun slot' e'' he'' => ?_
  rcases s.store_entry_cases h.sound (entry_valid h.sound he) e' slot' e'' he'' with
    ⟨rfl, rfl⟩ | ⟨-, he''⟩
  · exact htarget
  · exact h.target slot' e'' he''

theorem retire {slot : Slot} {e e' : PfxEntry} (he : s.entry slot = some e)
    (hpath : e'.prefixPath = e.prefixPath) (htype : e'.type = .invalid) (htarget : e'.target = none) :
    Tidy (s.replace slot e e') := by
  refine (h.count (-1) e.target).rewrite ?_ hpath (fun hne => absurd htype hne)
    ⟨fun _ => htype, fun _ => htarget⟩
  rw [count_entry, he]

end

theorem create (world : W) (refs : Obj → ℤ) : Tidy { StdName.create world with refs := refs } := by
  have hnone (slot : Slot) :
      ({ StdName.create world with refs := refs } : StdName W).entry slot = none := by
    cases slot with
    | null => rfl
    | index i =>
      simp only [StdName.create, StdName.entry, List.getElem?_replicate]
      split_ifs <;> rfl
  refine ⟨⟨rfl, show pfxTableSize - 1 < pfxTableSize by decide⟩, ?_, ?_, ?_⟩
  · intro slot e he
    cases (hnone slot).symm.trans he
  · intro slot slot' e e' he
    cases (hnone slot).symm.trans he
  · intro slot e he
    cases (hnone slot).symm.trans he

end Tidy

theorem Intact.store {slot : Slot} {e e' : PfxEntry} (he : s.entry slot = some e)
    (hspare : Spare e) : Intact s (s.store e' slot) := by
  intro slot' e'' he'' hp
  by_cases hne : slot' = slot
  · subst hne
    cases he.symm.trans he''
    exact absurd hp hspare.not_permanent
  · rw [store_entry_ne e' hne]
    exact he''

theorem Intact.replace {slot : Slot} {e e' : PfxEntry} (he : s.entry slot = some e)
    (hspare : Spare e) : Intact s (s.replace slot e e') := by
  refine (Intact.of_entry fun slot' => count_entry s (-1) e.target slot').trans
    (Intact.store ?_ hspare)
  rw [count_entry, he]

section Entering

variable {path : Path} {okcreate : Bool} {r : Option Slot}

theorem blank_target (path : Path) : (blank path).target = none ↔
    (blank path).type = .invalid := ⟨fun _ => rfl, fun _ => rfl⟩

theorem Entered.keepsSole (h : Entered s path okcreate r s') (hs : Sole s) : Sole s' := by
  cases h with
  | null hpath he => exact hs
  | newNull hpath he =>
    exact hs.store (show Slot.null.Valid from trivial) ⟨fun _ => rfl, fun _ => rfl⟩
      fun h => absurd rfl h
  | found hpath hi he hserves => exact hs
  | @evicted i hpath hcreate hi hnone hspare =>
    have hcount := hs.count (-1) ((s.entry (.index i)).bind target)
    have hstore := hcount.store (show (Slot.index i).Valid from hi)
      (show (blank path).prefixPath = [] ↔ Slot.index i = .null from
        ⟨fun h => absurd h hpath, by simp⟩) fun h => absurd rfl h
    exact hstore.congr ⟨hstore.sound.size, hi⟩ fun slot => by cases slot <;> rfl
  | missing hpath hnone => exact hs

theorem Entered.tidy (h : Entered s path okcreate r s') (ht : Tidy s) : Tidy s' ∧ Intact s s' := by
  have hsole := h.keepsSole ht.sole
  cases h with
  | null hpath he => exact ⟨ht, Intact.refl s⟩
  | newNull hpath he =>
    refine ⟨ht.store (show Slot.null.Valid from trivial) ⟨fun _ => rfl, fun _ => rfl⟩ (fun h => absurd rfl h)
      (blank_target []), ?_⟩
    intro slot e hentry hp
    cases slot with
    | null => cases he.symm.trans hentry
    | index i => exact hentry
  | found hpath hi he hserves => exact ⟨ht, Intact.refl s⟩
  | @evicted i hpath hcreate hi hnone hspare =>
    have hne : ∀ slot e, s.entry slot = some e → Permanent e → slot ≠ .index i := by
      rintro slot e he hp rfl
      exact (hspare e he).not_permanent hp
    refine ⟨hsole.tidy fun slot e he => ?_, fun slot e he hp => ?_⟩
    · rcases (s.count (-1) _).store_entry_cases (ht.sound.count _ _)
        (show (Slot.index i).Valid from hi) (.blank path) slot e (by cases slot <;> exact he) with
        ⟨rfl, rfl⟩ | ⟨-, he⟩
      · exact blank_target path
      · rw [count_entry] at he
        exact ht.target slot e he
    · rw [evict_entry_ne path (hne slot e he hp), he]
  | missing hpath hnone => exact ⟨ht, Intact.refl s⟩

variable {e : PfxEntry} {slot : Slot}

theorem Entered.sole (h : Entered s path okcreate (some slot) s') (hs : Sole s)
    (he : s'.entry slot = some e) :
    e.prefixPath = path ∧ ∀ slot' e', s'.entry slot' = some e' → Serves path e' → slot' = slot := by
  have hs' := h.keepsSole hs
  cases h with
  | null hpath _ =>
    have hnil := (hs'.path _ _ he).mpr rfl
    refine ⟨hnil.trans hpath.symm, fun slot' e' he' hserves => ?_⟩
    exact (hs'.path slot' e' he').mp (hserves.2.trans hpath)
  | newNull hpath _ =>
    have hnil := (hs'.path _ _ he).mpr rfl
    refine ⟨hnil.trans hpath.symm, fun slot' e' he' hserves => ?_⟩
    exact (hs'.path slot' e' he').mp (hserves.2.trans hpath)
  | found hpath hi hfound hserves =>
    cases hfound.symm.trans he
    refine ⟨hserves.2, fun slot' e' he' hserves' => ?_⟩
    exact hs.unique _ slot' e e' he he' hserves.1 (hserves.2.symm ▸ hserves')
  | @evicted i hpath hcreate hi hnone hspare =>
    have hblank : (s.evict path i).entry (.index i) = some (.blank path) :=
      store_entry (hs.sound.count _ _) _ (show (Slot.index i).Valid from hi)
    cases hblank.symm.trans he
    refine ⟨rfl, fun slot' e' he' hserves => ?_⟩
    by_contra hne
    have hentry : s.entry slot' = some e' := by rw [← he', evict_entry_ne path hne]
    cases slot' with
    | null => exact hpath (hserves.2.symm.trans ((hs.path _ _ hentry).mpr rfl))
    | index j => exact hnone j (entry_valid hs.sound hentry) e' hentry hserves

theorem Entered.sole_store (h : Entered s path okcreate (some slot) t) (hs : Sole s)
    (he : t.entry slot = some e) (hentry : ∀ slot', s'.entry slot' = t.entry slot')
    (hsound : s'.Sound) {e' : PfxEntry} (hpath : e'.prefixPath = e.prefixPath) :
    Sole (s'.store e' slot) := by
  have hs' := h.keepsSole hs
  obtain ⟨hsame, hsole⟩ := h.sole hs he
  refine (hs'.congr hsound hentry).store (entry_valid hs'.sound he) ?_ ?_
  · rw [hpath]
    exact hs'.path slot e he
  · intro _ slot' e'' he'' hserves
    rw [hpath, hsame] at hserves
    exact hsole slot' e'' ((hentry slot').symm.trans he'') hserves

theorem Entered.permanent (h : Entered s path okcreate (some slot) s') (ht : Tidy s)
    (he : s'.entry slot = some e) (hp : Permanent e) : s.entry slot = some e := by
  cases h with
  | null hpath _ => exact he
  | newNull hpath _ =>
    cases he
    exact absurd hp (Spare.not_permanent (Or.inl rfl))
  | found hpath hi hfound hserves => exact he
  | @evicted i hpath hcreate hi hnone hspare =>
    have hblank : (s.evict path i).entry (.index i) = some (.blank path) :=
      store_entry (ht.sound.count _ _) _ (show (Slot.index i).Valid from hi)
    cases hblank.symm.trans he
    exact absurd hp (Spare.not_permanent (Or.inl rfl))

theorem Entered.tidy_store (h : Entered s path okcreate (some slot) t) (ht : Tidy s)
    (he : t.entry slot = some e) (hentry : ∀ slot', s'.entry slot' = t.entry slot')
    (hsound : s'.Sound) {e' : PfxEntry} (hpath : e'.prefixPath = e.prefixPath)
    (htarget : e'.target = none ↔ e'.type = .invalid) : Tidy (s'.store e' slot) := by
  have ht' := (h.tidy ht).1
  have hslot := entry_valid ht'.sound he
  refine (h.sole_store ht.sole he hentry hsound hpath).tidy fun slot' e'' he'' => ?_
  rcases s'.store_entry_cases hsound hslot e' slot' e'' he'' with ⟨rfl, rfl⟩ | ⟨-, he''⟩
  · exact htarget
  · exact ht'.target slot' e'' ((hentry slot').symm.trans he'')

end Entering

end MachUS.Naming

namespace MachUS.Naming

open Program Intact

variable {W : Type} {sv : Servers W} {s s' t : StdName W}

def Happening.calm : Happening → Bool
  | .demoted _ => false
  | .nullCached _ => false
  | _ => true

def Happening.still : Happening → Bool
  | .renewed _ => false
  | .reevaluated _ => false
  | _ => true

def Calm (s s' : StdName W) : Prop := (happened s s').all Happening.calm = true

def Still (s s' : StdName W) : Prop := (happened s s').all Happening.still = true

structure Keeps (s s' : StdName W) : Prop where
  continues : Continues s s'
  tidy : Calm s s' → Tidy s → Tidy s'

structure Guards (s s' : StdName W) : Prop where
  keeps : Keeps s s'
  intact : Calm s s' → Still s s' → Tidy s → Intact s s'

theorem Continues.happened_append (h : Continues s t) (h' : Continues t s') :
    happened s s' = happened s t ++ happened t s' := by
  obtain ⟨l, hl⟩ := h
  obtain ⟨l', hl'⟩ := h'
  rw [happened, happened, happened, ← hl', ← hl]
  simp

theorem Calm.split (hst : Continues s t) (hts : Continues t s') (h : Calm s s') :
    Calm s t ∧ Calm t s' := by
  rw [Calm, hst.happened_append hts, List.all_append, Bool.and_eq_true] at h
  exact h

theorem Still.split (hst : Continues s t) (hts : Continues t s') (h : Still s s') :
    Still s t ∧ Still t s' := by
  rw [Still, hst.happened_append hts, List.all_append, Bool.and_eq_true] at h
  exact h

theorem Keeps.refl (s : StdName W) : Keeps s s := ⟨List.prefix_refl _, fun _ h => h⟩

theorem Keeps.trans (h : Keeps s t) (h' : Keeps t s') : Keeps s s' := by
  refine ⟨h.continues.trans h'.continues, fun hcalm hs => ?_⟩
  obtain ⟨hst, hts⟩ := hcalm.split h.continues h'.continues
  exact h'.tidy hts (h.tidy hst hs)

theorem Guards.trans (h : Guards s t) (h' : Guards t s') : Guards s s' := by
  refine ⟨h.keeps.trans h'.keeps, fun hcalm hstill hs => ?_⟩
  obtain ⟨hst, hts⟩ := hcalm.split h.keeps.continues h'.keeps.continues
  obtain ⟨hst', hts'⟩ := hstill.split h.keeps.continues h'.keeps.continues
  exact (h.intact hst hst' hs).trans (h'.intact hts hts' (h.keeps.tidy hst hs))

theorem Guards.of_tidy (hlog : s'.log = s.log) (h : Tidy s → Tidy s' ∧ Intact s s') : Guards s s' :=
  ⟨⟨by rw [Continues, hlog], fun _ hs => (h hs).1⟩, fun _ _ hs => (h hs).2⟩

theorem Guards.of_note {x : Happening} (hx : x.still = false) (h : Keeps (s.note x) s') :
    Guards s s' := by
  have hnote : Continues s (s.note x) := List.prefix_append _ _
  have hhappened : happened s (s.note x) = [x] := by simp [happened]
  refine ⟨⟨hnote.trans h.continues, fun hcalm hs => ?_⟩, fun _ hstill _ => ?_⟩
  · exact h.tidy (hcalm.split hnote h.continues).2 (hs.note x)
  · have hstill := (hstill.split hnote h.continues).1
    rw [Still, hhappened, List.all_cons, hx] at hstill
    cases hstill

theorem guards_stable : Stable (Guards (W := W)) where
  refl := fun s => ⟨Keeps.refl s, fun _ _ _ => refl s⟩
  trans := Guards.trans
  quiet := by
    intro s s' htable hnull hlast _ hlog
    have hentry (slot : Slot) : s'.entry slot = s.entry slot := by
      cases slot with
      | null => exact hnull
      | index i => rw [StdName.entry, StdName.entry, htable]
    refine ⟨⟨hlog, fun _ hs => hs.congr ⟨?_, ?_⟩ hentry⟩, fun _ _ _ => of_entry hentry⟩
    · rw [htable]
      exact hs.sound.size
    · rw [hlast]
      exact hs.sound.last

theorem Flushed.guards (h : Flushed s s') : Guards s s' := by
  induction h with
  | refl => exact guards_stable.refl s
  | @step t i e h hi he hcache ih =>
    refine ih.trans (Guards.of_tidy (by simp) fun ht => ?_)
    exact ⟨ht.retire he rfl rfl rfl, replace he (Or.inr hcache)⟩

theorem Entered.guards {path : Path} {okcreate : Bool} {r : Option Slot}
    (h : Entered s path okcreate r s') : Guards s s' := Guards.of_tidy h.log fun ht => h.tidy ht

variable {pfxobj : Option Obj}

theorem cachingNotes_calm {e : PfxEntry}
    (h : (cachingNotes e pfxobj).all Happening.calm = true) : Spare e ∧ pfxobj ≠ none := by
  rw [cachingNotes, List.all_append, Bool.and_eq_true] at h
  refine ⟨?_, fun hnone => ?_⟩
  · by_contra hspare
    rw [if_neg (show ¬(e.type = .invalid ∨ e.type = .cache) from hspare)] at h
    cases h.1
  · rw [if_pos hnone] at h
    cases h.2

theorem Cached.guards {pfxpath canonpath : List UInt8} {objtype : ℕ}
    {r : Except NsError Unit} (h : Cached s pfxpath pfxobj objtype canonpath r s') :
    Guards s s' := by
  have hcontinues := h.continues
  cases h with
  | overflow hget => exact hget.guards
  | @stored t slot e hget he =>
    have hentry (slot' : Slot) :
        (((t.notes (cachingNotes e pfxobj)).count (-1) e.target).count 1 pfxobj).entry slot' =
          t.entry slot' := by
      rw [StdName.count_entry, StdName.count_entry, StdName.notes_entry]
    have hcalm (h : Calm s ((((t.notes (cachingNotes e pfxobj)).count (-1) e.target).count 1
        pfxobj).store { e with
          type := .cache
          canonPath := cString canonpath
          target := pfxobj
          targetType := objtype
          idStamp := t.identityVersion } slot)) : Spare e ∧ pfxobj ≠ none := by
      simp only [Calm, happened, StdName.store_log, StdName.count_log, StdName.notes, hget.log,
        List.drop_left] at h
      exact cachingNotes_calm h
    refine ⟨⟨hcontinues, fun h ht => ?_⟩, fun h _ ht => ?_⟩
    · have hsound := ((((hget.tidy ht).1.notes (cachingNotes e pfxobj)).count (-1) e.target).count 1
        pfxobj).sound
      refine hget.tidy_store ht he hentry hsound rfl ⟨fun hnone => ?_, by simp⟩
      exact absurd hnone (hcalm h).2
    · refine ((hget.tidy ht).2.trans (of_entry hentry)).trans (store ?_ (hcalm h).1)
      rw [hentry, he]

theorem UserEntered.keeps {pfxpath : List UInt8} {pfxtype : ℕ} {canon : Path}
    {r : Except NsError Unit} (hobj : pfxobj ≠ none)
    (h : UserEntered s pfxpath pfxobj pfxtype canon r s') : Keeps s s' := by
  cases h with
  | overflow hget =>
    exact hget.guards.keeps.trans ⟨by simp [Continues], fun _ ht => ht.count _ _⟩
  | @stored t s' slot e hget he hflush =>
    refine Keeps.trans ?_ hflush.guards.keeps
    refine ⟨by simp [Continues, hget.log], fun _ ht => ?_⟩
    refine hget.tidy_store ht he (fun slot' => StdName.count_entry t _ _ slot')
      ((hget.tidy ht).1.count _ _).sound rfl ⟨fun hnone => absurd hnone hobj, by simp⟩

section Setting

variable {u : SetUser W} (hu : ∀ pfxpath targetpath s r s', s.Sound →
  Returns (u pfxpath targetpath) s r s' → Keeps s s')
include hu

theorem Invalidated.guards {path : Path} {r : Except NsError Unit} (h : Invalidated u s path r s')
    (hs : s.Sound) : Guards s s' := by
  cases h with
  | missing hget => exact hget.guards
  | left hget he htype => exact hget.guards
  | @dropped t slot e hget he htype =>
    refine hget.guards.trans (Guards.of_tidy (by simp) fun ht => ?_)
    exact ⟨ht.retire he rfl rfl rfl, replace he (Or.inr htype)⟩
  | @reevaluated t s' slot e r hget he htype hset =>
    have hnote := (hget.sound hs).note (.reevaluated path)
    refine hget.guards.trans (Guards.of_note (x := .reevaluated path) rfl ?_)
    refine Keeps.trans ?_ (hu _ _ _ _ _ (hnote.replace _ _ _) hset)
    refine ⟨by simp [Continues], fun _ ht => ht.retire ?_ rfl rfl rfl⟩
    rw [StdName.note_entry, he]

theorem Renewed.guards (hsv : Answering sv) {slot : Slot} {e : PfxEntry}
    (h : Renewed sv u s slot e s') (hs : s.Sound) (he : s.entry slot = some e)
    (hvalid : e.type ≠ .invalid) : Guards s s' := by
  have hentry (world : W) :
      ((s.note (.renewed e.prefixPath)).advance world).entry slot = some e := by
    rw [StdName.advance_entry, StdName.note_entry, he]
  have hadvance (world : W) : Keeps (s.note (.renewed e.prefixPath))
      ((s.note (.renewed e.prefixPath)).advance world) :=
    ⟨by simp [Continues], fun _ ht => ht.advance world⟩
  refine Guards.of_note (x := .renewed e.prefixPath) rfl ?_
  cases h with
  | @fresh world obj hauth =>
    obtain ⟨_, _, _, _, hauth⟩ := hauth
    have hobj := hsv.authenticate _ _ _ _ obj hauth
    refine ⟨by simp [Continues], fun _ ht => ?_⟩
    refine (((ht.advance world).count 1 obj).count (-1) e.target).rewrite (e := e) ?_ rfl
      (fun _ => hvalid) ⟨fun hnone => absurd hnone hobj, fun hinvalid => absurd hinvalid hvalid⟩
    rw [StdName.count_entry, StdName.count_entry, hentry]
  | @system world htype e' he' =>
    refine ⟨by simp [Continues], fun _ ht => ?_⟩
    obtain rfl : e' = e := by rw [he', he, Option.getD_some]
    exact (ht.advance world).retire (hentry world) rfl rfl rfl
  | @recovered world s' htype hinv =>
    have hi := hinv.guards hu ((hs.note _).advance world)
    exact (hadvance world).trans hi.keeps
  | @given world t err e' htype hinv he' =>
    have hi := hinv.guards hu ((hs.note _).advance world)
    refine ⟨?_, fun hcalm ht => ?_⟩
    · rw [Continues, StdName.replace_log]
      exact ((hadvance world).trans hi.keeps).continues
    · have htidy : Tidy t := by
        refine ((hadvance world).trans hi.keeps).tidy ?_ ht
        rwa [Calm, happened, StdName.replace_log] at hcalm
      cases hslot : t.entry slot with
      | none =>
        obtain rfl : e' = .blank e.prefixPath := by rw [he', hslot, Option.getD_none]
        have hpath := ht.path slot e (by rw [StdName.note_entry, he])
        exact (htidy.count _ _).store (StdName.entry_valid hs he) hpath (fun hne => absurd rfl hne)
          ⟨fun _ => rfl, fun _ => rfl⟩
      | some e'' =>
        obtain rfl : e' = e'' := by rw [he', hslot, Option.getD_some]
        exact htidy.retire hslot rfl rfl rfl

theorem Searched.guards (hsv : Answering sv) {path : Path} {f : FoundPrefix}
    (h : Searched sv u s path f s') (hs : s.Sound) : Guards s s' := by
  cases h with
  | none => exact guards_stable.refl s
  | @some t slot len e e' hbest he he' ht =>
    refine Guards.trans ?_ (Guards.of_tidy (by simp) fun h =>
      ⟨h.count 1 e'.target, of_entry fun slot' => StdName.count_entry t _ _ slot'⟩)
    rcases ht with rfl | ⟨hvalid, -, hrenewed⟩
    · exact guards_stable.refl _
    · exact hrenewed.guards hu hsv hs he hvalid

end Setting

theorem guards_rule (hsv : Answering sv) : TableRule sv Guards Keeps fun o => o ≠ none where
  stable := guards_stable
  relax := Guards.keeps
  trans := fun h => h.keeps.trans
  find := fun _ _ hu _ _ _ _ hs hm => (searched hs hm).guards hu hsv hs
  invalidate := fun _ _ hu _ _ _ _ hs hm => (invalidated hs hm).guards hu hs
  cache := fun _ _ _ _ _ _ _ hs hm => (cached hs hm).guards
  enter := fun _ _ _ _ _ _ _ hs hobj hm => (user_entered hs hm).keeps hobj
  found := fun n path => yields_fully_definite hsv n path _ _

end MachUS.Naming
