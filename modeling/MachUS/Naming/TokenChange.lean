import MachUS.Naming.PrefixSearch
import MachUS.Naming.TableRuns
import Mathlib.Data.List.TakeWhile

namespace MachUS.Naming

open Program StdName Option

variable {W : Type} {sv : Servers W} {s s' t : StdName W}

def KeepsSole (s s' : StdName W) : Prop := Sole s → Sole s'

theorem KeepsSole.trans (h : KeepsSole s t) (h' : KeepsSole t s') : KeepsSole s s' :=
  fun hs => h' (h hs)

theorem keepsSole_stable : Stable (KeepsSole (W := W)) where
  refl := fun _ => id
  trans := KeepsSole.trans
  quiet := by
    intro s s' htable hnull hlast _ _ hs
    have hentry (slot : Slot) : s'.entry slot = s.entry slot := by
      cases slot with
      | null => exact hnull
      | index i => rw [entry, entry, htable]
    refine hs.congr ⟨?_, ?_⟩ hentry
    · rw [htable]
      exact hs.sound.size
    · rw [hlast]
      exact hs.sound.last

theorem Flushed.keepsSole (h : Flushed s s') : KeepsSole s s' := by
  intro hs
  induction h with
  | refl => exact hs
  | step _ _ he _ ih => exact ih.retire he rfl rfl

theorem Cached.keepsSole {pfxpath canonpath : List UInt8} {pfxobj : Option Obj} {objtype : ℕ}
    {r : Except NsError Unit} (h : Cached s pfxpath pfxobj objtype canonpath r s') :
    KeepsSole s s' := by
  intro hs
  cases h with
  | overflow hget => exact hget.keepsSole hs
  | @stored t slot e hget he =>
    have hentry (slot' : Slot) :
        (((t.notes (cachingNotes e pfxobj)).count (-1) e.target).count 1 pfxobj).entry slot' =
          t.entry slot' := by
      rw [count_entry, count_entry, notes_entry]
    have hnoted := (hget.keepsSole hs).notes (cachingNotes e pfxobj)
    exact hget.sole_store hs he hentry ((hnoted.count (-1) e.target).count 1 pfxobj).sound rfl

theorem UserEntered.keepsSole {pfxpath : List UInt8} {pfxobj : Option Obj} {pfxtype : ℕ}
    {canon : Path} {r : Except NsError Unit}
    (h : UserEntered s pfxpath pfxobj pfxtype canon r s') : KeepsSole s s' := by
  intro hs
  cases h with
  | overflow hget => exact (hget.keepsSole hs).count _ _
  | @stored t s' slot e hget he hflush =>
    have hsound := ((hget.keepsSole hs).count (-1) e.target).sound
    exact hflush.keepsSole (hget.sole_store hs he (fun slot' => count_entry t _ _ slot') hsound rfl)

section Setting

variable {u : SetUser W} (hu : ∀ pfxpath targetpath s r s', s.Sound →
  Returns (u pfxpath targetpath) s r s' → KeepsSole s s')
include hu

theorem Invalidated.keepsSole {path : Path} {r : Except NsError Unit}
    (h : Invalidated u s path r s') : KeepsSole s s' := by
  intro hs
  cases h with
  | missing hget => exact hget.keepsSole hs
  | left hget he htype => exact hget.keepsSole hs
  | dropped hget he htype => exact (hget.keepsSole hs).retire he rfl rfl
  | @reevaluated t s' slot e r hget he htype hset =>
    have hnote := (hget.keepsSole hs).note (.reevaluated path)
    have hretired : Sole ((t.note (.reevaluated path)).replace slot e (flushed e)) :=
      hnote.retire (by rw [note_entry, he]) rfl rfl
    exact hu _ _ _ _ _ hretired.sound hset hretired

theorem Renewed.keepsSole {slot : Slot} {e : PfxEntry} (h : Renewed sv u s slot e s')
    (he : s.entry slot = some e) (hvalid : e.type ≠ .invalid) : KeepsSole s s' := by
  intro hs
  have hentry (world : W) :
      ((s.note (.renewed e.prefixPath)).advance world).entry slot = some e := by
    rw [advance_entry, note_entry, he]
  have hadvance (world : W) := (hs.note (.renewed e.prefixPath)).advance world
  cases h with
  | @fresh world obj hauth =>
    have hcounted := ((hadvance world).count 1 obj).count (-1) e.target
    refine hcounted.rewrite (e := e) ?_ rfl fun _ => hvalid
    rw [count_entry, count_entry, hentry]
  | @system world htype e' he' =>
    obtain rfl : e' = e := by rw [he', he, getD_some]
    exact (hadvance world).retire (hentry world) rfl rfl
  | @recovered world s' htype hinv => exact hinv.keepsSole hu (hadvance world)
  | @given world t err e' htype hinv he' =>
    have ht := hinv.keepsSole hu (hadvance world)
    cases hslot : t.entry slot with
    | none =>
      obtain rfl : e' = .blank e.prefixPath := by rw [he', hslot, getD_none]
      exact (ht.count _ _).store (entry_valid hs.sound he) (hs.path slot e he)
        fun hne => absurd rfl hne
    | some e'' =>
      obtain rfl : e' = e'' := by rw [he', hslot, getD_some]
      exact ht.retire hslot rfl rfl

theorem Searched.keepsSole {path : Path} {f : FoundPrefix} (h : Searched sv u s path f s') :
    KeepsSole s s' := by
  intro hs
  cases h with
  | none => exact hs
  | @some t slot len e e' hbest he he' ht =>
    refine Sole.count ?_ 1 e'.target
    rcases ht with rfl | ⟨hvalid, -, hrenewed⟩
    · exact hs
    · exact hrenewed.keepsSole hu he hvalid hs

end Setting

theorem keepsSole_rule : TableRule sv KeepsSole KeepsSole fun _ => True where
  stable := keepsSole_stable
  relax := id
  trans := KeepsSole.trans
  find := fun _ _ hu _ _ _ _ hs hm => (searched hs hm).keepsSole hu
  invalidate := fun _ _ hu _ _ _ _ hs hm => (invalidated hs hm).keepsSole hu
  cache := fun _ _ _ _ _ _ _ hs hm => (cached hs hm).keepsSole
  enter := fun _ _ _ _ _ _ _ hs _ hm => (user_entered hs hm).keepsSole
  found := fun _ _ _ _ _ _ _ _ => trivial

theorem Sole.onePerPrefix (h : Sole s) : s.OnePerPrefix := by
  intro i j e e' _ _ he he' hvalid hvalid' hpath
  have hslot := h.unique (.index i) (.index j) e e' he he' hvalid ⟨hvalid', hpath.symm⟩
  exact (Slot.index.inj hslot).symm

theorem StdName.store_identityVersion (s : StdName W) (e : PfxEntry) (slot : Slot) :
    (s.store e slot).identityVersion = s.identityVersion := by
  cases slot <;> rfl

theorem Flushed.identityVersion (h : Flushed s s') : s'.identityVersion = s.identityVersion := by
  induction h with
  | refl => rfl
  | @step t i e _ _ _ _ ih =>
    rw [← ih, replace, store_identityVersion, count_identityVersion]

theorem Flushed.entry_kept (h : Flushed s s') {slot : Slot} {e : PfxEntry}
    (he : s.entry slot = some e) (hkept : e.type ≠ .cache) : s'.entry slot = some e := by
  induction h with
  | refl => exact he
  | @step t j e' _ hj hentry hcache ih =>
    have hne : slot ≠ .index j := by
      rintro rfl
      cases ih.symm.trans hentry
      exact hkept hcache
    rw [replace, store_entry_ne _ hne, count_entry, ih]

def GivesSlot (t : StdName W) (path : Path) (i : ℕ) : Prop :=
  scanTable t.pfxTable path (scanOrder t.lastIndex) none = .found i ∨
    scanTable t.pfxTable path (scanOrder t.lastIndex) none = .missing (some i)

section Token

variable (sv : Servers W) (n : ℕ) (s : StdName W) (i : ℕ) (e : PfxEntry)

def Resolves (g : Found) (t : StdName W) : Prop :=
  ∃ o err w, e.target = some o ∧
    Returns (authenticateTarget sv o) (s.note (.renewed e.prefixPath)) (.error err) w ∧
    Returns (nsResolveFully sv (callees sv n) e.canonPath nsfFollowAll nsrLookup)
      ((w.note (.reevaluated e.prefixPath)).replace (.index i) e (flushed e)) (.ok g) t

inductive Evaluated : Option Obj → Prop where
  | authenticated {o : Obj} {obj : Option Obj} {w : StdName W} (ho : e.target = some o)
    (hauth : Returns (authenticateTarget sv o) (s.note (.renewed e.prefixPath)) (.ok obj) w) :
    Evaluated obj
  | entered {g : Found} {t s' : StdName W} {canon : Path} (hresolves : Resolves sv n s i e g t)
    (hcanon : g.canon.string 0 = .ok canon)
    (henter : Returns (enterUserPrefix e.prefixPath g.obj g.type canon) t (.ok ()) s') :
    Evaluated g.obj

end Token

structure AnswersFrom (f : FoundPrefix) (s' : StdName W) (i : ℕ) (path : Path) (obj : Option Obj) :
    Prop where
  error : f.error = none
  target : f.obj = obj
  entry : ∃ e, s'.entry (.index i) = some e ∧ Serves path e ∧
    e.idStamp = s'.identityVersion ∧ f = .of e path.length

section Entering

variable {path : Path} (hpath : path ≠ [])

include hpath

theorem returns_getPrefixEntry {r : Option Slot} (h : Returns (nsGetPrefixEntry path true) t r s') :
    (∃ j, GivesSlot t path j ∧ r = some (.index j)) ∨ r = none ∧ ∀ j, ¬GivesSlot t path j := by
  simp only [nsGetPrefixEntry, if_neg hpath, returns_bind, returns_get] at h
  obtain ⟨_, _, ⟨rfl, rfl⟩, h⟩ := h
  split at h
  · next j hscan =>
    obtain ⟨rfl, -⟩ := returns_pure.mp h
    exact .inl ⟨j, .inl hscan, rfl⟩
  · next newindex hscan =>
    cases newindex with
    | none =>
      obtain ⟨rfl, -⟩ := returns_pure.mp h
      refine .inr ⟨rfl, fun j hj => ?_⟩
      rcases hj with hj | hj
      · cases hscan.symm.trans hj
      · cases hscan.symm.trans hj
    | some j =>
      simp only [returns_bind, returns_pure] at h
      obtain ⟨_, _, -, _, _, -, _, _, -, _, _, -, rfl, -⟩ := h
      exact .inl ⟨j, .inr hscan, rfl⟩

variable (hplain : cString path = path) {obj : Option Obj} {type : ℕ} {canon : Path}

include hplain

theorem entered_prefix (ht : Sole t)
    (h : Returns (enterUserPrefix path obj type canon) t (.ok ()) s') :
    ∃ j, GivesSlot t path j ∧ ∃ e, s'.entry (.index j) = some e ∧ Serves path e ∧
      e.target = obj ∧ e.idStamp = s'.identityVersion := by
  simp only [enterUserPrefix, hplain, returns_bind] at h
  obtain ⟨slot, t₁, hget, h⟩ := h
  have hentered := entered ht.sound hget
  rcases returns_getPrefixEntry hpath hget with ⟨j, hgives, rfl⟩ | ⟨rfl, -⟩
  · obtain ⟨hslot, e, he⟩ := hentered.entry ht.sound rfl
    have hsame := (hentered.sole ht he).1
    simp only [returns_bind, returns_entryAt, dereference, returns_modify, returns_get, storeEntry,
      returns_pure, he, getD_some] at h
    obtain ⟨e', t₂, ⟨he', rfl⟩, _, _, rfl, _, _, ⟨rfl, rfl⟩, _, _, rfl, _, _, hflush, -, rfl⟩ := h
    rw [he'] at hflush
    have hflush := flushed_all hflush
    have hsound := (hentered.sound ht.sound).count (-1) e.target
    have hstored := store_entry hsound
      { e with
        type := .user
        target := obj
        targetType := type
        canonPath := canon
        idStamp := (t₂.count (-1) e.target).identityVersion } hslot
    refine ⟨j, hgives, _, hflush.entry_kept hstored (by simp), ⟨by simp, hsame⟩, rfl, ?_⟩
    rw [hflush.identityVersion, store_identityVersion]
  · simp only [returns_bind, returns_pure] at h
    obtain ⟨_, _, -, herr, -⟩ := h
    cases herr

theorem no_slot_of_refused {err : NsError}
    (h : Returns (enterUserPrefix path obj type canon) t (.error err) s') (j : ℕ) :
    ¬GivesSlot t path j := by
  simp only [enterUserPrefix, hplain, returns_bind] at h
  obtain ⟨slot, t₁, hget, h⟩ := h
  rcases returns_getPrefixEntry hpath hget with ⟨j, hgives, rfl⟩ | ⟨rfl, hnone⟩
  · simp only [returns_bind, returns_pure] at h
    obtain ⟨_, _, -, _, _, -, _, _, -, _, _, -, _, _, -, herr, -⟩ := h
    cases herr
  · exact hnone j

end Entering

section Renewal

variable {u : SetUser W} {i : ℕ} {e : PfxEntry} {o : Obj}

theorem invalidated_user {path : Path} {r : Except NsError Unit} (hs : Sole s)
    (he : s.entry (.index i) = some e) (hserves : Serves path e) (huser : e.type = .user)
    (h : Returns (nsInvalidatePrefix u path) s r s') :
    Returns (u path e.canonPath)
      ((s.note (.reevaluated path)).replace (.index i) e (flushed e)) r s' := by
  have hsole {t : StdName W} {slot : Slot} {e' : PfxEntry}
      (hget : Entered s path false (some slot) t) (he' : t.entry slot = some e') :
      t = s ∧ slot = .index i ∧ e' = e := by
    have hkept : t = s := by
      cases hget with
      | null hpath => rfl
      | found => rfl
      | newNull hpath => exact absurd ((hs.path _ _ he).mp (hserves.2.trans hpath)) (by simp)
      | evicted _ hcreate => cases hcreate
    subst hkept
    obtain rfl := (hget.sole hs he').2 (.index i) e he hserves
    exact ⟨rfl, rfl, some.inj (he'.symm.trans he)⟩
  have hother {t : StdName W} {slot : Slot} {e' : PfxEntry}
      (hget : Entered s path false (some slot) t) (he' : t.entry slot = some e') :
      e'.type = .user := by
    rw [(hsole hget he').2.2, huser]
  cases invalidated hs.sound h with
  | missing hget =>
    cases hget with
    | missing _ hnone => exact absurd hserves (hnone i (entry_valid hs.sound he) e he)
  | left hget he' htype => rcases htype with htype | htype <;> simp [hother hget he'] at htype
  | dropped hget he' htype => simp [hother hget he'] at htype
  | reevaluated hget he' _ hset =>
    obtain ⟨rfl, rfl, rfl⟩ := hsole hget he'
    exact hset

theorem renew_cases (huser : e.type = .user)
    (h : Returns (renew sv u (.index i) e o) s () s') :
    (∃ obj w, Returns (authenticateTarget sv o) (s.note (.renewed e.prefixPath)) (.ok obj) w ∧
      s' = w.replace (.index i) e { e with target := obj, idStamp := w.identityVersion }) ∨
    ∃ err w r t, Returns (authenticateTarget sv o) (s.note (.renewed e.prefixPath)) (.error err) w ∧
      Returns (nsInvalidatePrefix u e.prefixPath) w r t ∧
      (r = .ok () → s' = t) := by
  simp only [renew, record, returns_bind, returns_modify] at h
  obtain ⟨_, _, rfl, a, w, hauth, h⟩ := h
  cases a with
  | ok obj =>
    obtain ⟨_, _, rfl, _, _, ⟨rfl, rfl⟩, rfl⟩ := h
    rw [count_identityVersion]
    exact .inl ⟨obj, w, hauth, rfl⟩
  | error err =>
    simp only [huser, reduceCtorEq, if_false, returns_bind] at h
    obtain ⟨r, t, hinv, h⟩ := h
    refine .inr ⟨err, w, r, t, hauth, hinv, ?_⟩
    rintro rfl
    exact (returns_pure.mp h).2.symm

end Renewal

theorem returns_unique {α : Type} {m : Run W α} {a b : α} (h : Returns m s a s')
    (h' : Returns m s b t) : a = b ∧ s' = t := Prod.mk.inj (Except.ok.inj (h.symm.trans h'))

section Evaluation

variable {n i : ℕ} {e : PfxEntry} {o : Obj}

theorem Resolves.unique {g g' : Found} {t t' : StdName W} (h : Resolves sv n s i e g t)
    (h' : Resolves sv n s i e g' t') : g = g' ∧ t = t' := by
  obtain ⟨o, err, w, ho, hauth, hfully⟩ := h
  obtain ⟨o', err', w', ho', hauth', hfully'⟩ := h'
  obtain rfl : o = o' := some.inj (ho.symm.trans ho')
  obtain ⟨-, rfl⟩ := returns_unique hauth hauth'
  obtain ⟨hg, ht⟩ := returns_unique hfully hfully'
  exact ⟨Except.ok.inj hg, ht⟩

theorem GivesSlot.unique {path : Path} {j k : ℕ} (h : GivesSlot t path j)
    (h' : GivesSlot t path k) : j = k := by
  rcases h with h | h <;> rcases h' with h' | h' <;> simp_all

theorem Resolves.refused {g : Found} {t w : StdName W} {obj : Option Obj}
    (h : Resolves sv n s i e g t) (ho : e.target = some o) :
    ¬Returns (authenticateTarget sv o) (s.note (.renewed e.prefixPath)) (.ok obj) w := by
  intro hauth
  obtain ⟨o', err, w', ho', hauth', -⟩ := h
  obtain rfl : o = o' := some.inj (ho.symm.trans ho')
  cases (returns_unique hauth hauth').1

theorem Evaluated.of_refused {obj : Option Obj} {err : NsError} {w : StdName W}
    (h : Evaluated sv n s i e obj) (ho : e.target = some o)
    (hauth : Returns (authenticateTarget sv o) (s.note (.renewed e.prefixPath)) (.error err) w) :
    ∃ g t s' canon, Resolves sv n s i e g t ∧ g.canon.string 0 = .ok canon ∧
      Returns (enterUserPrefix e.prefixPath g.obj g.type canon) t (.ok ()) s' ∧ obj = g.obj := by
  cases h with
  | authenticated ho' hauth' =>
    cases ho.symm.trans ho'
    cases (returns_unique hauth hauth').1
  | entered hresolves hcanon henter => exact ⟨_, _, _, _, hresolves, hcanon, henter, rfl⟩

end Evaluation

structure PrefixTable (s : StdName W) : Prop where
  sole : Sole s
  strings : ∀ slot e, s.entry slot = some e → 0 ∉ e.prefixPath
  stamps : ∀ slot e, s.entry slot = some e → e.idStamp ≤ s.identityVersion

theorem cString_of_notMem {path : Path} (h : 0 ∉ path) : cString path = path := by
  rw [cString, List.takeWhile_eq_self_iff]
  intro c hc
  simpa using ne_of_mem_of_not_mem hc h

theorem find_renews {u : SetUser W} {path : Path} {i : ℕ} {e : PfxEntry} {f : FoundPrefix}
    (hbest : s.bestOf path = (.index i, e.prefixPath.length)) (he : s.entry (.index i) = some e)
    (huser : e.type = .user) (hstale : e.idStamp ≠ s.identityVersion)
    (h : Returns (nsFindPrefix sv u path) s f s') :
    ∃ o t, e.target = some o ∧ Returns (renew sv u (.index i) e o) s () t ∧
      s' = t.count 1 ((t.entry (.index i)).getD (.blank path)).target ∧
      f = .of ((t.entry (.index i)).getD (.blank path)) e.prefixPath.length := by
  rw [bestOf] at hbest
  simp only [nsFindPrefix, returns_bind, returns_get] at h
  obtain ⟨_, _, ⟨rfl, rfl⟩, h⟩ := h
  simp only [hbest, he, returns_bind, returns_entryAt, reference, returns_modify, returns_pure] at h
  obtain ⟨_, t, hauth, e', _, ⟨he', rfl⟩, _, _, rfl, rfl, rfl⟩ := h
  simp only [reauthenticate, returns_bind, returns_get] at hauth
  obtain ⟨_, _, ⟨rfl, rfl⟩, hauth⟩ := hauth
  rw [if_neg (by simp [huser, hstale])] at hauth
  cases ho : e.target with
  | none =>
    rw [ho] at hauth
    cases (returns_lift.mp hauth).1
  | some o =>
    rw [ho] at hauth
    subst he'
    exact ⟨o, _, rfl, hauth, rfl, rfl⟩

section Change

variable {n i : ℕ} {e : PfxEntry} {f : FoundPrefix} {w : StdName W} {o : Obj}

theorem answers_of_entry {e' : PfxEntry} {path path' : Path} (h : t.entry (.index i) = some e')
    (hserves : Serves path e') (hstamp : e'.idStamp = t.identityVersion)
    (hsome : e'.target ≠ none) :
    AnswersFrom (.of ((t.entry (.index i)).getD (.blank path')) path.length)
      (t.count 1 ((t.entry (.index i)).getD (.blank path')).target) i path e'.target := by
  rw [h, getD_some]
  refine ⟨if_neg hsome, rfl, e', ?_, hserves, ?_, rfl⟩
  · rw [count_entry, h]
  · rw [count_identityVersion, hstamp]

theorem authenticated_stored (hsv : Answering sv) (hs : s.Sound) (hi : i < pfxTableSize)
    (hvalid : e.type ≠ .invalid) {obj : Option Obj}
    (hauth : Returns (authenticateTarget sv o) (s.note (.renewed e.prefixPath)) (.ok obj) w) :
    obj ≠ none ∧ ∃ e', (w.replace (.index i) e
        { e with target := obj, idStamp := w.identityVersion }).entry (.index i) = some e' ∧
      Serves e.prefixPath e' ∧ e'.target = obj ∧ e'.idStamp = w.identityVersion := by
  obtain ⟨⟨_, _, _, _, hobj⟩, world, rfl⟩ := returns_authenticateTarget hauth
  have hsound := ((hs.note (.renewed e.prefixPath)).advance world).count 1 (returned (.ok obj))
  exact ⟨hsv.authenticate _ _ _ _ obj hobj, _,
    store_entry (hsound.count (-1) e.target) _ (show (Slot.index i).Valid from hi),
    ⟨hvalid, rfl⟩, rfl, rfl⟩

theorem reevaluation_cases (hw : Sole w) (he : w.entry (.index i) = some e)
    (huser : e.type = .user) (ho : e.target = some o)
    {err : NsError}
    (hauth : Returns (authenticateTarget sv o) (s.note (.renewed e.prefixPath)) (.error err) w)
    {r : Except NsError Unit}
    (h : Returns (nsInvalidatePrefix (nsSetUserPrefix sv (callees sv n)) e.prefixPath) w r t) :
    (∀ g t, ¬Resolves sv n s i e g t) ∨
      ∃ g t' canon, Resolves sv n s i e g t' ∧ Sole t' ∧ g.canon.string 0 = .ok canon ∧
        Returns (enterUserPrefix e.prefixPath g.obj g.type canon) t' r t := by
  have hset := invalidated_user hw he ⟨by simp [huser], rfl⟩ huser h
  have hforgot : Sole ((w.note (.reevaluated e.prefixPath)).replace (.index i) e (flushed e)) :=
    (hw.note _).retire (by rw [note_entry, he]) rfl rfl
  simp only [nsSetUserPrefix, returns_bind] at hset
  obtain ⟨a, t', hfully, hset⟩ := hset
  cases a with
  | error err' =>
    refine .inl fun g t hresolves => ?_
    obtain ⟨o', err'', w', ho', hauth', hfully'⟩ := hresolves
    cases ho.symm.trans ho'
    obtain ⟨-, rfl⟩ := returns_unique hauth hauth'
    cases (returns_unique hfully hfully').1
  | ok g =>
    simp only [returns_bind, orFault, returns_lift] at hset
    obtain ⟨canon, _, ⟨hcanon, rfl⟩, henter⟩ := hset
    obtain ⟨-, hkeeps, -⟩ := holds_fully (respects_callees keepsSole_rule n).1 e.canonPath
      nsfFollowAll nsrLookup _ _ _ hforgot.sound hfully
    exact .inr ⟨g, t', canon, ⟨o, err, w, ho, hauth, hfully⟩, hkeeps hforgot, hcanon, henter⟩

theorem Evaluated.of_resolves {obj : Option Obj} {err : NsError} {g : Found} {canon : Path}
    (h : Evaluated sv n s i e obj) (ho : e.target = some o)
    (hauth : Returns (authenticateTarget sv o) (s.note (.renewed e.prefixPath)) (.error err) w)
    (hresolves : Resolves sv n s i e g t) (hcanon : g.canon.string 0 = .ok canon) :
    obj = g.obj ∧ ∃ s',
      Returns (enterUserPrefix e.prefixPath g.obj g.type canon) t (.ok ()) s' := by
  obtain ⟨g', t', s', canon', hresolves', hcanon', henter', rfl⟩ := h.of_refused ho hauth
  obtain ⟨rfl, rfl⟩ := hresolves.unique hresolves'
  cases hcanon.symm.trans hcanon'
  exact ⟨rfl, s', henter'⟩

theorem stored_usable_iff (hsv : Answering sv) {t' : StdName W} {err : NsError} {g : Found}
    {canon : Path} (hpath : e.prefixPath ≠ []) (hplain : cString e.prefixPath = e.prefixPath)
    (ht : Sole t) (ho : e.target = some o)
    (hauth : Returns (authenticateTarget sv o) (s.note (.renewed e.prefixPath)) (.error err) w)
    (hresolves : Resolves sv n s i e g t) (hcanon : g.canon.string 0 = .ok canon)
    (henter : Returns (enterUserPrefix e.prefixPath g.obj g.type canon) t (.ok ()) t')
    (path : Path) :
    (∀ obj, Evaluated sv n s i e obj →
      AnswersFrom (.of ((t'.entry (.index i)).getD (.blank path)) e.prefixPath.length)
        (t'.count 1 ((t'.entry (.index i)).getD (.blank path)).target) i e.prefixPath obj) ↔
      ∀ g t j, Resolves sv n s i e g t → GivesSlot t e.prefixPath j → j = i := by
  obtain ⟨j, hgives, e', he', hserves, htarget, hstamp⟩ := entered_prefix hpath hplain ht henter
  have hsole : Sole t' := (user_entered ht.sound henter).keepsSole ht
  constructor
  · intro hanswers g' t₁ k hresolves' hgives'
    obtain ⟨rfl, rfl⟩ := hresolves.unique hresolves'
    obtain ⟨e'', he'', hserves'', -⟩ := (hanswers g.obj (.entered hresolves hcanon henter)).entry
    rw [count_entry] at he''
    have hslot := hsole.unique _ _ e'' e' he'' he' hserves''.1 (hserves''.2.symm ▸ hserves)
    rw [← hgives.unique hgives']
    exact Slot.index.inj hslot
  · intro hslot obj hevaluated
    obtain ⟨rfl, -⟩ := hevaluated.of_resolves ho hauth hresolves hcanon
    obtain rfl := hslot g t j hresolves hgives
    obtain ⟨_, _, _, _, _, hfully⟩ := hresolves
    have hsome : e'.target ≠ none := by
      rw [htarget]
      exact yields_fully_definite hsv n _ _ _ _ _ _ hfully g rfl
    rw [← htarget]
    exact answers_of_entry he' hserves hstamp hsome

theorem user_prefix_usable_iff (hsv : Answering sv) (hs : PrefixTable s) {token : ℕ}
    {s₁ : StdName W} {path : Path} (he : s.entry (.index i) = some e) (huser : e.type = .user)
    (htoken : Returns (nsSetToken token) s () s₁) (hlong : s₁.Longest path i e)
    (hfind : Returns (nsFindPrefix sv (nsSetUserPrefix sv (callees sv n)) path) s₁ f s') :
    (∀ obj, Evaluated sv n s₁ i e obj → AnswersFrom f s' i e.prefixPath obj) ↔
      ∀ g t j, Resolves sv n s₁ i e g t → GivesSlot t e.prefixPath j → j = i := by
  have hflushed := setToken_flushed htoken
  have hsole₁ : Sole s₁ := hflushed.keepsSole
    (hs.sole.congr ⟨hs.sole.sound.size, hs.sole.sound.last⟩ fun slot => by cases slot <;> rfl)
  have hstale : e.idStamp ≠ s₁.identityVersion := by
    have hstamp := hs.stamps _ _ he
    rw [hflushed.identityVersion]
    exact Nat.ne_of_lt (Nat.lt_succ_of_le hstamp)
  have hvalid : e.type ≠ .invalid := by simp [huser]
  have he₁ := hlong.1.entry
  have hbest := hsole₁.onePerPrefix.bestOf_longest hlong
  obtain ⟨o, t, ho, hrenew, rfl, rfl⟩ := find_renews hbest he₁ huser hstale hfind
  have hpath : e.prefixPath ≠ [] := fun hnil => by simpa using (hsole₁.path _ _ he₁).mp hnil
  rcases renew_cases huser hrenew with ⟨obj, w, hauth, rfl⟩ | ⟨err, w, r, t', hauth, hinv, hr⟩
  · obtain ⟨hsome, e', he', hserves, rfl, hstamp⟩ :=
      authenticated_stored (i := i) hsv hsole₁.sound hlong.1.slot hvalid hauth
    refine ⟨fun _ g t j hresolves => absurd hauth (hresolves.refused ho),
      fun _ obj hevaluated => ?_⟩
    have hobj : obj = e'.target := by
      cases hevaluated with
      | authenticated ho' hauth' =>
        cases ho.symm.trans ho'
        exact Except.ok.inj (returns_unique hauth' hauth).1
      | entered hresolves => exact absurd hauth (hresolves.refused ho)
    subst hobj
    refine answers_of_entry he' hserves ?_ hsome
    rw [hstamp, replace, store_identityVersion, count_identityVersion]
  · obtain ⟨-, world, hw⟩ := returns_authenticateTarget hauth
    have hsolew : Sole w := hw ▸ ((hsole₁.note _).advance world).count 1 _
    have hew : w.entry (.index i) = some e := by
      rw [hw, count_entry, advance_entry, note_entry, he₁]
    have hplain := cString_of_notMem (hs.strings _ _ he)
    rcases reevaluation_cases hsolew hew huser ho hauth hinv with
      hnever | ⟨g, t₀, canon, hresolves, hsole₀, hcanon, henter⟩
    · refine ⟨fun _ g t j hresolves => absurd hresolves (hnever g t), fun _ obj hevaluated => ?_⟩
      obtain ⟨g, t, _, _, hresolves, -⟩ := hevaluated.of_refused ho hauth
      exact absurd hresolves (hnever g t)
    · cases r with
      | error err' =>
        refine ⟨fun _ g' t₁ j hresolves' hgives => ?_, fun _ obj hevaluated => ?_⟩
        · obtain ⟨rfl, rfl⟩ := hresolves.unique hresolves'
          exact absurd hgives (no_slot_of_refused hpath hplain henter j)
        · obtain ⟨-, s'', henter'⟩ := hevaluated.of_resolves ho hauth hresolves hcanon
          cases (returns_unique henter henter').1
      | ok =>
        obtain rfl := hr rfl
        exact stored_usable_iff hsv hpath hplain hsole₀ ho hauth hresolves hcanon henter path

end Change

section Runs

variable (sv : Servers W) (n i : ℕ) (e : PfxEntry)

def evaluateAgain (o : Obj) : Run W (Option (Option Obj)) := do
  record (.renewed e.prefixPath)
  match ← authenticateTarget sv o with
  | .ok _ => pure none
  | .error _ => do
    modify fun s => (s.note (.reevaluated e.prefixPath)).replace (.index i) e (flushed e)
    match ← nsResolveFully sv (callees sv n) e.canonPath nsfFollowAll nsrLookup with
    | .error _ => pure none
    | .ok g => do
      let canon ← orFault (g.canon.string 0)
      match ← enterUserPrefix e.prefixPath g.obj g.type canon with
      | .error _ => pure none
      | .ok _ => pure (some g.obj)

variable {sv n i e}

theorem evaluated_of_returns {o : Obj} {obj : Option Obj} (ho : e.target = some o)
    (h : Returns (evaluateAgain sv n i e o) s (some obj) s') : Evaluated sv n s i e obj := by
  simp only [evaluateAgain, record, returns_bind, returns_modify] at h
  obtain ⟨_, _, rfl, a, w, hauth, h⟩ := h
  cases a with
  | ok obj' => cases (returns_pure.mp h).1
  | error err =>
    simp only [returns_bind, returns_modify] at h
    obtain ⟨_, _, rfl, b, t, hfully, h⟩ := h
    cases b with
    | error err' => cases (returns_pure.mp h).1
    | ok g =>
      simp only [returns_bind, orFault, returns_lift] at h
      obtain ⟨canon, _, ⟨hcanon, rfl⟩, r, t', henter, h⟩ := h
      cases r with
      | error err' => cases (returns_pure.mp h).1
      | ok =>
        obtain rfl := some.inj (returns_pure.mp h).1
        exact .entered ⟨o, err, w, ho, hauth, hfully⟩ hcanon henter

end Runs

def twoUserPrefixes : StdName Unit :=
  { create () with
    pfxTable := List.replicate 8 none ++
      [some ⟨.user, [slash, 118], some 2, 1, [slash, 118], 0⟩,
        some ⟨.user, [slash, 117], some 1, 1, [slash, 116], 0⟩]
    lastIndex := 8
    nullPrefix := some ⟨.system, [], some 0, 1, [slash], 0⟩
    refs := fun _ => 1 }

def refusing (reply : Reply) : Servers Unit :=
  { rootedAt reply with
    authenticate := fun _ o _ token =>
      (if token = 0 ∨ o = 0 then .ok (some o) else .error .accessDenied, ()) }

def newFile : Reply := ⟨some 3, 2, .empty nsPathlen_pos, 1, 0⟩

def firstUser : PfxEntry := ⟨.user, [slash, 117], some 1, 1, [slash, 116], 0⟩

def underNewToken : StdName Unit := { twoUserPrefixes with identityVersion := 1, token := 1 }

theorem twoUserPrefixes_token : Returns (nsSetToken 1) twoUserPrefixes () underNewToken := by rfl

theorem twoUserPrefixes_entry {slot : Slot} {e : PfxEntry}
    (h : twoUserPrefixes.entry slot = some e) :
    slot = .null ∧ e = ⟨.system, [], some 0, 1, [slash], 0⟩ ∨
      slot = .index 8 ∧ e = ⟨.user, [slash, 118], some 2, 1, [slash, 118], 0⟩ ∨
      slot = .index 9 ∧ e = firstUser := by
  cases slot with
  | null => exact .inl ⟨rfl, (some.inj h).symm⟩
  | index i =>
    have hlt : i < 10 := by
      by_contra hout
      have hlen : twoUserPrefixes.pfxTable.length = 10 := rfl
      have hnone : twoUserPrefixes.pfxTable[i]? = none := List.getElem?_eq_none (by omega)
      simp [entry, hnone] at h
    interval_cases i <;> simp [twoUserPrefixes, entry] at h <;> simp [← h, firstUser]

theorem twoUserPrefixes_table : PrefixTable twoUserPrefixes where
  sole := by
    refine ⟨⟨by decide, by decide⟩, fun slot e he => ?_, fun slot slot' e e' he he' _ hserves => ?_⟩
    · rcases twoUserPrefixes_entry he with ⟨rfl, rfl⟩ | ⟨rfl, rfl⟩ | ⟨rfl, rfl⟩ <;> simp [firstUser]
    · rcases twoUserPrefixes_entry he with ⟨rfl, rfl⟩ | ⟨rfl, rfl⟩ | ⟨rfl, rfl⟩ <;>
        rcases twoUserPrefixes_entry he' with ⟨rfl, rfl⟩ | ⟨rfl, rfl⟩ | ⟨rfl, rfl⟩ <;>
        first | rfl | exact absurd hserves.2 (by decide)
  strings := by
    intro slot e he
    rcases twoUserPrefixes_entry he with ⟨-, rfl⟩ | ⟨-, rfl⟩ | ⟨-, rfl⟩ <;> decide
  stamps := by
    intro slot e he
    rcases twoUserPrefixes_entry he with ⟨-, rfl⟩ | ⟨-, rfl⟩ | ⟨-, rfl⟩ <;> decide

theorem twoUserPrefixes_longest : underNewToken.Longest [slash, 117, slash, 120] 9 firstUser := by
  refine ⟨⟨by decide, rfl, by decide, by decide, by decide⟩, fun j e' h => ?_⟩
  have hentry : twoUserPrefixes.entry (.index j) = some e' := h.entry
  rcases twoUserPrefixes_entry hentry with ⟨-, rfl⟩ | ⟨-, rfl⟩ | ⟨-, rfl⟩ <;> decide

theorem user_prefix_usable_iff_accepted : ∃ f s',
    Returns (nsFindPrefix (rootedAt plainFile) (nsSetUserPrefix (rootedAt plainFile)
      (callees (rootedAt plainFile) 1)) [slash, 117, slash, 120])
      underNewToken f s' ∧
    ((∀ obj, Evaluated (rootedAt plainFile) 1
        underNewToken 9 firstUser obj →
        AnswersFrom f s' 9 [slash, 117] obj) ↔
      ∀ g t j, Resolves (rootedAt plainFile) 1
        underNewToken 9 firstUser g t →
        GivesSlot t [slash, 117] j → j = 9) := by
  obtain ⟨f, s', hfind, -⟩ := exists_returns
    (show after (nsFindPrefix (rootedAt plainFile) (nsSetUserPrefix (rootedAt plainFile)
      (callees (rootedAt plainFile) 1)) [slash, 117, slash, 120])
      underNewToken (fun _ _ => true) = true by
      decide +kernel)
  exact ⟨f, s', hfind, user_prefix_usable_iff
    (rootedAt_answering plainFile (by simp [plainFile])) twoUserPrefixes_table rfl rfl
    twoUserPrefixes_token twoUserPrefixes_longest hfind⟩

theorem refusing_answering (reply : Reply) (h : reply.obj ≠ none) : Answering (refusing reply) where
  authenticate := by
    rintro w o access token r hr rfl
    simp only [refusing] at hr
    split_ifs at hr
    cases hr
  duplicate := (rootedAt_answering reply h).duplicate
  resolve := (rootedAt_answering reply h).resolve

theorem evaluated_user_prefix_lost :
    Answering (refusing newFile) ∧ PrefixTable twoUserPrefixes ∧
    twoUserPrefixes.entry (.index 9) = some firstUser ∧ firstUser.type = .user ∧
    ∃ s₁ f s', Returns (nsSetToken 1) twoUserPrefixes () s₁ ∧
      s₁.Longest [slash, 117, slash, 120] 9 firstUser ∧
      Returns (nsFindPrefix (refusing newFile) (nsSetUserPrefix (refusing newFile)
        (callees (refusing newFile) 1)) [slash, 117, slash, 120]) s₁ f s' ∧
      ¬∀ obj, Evaluated (refusing newFile) 1 s₁ 9 firstUser obj →
        AnswersFrom f s' 9 firstUser.prefixPath obj := by
  refine ⟨refusing_answering newFile (by simp [newFile]), twoUserPrefixes_table, rfl, rfl,
    underNewToken, ?_⟩
  obtain ⟨f, s', hfind, herror⟩ := exists_returns
    (show after (nsFindPrefix (refusing newFile) (nsSetUserPrefix (refusing newFile)
      (callees (refusing newFile) 1)) [slash, 117, slash, 120])
      underNewToken
      (fun f _ => f.error = some .invalidPrefix) = true by decide +kernel)
  obtain ⟨a, t, hagain, hobj⟩ := exists_returns
    (show after (evaluateAgain (refusing newFile) 1 9 firstUser 1)
      underNewToken
      (fun a _ => a = some (some 3)) = true by decide +kernel)
  obtain rfl := of_decide_eq_true hobj
  refine ⟨f, s', twoUserPrefixes_token, twoUserPrefixes_longest, hfind, fun hanswers => ?_⟩
  have herror' := (hanswers _ (evaluated_of_returns rfl hagain)).error
  rw [of_decide_eq_true herror] at herror'
  cases herror'

end MachUS.Naming
