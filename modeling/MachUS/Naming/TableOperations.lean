import MachUS.Naming.TableEffects

namespace MachUS.Naming

open Program StdName

variable {W : Type}

namespace StdName

def note (s : StdName W) (h : Happening) : StdName W := { s with log := s.log ++ [h] }

def notes (s : StdName W) (hs : List Happening) : StdName W := { s with log := s.log ++ hs }

def replace (s : StdName W) (slot : Slot) (e e' : PfxEntry) : StdName W :=
  (s.count (-1) e.target).store e' slot

def advance (s : StdName W) (world : W) : StdName W := { s with world := world }

theorem advance_identityVersion (s : StdName W) (world : W) :
    (s.advance world).identityVersion = s.identityVersion := rfl

end StdName

def returned : Except NsError (Option Obj) → Option Obj
  | .ok o => o
  | .error _ => none

variable {s s' : StdName W} {sv : Servers W}

theorem returns_authenticate {o : Obj} {access : UInt32}
    {r : Except NsError (Option Obj)} (h : Returns (authenticate sv o access) s r s') :
    r = (sv.authenticate s.world o access s.token).1 ∧ ∃ world,
      s' = (s.advance world).count 1 (returned r) := by
  simp only [authenticate, returns_bind, returns_get, returns_set] at h
  obtain ⟨_, _, ⟨rfl, rfl⟩, _, _, rfl, h⟩ := h
  split at h
  · next e he =>
    obtain ⟨rfl, rfl⟩ := returns_pure.mp h
    exact ⟨he.symm, _, rfl⟩
  · next o he =>
    obtain ⟨_, _, rfl, rfl, rfl⟩ := h
    exact ⟨he.symm, _, rfl⟩

variable {path : Path}

theorem returns_entryAt {slot : Slot} {e : PfxEntry} :
    Returns (entryAt slot path) s e s' ↔ e = (s.entry slot).getD (.blank path) ∧ s' = s := by
  simp only [entryAt, returns_bind, returns_get, returns_pure]
  constructor
  · rintro ⟨_, _, ⟨rfl, rfl⟩, rfl, rfl⟩
    exact ⟨rfl, rfl⟩
  · rintro ⟨rfl, rfl⟩
    exact ⟨_, _, ⟨rfl, rfl⟩, rfl, rfl⟩

inductive Flushed (s : StdName W) : StdName W → Prop where
  | refl : Flushed s s
  | step {t : StdName W} {i : ℕ} {e : PfxEntry} (h : Flushed s t) (hi : i < pfxTableSize)
    (he : t.entry (.index i) = some e) (hcache : e.type = .cache) :
    Flushed s (t.replace (.index i) e (flushed e))

theorem flushed_from {s t t' : StdName W} {is : List ℕ} {u : Unit} (hs : Flushed s t)
    (his : ∀ i ∈ is, i < pfxTableSize) (h : Returns (flushFrom is) t u t') : Flushed s t' := by
  induction is generalizing t with
  | nil =>
    obtain ⟨-, rfl⟩ := returns_pure.mp h
    exact hs
  | cons i is ih =>
    simp only [flushFrom, returns_bind] at h
    obtain ⟨_, t₁, hentry, hrest⟩ := h
    refine ih ?_ (fun j hj => his j (List.mem_cons_of_mem _ hj)) hrest
    simp only [flushEntry, returns_bind, returns_get] at hentry
    obtain ⟨_, _, ⟨rfl, rfl⟩, hentry⟩ := hentry
    split at hentry
    · obtain ⟨-, rfl⟩ := returns_pure.mp hentry
      exact hs
    · next e he =>
      split at hentry
      · next hcache =>
        obtain ⟨_, _, rfl, rfl⟩ := hentry
        exact .step hs (his i List.mem_cons_self) he hcache
      · obtain ⟨-, rfl⟩ := returns_pure.mp hentry
        exact hs

theorem flushed_all {u : Unit} (h : Returns nsFlushCachePrefixes s u s') :
    Flushed s s' := flushed_from .refl (fun _ hi => List.mem_range.mp hi) h

theorem returns_checkLength {u : Unit} :
    Returns (checkLength path) s u s' ↔ path.length < nsPathlen ∧ s = s' := by
  simp only [checkLength, orFault, returns_lift]
  split_ifs with h <;> simp [h]

inductive Cached (s : StdName W) (pfxpath : List UInt8) (pfxobj : Option Obj) (objtype : ℕ)
    (canonpath : List UInt8) : Except NsError Unit → StdName W → Prop where
  | overflow {s' : StdName W} (hget : Entered s (cString pfxpath) true none s') :
    Cached s pfxpath pfxobj objtype canonpath (.error .prefixOverflow) s'
  | stored {t : StdName W} {slot : Slot} {e : PfxEntry}
    (hget : Entered s (cString pfxpath) true (some slot) t) (he : t.entry slot = some e) :
    Cached s pfxpath pfxobj objtype canonpath (.ok ())
      (((t.notes (cachingNotes e pfxobj)).count (-1) e.target).count 1 pfxobj |>.store
        { e with
          type := .cache
          canonPath := cString canonpath
          target := pfxobj
          targetType := objtype
          idStamp := t.identityVersion } slot)

variable {r : Except NsError Unit} {pfxpath : List UInt8}

theorem cached {pfxobj : Option Obj} {objtype : ℕ} {canonpath : List UInt8} (hs : s.Sound)
    (h : Returns (nsSetCachePrefix pfxpath pfxobj objtype canonpath) s r s') :
    Cached s pfxpath pfxobj objtype canonpath r s' := by
  simp only [nsSetCachePrefix, returns_bind] at h
  obtain ⟨slot, t, hget, h⟩ := h
  have hget := entered hs hget
  cases slot with
  | none =>
    obtain ⟨rfl, rfl⟩ := returns_pure.mp h
    exact .overflow hget
  | some slot =>
    obtain ⟨-, e, he⟩ := hget.entry hs rfl
    simp only [returns_bind, returns_entryAt, dereference, reference,
      storeEntry, returns_modify, returns_checkLength, returns_get, returns_pure, he,
      Option.getD_some] at h
    obtain ⟨_, _, ⟨rfl, rfl⟩, _, _, rfl, _, _, rfl, _, _, ⟨-, rfl⟩, _, _, rfl, _, _, ⟨rfl, rfl⟩, _, _,
      rfl, rfl, rfl⟩ := h
    simp only [count_identityVersion]
    exact .stored hget he

inductive SystemSet (sv : Servers W) (s : StdName W) (pfxpath : List UInt8) (pfxobj : Obj)
    (objtype : ℕ) (canonpath : List UInt8) : Except NsError Unit → StdName W → Prop where
  | overflow {s' : StdName W} (hget : Entered s (cString pfxpath) true none s') :
    SystemSet sv s pfxpath pfxobj objtype canonpath (.error .prefixOverflow) s'
  | rejected {t : StdName W} {slot : Slot} {e : PfxEntry} {err : NsError} {world : W}
    (hget : Entered s (cString pfxpath) true (some slot) t) (he : t.entry slot = some e)
    (hauth : (sv.authenticate t.world pfxobj nsrLookup t.token).1 = .error err) :
    SystemSet sv s pfxpath pfxobj objtype canonpath (.error err)
      ((t.count (-1) e.target).advance world |>.store
        (flushed { e with canonPath := cString canonpath }) slot)
  | stored {t t' : StdName W} {slot : Slot} {e : PfxEntry} {obj : Option Obj} {world : W}
    (hget : Entered s (cString pfxpath) true (some slot) t) (he : t.entry slot = some e)
    (hauth : (sv.authenticate t.world pfxobj nsrLookup t.token).1 = .ok obj)
    (hflush : Flushed
      (((t.count (-1) e.target).advance world).count 1 obj |>.store
        { e with
          type := .system
          canonPath := cString canonpath
          target := obj
          targetType := objtype
          idStamp := t.identityVersion } slot) t') :
    SystemSet sv s pfxpath pfxobj objtype canonpath (.ok ()) t'

theorem StdName.count_world (s : StdName W) (n : ℤ) (o : Option Obj) :
    (s.count n o).world = s.world := by
  cases o <;> rfl

theorem StdName.count_token (s : StdName W) (n : ℤ) (o : Option Obj) :
    (s.count n o).token = s.token := by
  cases o <;> rfl

theorem system_set {pfxobj : Obj} {objtype : ℕ} {canonpath : List UInt8} (hs : s.Sound)
    (h : Returns (nsSetSystemPrefix sv pfxpath pfxobj objtype canonpath) s r s') :
    SystemSet sv s pfxpath pfxobj objtype canonpath r s' := by
  simp only [nsSetSystemPrefix, returns_bind] at h
  obtain ⟨slot, t, hget, h⟩ := h
  have hget := entered hs hget
  cases slot with
  | none =>
    obtain ⟨rfl, rfl⟩ := returns_pure.mp h
    exact .overflow hget
  | some slot =>
    obtain ⟨-, e, he⟩ := hget.entry hs rfl
    simp only [returns_bind, returns_entryAt, dereference, returns_modify, returns_checkLength, he,
      Option.getD_some] at h
    obtain ⟨_, _, ⟨rfl, rfl⟩, _, _, rfl, _, _, ⟨-, rfl⟩, a, t', hauth, h⟩ := h
    obtain ⟨ha, world, rfl⟩ := returns_authenticate hauth
    rw [count_world, count_token] at ha
    cases a with
    | error err =>
      obtain ⟨_, _, rfl, rfl, rfl⟩ := h
      exact .rejected hget he ha.symm
    | ok obj =>
      simp only [storeEntry, returns_bind, returns_get, returns_modify, returns_pure] at h
      obtain ⟨_, _, ⟨rfl, rfl⟩, _, _, rfl, _, _, hflush, rfl, rfl⟩ := h
      have hflush := flushed_all hflush
      simp only [count_identityVersion, advance_identityVersion] at hflush
      exact .stored hget he ha.symm hflush

inductive UserEntered (s : StdName W) (pfxpath : List UInt8) (pfxobj : Option Obj)
    (pfxtype : ℕ) (canon : Path) : Except NsError Unit → StdName W → Prop where
  | overflow {t : StdName W} (hget : Entered s (cString pfxpath) true none t) :
    UserEntered s pfxpath pfxobj pfxtype canon (.error .prefixOverflow) (t.count (-1) pfxobj)
  | stored {t t' : StdName W} {slot : Slot} {e : PfxEntry}
    (hget : Entered s (cString pfxpath) true (some slot) t) (he : t.entry slot = some e)
    (hflush : Flushed
      (t.replace slot e
        { e with
          type := .user
          target := pfxobj
          targetType := pfxtype
          canonPath := canon
          idStamp := t.identityVersion }) t') :
    UserEntered s pfxpath pfxobj pfxtype canon (.ok ()) t'

theorem user_entered {pfxobj : Option Obj} {pfxtype : ℕ} {canon : Path} (hs : s.Sound)
    (h : Returns (enterUserPrefix pfxpath pfxobj pfxtype canon) s r s') :
    UserEntered s pfxpath pfxobj pfxtype canon r s' := by
  simp only [enterUserPrefix, returns_bind] at h
  obtain ⟨slot, t, hget, h⟩ := h
  have hget := entered hs hget
  cases slot with
  | none =>
    obtain ⟨_, _, rfl, rfl, rfl⟩ := h
    exact .overflow hget
  | some slot =>
    obtain ⟨-, e, he⟩ := hget.entry hs rfl
    simp only [returns_bind, returns_entryAt, dereference, returns_modify, returns_get, storeEntry,
      returns_pure, he, Option.getD_some] at h
    obtain ⟨_, _, ⟨rfl, rfl⟩, _, _, rfl, _, _, ⟨rfl, rfl⟩, _, _, rfl, _, _, hflush, rfl, rfl⟩ := h
    have hflush := flushed_all hflush
    rw [count_identityVersion] at hflush
    exact .stored hget he hflush

abbrev SetUser (W : Type) := List UInt8 → List UInt8 → Run W (Except NsError Unit)

inductive Invalidated (u : SetUser W) (s : StdName W) (path : Path) :
    Except NsError Unit → StdName W → Prop where
  | missing {s' : StdName W} (hget : Entered s path false none s') :
    Invalidated u s path (.ok ()) s'
  | left {t : StdName W} {slot : Slot} {e : PfxEntry}
    (hget : Entered s path false (some slot) t) (he : t.entry slot = some e)
    (htype : e.type = .system ∨ e.type = .invalid) : Invalidated u s path (.ok ()) t
  | dropped {t : StdName W} {slot : Slot} {e : PfxEntry}
    (hget : Entered s path false (some slot) t) (he : t.entry slot = some e)
    (htype : e.type = .cache) :
    Invalidated u s path (.ok ()) (t.replace slot e (flushed e))
  | reevaluated {t s' : StdName W} {slot : Slot} {e : PfxEntry} {r : Except NsError Unit}
    (hget : Entered s path false (some slot) t) (he : t.entry slot = some e)
    (htype : e.type = .user)
    (hset : Returns (u path e.canonPath)
      ((t.note (.reevaluated path)).replace slot e (flushed e)) r s') :
    Invalidated u s path r s'

variable {u : SetUser W}

theorem invalidated (hs : s.Sound) (h : Returns (nsInvalidatePrefix u path) s r s') :
    Invalidated u s path r s' := by
  simp only [nsInvalidatePrefix, returns_bind, returns_checkLength] at h
  obtain ⟨_, _, ⟨-, rfl⟩, slot, t, hget, h⟩ := h
  have hget := entered hs hget
  cases slot with
  | none =>
    obtain ⟨rfl, rfl⟩ := returns_pure.mp h
    exact .missing hget
  | some slot =>
    obtain ⟨-, e, he⟩ := hget.entry hs rfl
    simp only [returns_bind, returns_entryAt, he, Option.getD_some] at h
    obtain ⟨_, _, ⟨rfl, rfl⟩, h⟩ := h
    split at h
    · next htype =>
      obtain ⟨rfl, rfl⟩ := returns_pure.mp h
      exact .left hget he (Or.inl htype)
    · next htype =>
      obtain ⟨rfl, rfl⟩ := returns_pure.mp h
      exact .left hget he (Or.inr htype)
    · next htype =>
      obtain ⟨_, _, rfl, _, _, rfl, rfl, rfl⟩ := h
      exact .dropped hget he htype
    · next htype =>
      simp only [record, dereference, storeEntry, returns_bind, returns_modify] at h
      obtain ⟨_, _, rfl, _, _, rfl, _, _, rfl, h⟩ := h
      exact .reevaluated hget he htype h

def Authenticated (sv : Servers W) (r : Except NsError (Option Obj)) : Prop :=
  ∃ w o access token, (sv.authenticate w o access token).1 = r

theorem returns_authenticateTarget {o : Obj}
    {r : Except NsError (Option Obj)} (h : Returns (authenticateTarget sv o) s r s') :
    Authenticated sv r ∧ ∃ world, s' = (s.advance world).count 1 (returned r) := by
  simp only [authenticateTarget, returns_bind] at h
  obtain ⟨a, t, hauth, h⟩ := h
  obtain ⟨ha, world, rfl⟩ := returns_authenticate hauth
  split at h
  · obtain ⟨hr, world', rfl⟩ := returns_authenticate h
    exact ⟨⟨_, _, _, _, hr.symm⟩, world', rfl⟩
  · obtain ⟨rfl, rfl⟩ := returns_pure.mp h
    exact ⟨⟨_, _, _, _, ha.symm⟩, world, rfl⟩

def voided (e : PfxEntry) : PfxEntry := { e with type := .invalid, target := none }

inductive Renewed (sv : Servers W) (u : SetUser W) (s : StdName W) (slot : Slot) (e : PfxEntry) :
    StdName W → Prop where
  | fresh {world : W} {obj : Option Obj} (hauth : Authenticated sv (.ok obj)) :
    Renewed sv u s slot e
      ((((s.note (.renewed e.prefixPath)).advance world).count 1 obj).replace slot e
        { e with target := obj, idStamp := s.identityVersion })
  | system {world : W} (htype : e.type = .system) {e' : PfxEntry}
    (he' : e' = (s.entry slot).getD (.blank e.prefixPath)) :
    Renewed sv u s slot e
      (((s.note (.renewed e.prefixPath)).advance world).replace slot e' (voided e'))
  | recovered {world : W} {s' : StdName W} (htype : e.type ≠ .system)
    (hinv : Invalidated u ((s.note (.renewed e.prefixPath)).advance world) e.prefixPath (.ok ()) s') :
    Renewed sv u s slot e s'
  | given {world : W} {t : StdName W} {err : NsError} {e' : PfxEntry} (htype : e.type ≠ .system)
    (hinv : Invalidated u ((s.note (.renewed e.prefixPath)).advance world) e.prefixPath
      (.error err) t) (he' : e' = (t.entry slot).getD (.blank e.prefixPath)) :
    Renewed sv u s slot e (t.replace slot e' (voided e'))

theorem renewed {slot : Slot} {e : PfxEntry}
    {o : Obj} {x : Unit} (hs : s.Sound) (h : Returns (renew sv u slot e o) s x s') :
    Renewed sv u s slot e s' := by
  simp only [renew, record, returns_bind, returns_modify] at h
  obtain ⟨_, _, rfl, a, t, hauth, h⟩ := h
  obtain ⟨ha, world, rfl⟩ := returns_authenticateTarget hauth
  cases a with
  | ok obj =>
    obtain ⟨_, _, rfl, _, _, ⟨rfl, rfl⟩, rfl⟩ := h
    simp only [count_identityVersion, advance_identityVersion]
    exact .fresh ha
  | error err =>
    have hsound : ((s.note (.renewed e.prefixPath)).advance world).Sound := ⟨hs.size, hs.last⟩
    simp only [returns_bind] at h
    obtain ⟨b, t, hinv, h⟩ := h
    split_ifs at hinv with htype
    · obtain ⟨rfl, rfl⟩ := returns_pure.mp hinv
      simp only [dereference, storeEntry, returns_bind, returns_modify, returns_entryAt] at h
      obtain ⟨e', _, ⟨he', rfl⟩, _, _, rfl, rfl⟩ := h
      exact .system htype he'
    · have hinv := invalidated hsound hinv
      cases b with
      | ok x =>
        obtain ⟨-, rfl⟩ := returns_pure.mp h
        exact .recovered htype hinv
      | error err =>
        simp only [dereference, storeEntry, returns_bind, returns_modify, returns_entryAt] at h
        obtain ⟨e', _, ⟨he', rfl⟩, _, _, rfl, rfl⟩ := h
        exact .given htype hinv he'

inductive Searched (sv : Servers W) (u : SetUser W) (s : StdName W) (path : Path) :
    FoundPrefix → StdName W → Prop where
  | none : Searched sv u s path ⟨some .invalidPrefix, none, nstInvalid, 0, []⟩ s
  | some {t : StdName W} {slot : Slot} {len : ℕ} {e e' : PfxEntry}
    (hbest : bestSlot path ((List.range pfxTableSize).zip s.pfxTable) (.null, 0) = (slot, len))
    (he : s.entry slot = some e) (he' : e' = (t.entry slot).getD (.blank path))
    (ht : t = s ∨ e.type ≠ .invalid ∧ e.idStamp ≠ s.identityVersion ∧ Renewed sv u s slot e t) :
    Searched sv u s path
      ⟨if e'.target = none then some .invalidPrefix else none, e'.target, e'.targetType, len,
        e'.canonPath⟩ (t.count 1 e'.target)

theorem searched {f : FoundPrefix} (hs : s.Sound) (h : Returns (nsFindPrefix sv u path) s f s') :
    Searched sv u s path f s' := by
  simp only [nsFindPrefix, returns_bind, returns_get] at h
  obtain ⟨_, _, ⟨rfl, rfl⟩, h⟩ := h
  split at h
  · obtain ⟨rfl, rfl⟩ := returns_pure.mp h
    exact .none
  · next e he =>
    simp only [returns_bind, returns_entryAt, reference, returns_modify, returns_pure] at h
    obtain ⟨_, t, hauth, e', _, ⟨he', rfl⟩, _, _, rfl, rfl, rfl⟩ := h
    refine .some (Prod.eta _) he he' ?_
    simp only [reauthenticate, returns_bind, returns_get] at hauth
    obtain ⟨_, _, ⟨rfl, rfl⟩, hauth⟩ := hauth
    split_ifs at hauth with hold
    · obtain ⟨-, rfl⟩ := returns_pure.mp hauth
      exact Or.inl rfl
    · rw [not_or] at hold
      split at hauth
      · cases (returns_lift.mp hauth).1
      · exact Or.inr ⟨hold.1, hold.2, renewed hs hauth⟩

end MachUS.Naming

namespace MachUS.Naming

open Program List

variable {W : Type} {s s' : StdName W}

structure Settled (s s' : StdName W) (x : Obj → ℤ) : Prop where
  sound : s'.Sound
  ledger : s'.ledger = s.ledger + x

namespace StdName

theorem Sound.note (h : s.Sound) (x : Happening) : (s.note x).Sound := ⟨h.size, h.last⟩

theorem Sound.advance (h : s.Sound) (world : W) : (s.advance world).Sound := ⟨h.size, h.last⟩

theorem Sound.replace (h : s.Sound) (slot : Slot) (e e' : PfxEntry) : (s.replace slot e e').Sound :=
  (h.count _ _).store _ _

theorem note_ledger (x : Happening) (hx : x.loss = 0) : (s.note x).ledger = s.ledger := by
  simp [ledger, note, tableRefs, lost, hx]

theorem advance_ledger (world : W) : (s.advance world).ledger = s.ledger := rfl

theorem replace_ledger (hs : s.Sound) {slot : Slot} (hslot : slot.Valid) {e : PfxEntry}
    (he : (s.entry slot).bind PfxEntry.target = e.target) (e' : PfxEntry) :
    (s.replace slot e e').ledger + held e'.target = s.ledger := by
  have hstore := store_ledger (hs.count (-1) e.target) e' hslot
  rw [count_ledger, count_entry, he, neg_one_zsmul, neg_add_cancel_right] at hstore
  exact hstore

end StdName

variable {e : PfxEntry} {slot : Slot}

theorem bind_target (he : s.entry slot = some e) :
    (s.entry slot).bind PfxEntry.target = e.target := by
  rw [he]
  rfl

variable {path : Path}

theorem bind_target_getD (he : e = (s.entry slot).getD (.blank path)) :
    (s.entry slot).bind PfxEntry.target = e.target := by
  cases hslot : s.entry slot <;> simp [he, hslot, PfxEntry.blank]

theorem Entered.settled {okcreate : Bool} {r : Option Slot}
    (h : Entered s path okcreate r s') (hs : s.Sound) : Settled s s' 0 :=
  ⟨h.sound hs, by rw [h.ledger hs, add_zero]⟩

theorem Flushed.settled (h : Flushed s s') (hs : s.Sound) : Settled s s' 0 := by
  induction h with
  | refl => exact ⟨hs, (add_zero _).symm⟩
  | @step t i e h hi he hcache ih =>
    refine ⟨ih.sound.replace _ _ _, ?_⟩
    have hrep := StdName.replace_ledger ih.sound (show (Slot.index i).Valid from hi)
      (bind_target he) (flushed e)
    exact (add_zero _).symm.trans (hrep.trans ih.ledger)

theorem cachingNotes_loss (e : PfxEntry) (pfxobj : Option Obj) :
    ∀ x ∈ cachingNotes e pfxobj, x.loss = 0 := by
  intro x hx
  simp only [cachingNotes, mem_append] at hx
  rcases hx with hx | hx
  · split_ifs at hx
    · cases hx
    · rw [mem_singleton.mp hx]
      rfl
  · split_ifs at hx
    · rw [mem_singleton.mp hx]
      rfl
    · cases hx

theorem StdName.notes_ledger {l : List Happening} (hl : ∀ x ∈ l, x.loss = 0) :
    (s.notes l).ledger = s.ledger := by
  have hsum : (l.map Happening.loss).sum = 0 := sum_eq_zero (by simpa using hl)
  simp [ledger, notes, tableRefs, lost, hsum]

theorem StdName.notes_entry (s : StdName W) (l : List Happening) (slot : Slot) :
    (s.notes l).entry slot = s.entry slot := by
  cases slot <;> rfl

variable {r : Except NsError Unit}

theorem Cached.settled {pfxpath canonpath : List UInt8} {pfxobj : Option Obj} {objtype : ℕ}
    (h : Cached s pfxpath pfxobj objtype canonpath r s') (hs : s.Sound) :
    Settled s s' 0 := by
  cases h with
  | overflow hget => exact hget.settled hs
  | @stored t slot e hget he =>
    have ht := hget.settled hs
    have hd : Settled t (t.notes (cachingNotes e pfxobj)) 0 :=
      ⟨⟨ht.sound.size, ht.sound.last⟩,
        by rw [StdName.notes_ledger (cachingNotes_loss _ _), add_zero]⟩
    have hslot := (hget.entry hs rfl).1
    refine ⟨((hd.sound.count _ _).count _ _).store _ _, ?_⟩
    have hstore := StdName.store_ledger ((hd.sound.count (-1) e.target).count 1 pfxobj)
      { e with
        type := .cache
        canonPath := cString canonpath
        target := pfxobj
        targetType := objtype
        idStamp := t.identityVersion } hslot
    rw [StdName.count_ledger, StdName.count_ledger, StdName.count_entry, StdName.count_entry,
      StdName.notes_entry, bind_target he, hd.ledger, ht.ledger, one_zsmul, neg_one_zsmul] at hstore
    refine add_right_cancel (hstore.trans ?_)
    abel

variable {sv : Servers W}

theorem SystemSet.settled {pfxpath canonpath : List UInt8} {pfxobj : Obj} {objtype : ℕ}
    (h : SystemSet sv s pfxpath pfxobj objtype canonpath r s') (hs : s.Sound) : Settled s s' 0 := by
  cases h with
  | overflow hget => exact hget.settled hs
  | @rejected t slot e err world hget he hauth =>
    have ht := hget.settled hs
    have hslot := (hget.entry hs rfl).1
    refine ⟨((ht.sound.count _ _).advance _).store _ _, ?_⟩
    have hstore := StdName.store_ledger ((ht.sound.count (-1) e.target).advance world)
      (flushed { e with canonPath := cString canonpath }) hslot
    have hentry : ((t.count (-1) e.target).advance world).entry slot = t.entry slot := by
      cases slot <;> cases e.target <;> rfl
    rw [StdName.advance_ledger, StdName.count_ledger, hentry, bind_target he, neg_one_zsmul,
      neg_add_cancel_right, ht.ledger] at hstore
    exact (add_zero _).symm.trans hstore
  | @stored t t' slot e obj world hget he hauth hflush =>
    have ht := hget.settled hs
    have hslot := (hget.entry hs rfl).1
    have hsound := ((ht.sound.count (-1) e.target).advance world).count 1 obj
    have hfl := hflush.settled (hsound.store _ _)
    refine ⟨hfl.sound, ?_⟩
    have hstore := StdName.store_ledger hsound
      { e with
        type := .system
        canonPath := cString canonpath
        target := obj
        targetType := objtype
        idStamp := t.identityVersion } hslot
    have hentry : ((t.count (-1) e.target).advance world).entry slot = t.entry slot := by
      cases slot <;> cases e.target <;> rfl
    rw [StdName.count_ledger, StdName.advance_ledger, StdName.count_ledger, StdName.count_entry,
      hentry, bind_target he, ht.ledger, one_zsmul, neg_one_zsmul] at hstore
    rw [hfl.ledger, add_zero]
    refine add_right_cancel (hstore.trans ?_)
    abel

theorem UserEntered.settled {pfxpath : List UInt8} {pfxobj : Option Obj} {pfxtype : ℕ} {canon : Path}
    (h : UserEntered s pfxpath pfxobj pfxtype canon r s') (hs : s.Sound) :
    Settled s s' (-held pfxobj) := by
  cases h with
  | overflow hget =>
    have ht := hget.settled hs
    refine ⟨ht.sound.count _ _, ?_⟩
    rw [StdName.count_ledger, ht.ledger, add_zero, neg_one_zsmul]
  | @stored t t' slot e hget he hflush =>
    have ht := hget.settled hs
    have hslot := (hget.entry hs rfl).1
    have hfl := hflush.settled (ht.sound.replace _ _ _)
    refine ⟨hfl.sound, ?_⟩
    have hrep := StdName.replace_ledger ht.sound hslot (bind_target he)
      { e with
        type := .user
        target := pfxobj
        targetType := pfxtype
        canonPath := canon
        idStamp := t.identityVersion }
    rw [hfl.ledger, add_zero, eq_sub_of_add_eq hrep, ht.ledger, add_zero, sub_eq_add_neg]

def Settles (u : SetUser W) : Prop :=
  ∀ pfxpath targetpath s r s', s.Sound → Returns (u pfxpath targetpath) s r s' → Settled s s' 0

variable {u : SetUser W}

theorem Invalidated.settled (hu : Settles u)
    (h : Invalidated u s path r s') (hs : s.Sound) : Settled s s' 0 := by
  cases h with
  | missing hget => exact hget.settled hs
  | left hget he htype => exact hget.settled hs
  | @dropped t slot e hget he htype =>
    have ht := hget.settled hs
    have hslot := (hget.entry hs rfl).1
    have hrep := StdName.replace_ledger ht.sound hslot (bind_target he) (flushed e)
    exact ⟨ht.sound.replace _ _ _, (add_zero _).symm.trans (hrep.trans ht.ledger)⟩
  | @reevaluated t s' slot e r hget he htype hset =>
    have ht := hget.settled hs
    have hslot := (hget.entry hs rfl).1
    have hn := ht.sound.note (.reevaluated path)
    have hentry : (t.note (.reevaluated path)).entry slot = some e := by
      rw [← he]
      cases slot <;> rfl
    have hrep := StdName.replace_ledger hn hslot (bind_target hentry) (flushed e)
    rw [StdName.note_ledger _ rfl] at hrep
    have hu' := hu _ _ _ _ _ (hn.replace _ _ _) hset
    refine ⟨hu'.sound, ?_⟩
    rw [hu'.ledger, ← ht.ledger, ← hrep, add_zero]
    exact (add_zero _).symm

theorem Renewed.settled (hu : Settles u)
    (h : Renewed sv u s slot e s') (hs : s.Sound) (hslot : slot.Valid) (he : s.entry slot = some e) :
    Settled s s' 0 := by
  have hn := hs.note (.renewed e.prefixPath)
  have hentry (world : W) :
      ((s.note (.renewed e.prefixPath)).advance world).entry slot = s.entry slot := by
    cases slot <;> rfl
  have hledger (world : W) :
      ((s.note (.renewed e.prefixPath)).advance world).ledger = s.ledger := by
    rw [StdName.advance_ledger, StdName.note_ledger _ rfl]
  cases h with
  | @fresh world obj hauth =>
    have hsound := (hn.advance world).count 1 obj
    refine ⟨hsound.replace _ _ _, ?_⟩
    have hrep := StdName.replace_ledger hsound hslot
      (bind_target (by rw [StdName.count_entry, hentry, he]))
      { e with target := obj, idStamp := s.identityVersion }
    rw [StdName.count_ledger, hledger, one_zsmul] at hrep
    rw [add_right_cancel hrep, add_zero]
  | @system world htype e' he' =>
    refine ⟨(hn.advance world).replace _ _ _, ?_⟩
    have hrep := StdName.replace_ledger (hn.advance world) hslot
      (by rw [hentry]; exact bind_target_getD he') (voided e')
    rw [hledger] at hrep
    exact (add_zero _).symm.trans (hrep.trans (add_zero _).symm)
  | @recovered world s' htype hinv =>
    have hi := hinv.settled hu (hn.advance world)
    exact ⟨hi.sound, by rw [hi.ledger, hledger]⟩
  | @given world t err e' htype hinv he' =>
    have hi := hinv.settled hu (hn.advance world)
    refine ⟨hi.sound.replace _ _ _, ?_⟩
    have hrep := StdName.replace_ledger hi.sound hslot (bind_target_getD he') (voided e')
    rw [hi.ledger, hledger] at hrep
    exact (add_zero _).symm.trans hrep

theorem bestSlot_valid {es : List (ℕ × Option PfxEntry)} {best : Slot × ℕ}
    (hes : ∀ x ∈ es, x.1 < pfxTableSize) (hbest : best.1.Valid) :
    (bestSlot path es best).1.Valid := by
  induction es generalizing best with
  | nil => exact hbest
  | cons x es ih =>
    have hrest := fun y hy => hes y (mem_cons_of_mem _ hy)
    obtain ⟨i, e⟩ := x
    cases e with
    | none => exact ih hrest hbest
    | some e =>
      rw [bestSlot]
      split_ifs
      · exact ih hrest (hes (i, some e) mem_cons_self)
      · exact ih hrest hbest

theorem bestSlot_slot {len : ℕ}
    (h : bestSlot path ((range pfxTableSize).zip s.pfxTable) (.null, 0) = (slot, len)) :
    slot.Valid := by
  have hrange : ∀ x ∈ (range pfxTableSize).zip s.pfxTable, x.1 < pfxTableSize :=
    fun x hx => mem_range.mp (of_mem_zip hx).1
  have hfst : (bestSlot path ((range pfxTableSize).zip s.pfxTable) (.null, 0)).1.Valid :=
    bestSlot_valid hrange trivial
  rwa [h] at hfst

theorem Searched.settled (hu : Settles u)
    {f : FoundPrefix} (h : Searched sv u s path f s') (hs : s.Sound) :
    Settled s s' (held f.obj) := by
  cases h with
  | none => exact ⟨hs, by simp⟩
  | @some t slot len e e' hbest he he' ht =>
    have hst : Settled s t 0 := by
      rcases ht with rfl | ⟨-, -, hrenewed⟩
      · exact ⟨hs, (add_zero _).symm⟩
      · exact hrenewed.settled hu hs (bestSlot_slot hbest) he
    refine ⟨hst.sound.count _ _, ?_⟩
    rw [StdName.count_ledger, hst.ledger, add_zero, one_zsmul]

end MachUS.Naming
