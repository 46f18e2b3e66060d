import MachUS.Foundation.Guard
import MachUS.Vnode.VnFile

namespace MachUS.Vnode

open Function

namespace Call

def sweeps : Call → Bool
  | clean | settle _ | destroy => true
  | _ => false

end Call

namespace Phase

def holdsEntry : Phase → Bool
  | entered _ | leaving _ | freeing => true
  | locked c => c ≠ .markTemporary
  | _ => false

def holdsFile : Phase → Bool
  | locked _ => true
  | _ => false

def call : Phase → Option Call
  | waiting c | entered c | locked c => some c
  | _ => none

def cleans (q : Phase) : Prop :=
  q.call = some .clean ∨ q = .leaving true ∨ q = .cleaning ∨ ∃ ok, q.call = some (.settle ok)

def hasBegun (q : Phase) : Prop := q = .cleaning ∨ ∃ ok, q.call = some (.settle ok)

def destroys (q : Phase) : Prop := q = .entered .destroy ∨ q = .locked .destroy ∨ q = .freeing

end Phase

namespace Server

section Views

variable {T : Type} (x : Server T)

structure Kept : Prop where
  refs : x.file.vnRefcount = x.held.length
  writers : x.file.numWriters = x.held.countP fun e => e.2.writes
  marked : x.file.temporary = false → 0 < x.file.numWriters → x.file.state = .fileMustClean
  cleanable : x.file.state = .fileMustClean → x.file.ioActive = true
  started : 0 < x.file.numWriters → x.file.ioActive = true ∧ x.file.writable = true
  safe : x.file.temporary = false → x.dirty = true → x.file.state = .fileMustClean
  fresh : x.fresh = true → x.dirty = true

structure Scans (q : Phase) : Prop where
  cleans : q.cleans → x.file.state = .fileMustClean
  begun : q.hasBegun → x.fresh = true → x.file.writable = true
  cleaned : q.call = some (.settle true) → x.dirty = true → x.fresh = true
  destroys : q.destroys → x.file.state = .inactive
  freeing : q = .freeing → x.held = []

structure Gone : Prop where
  held : x.held = []
  state : x.file.state = .inactive
  scanner : x.phase none = .idle
  phase : ∀ p, x.phase p = .idle ∨ x.phase p = .waiting .lookup

end Views

variable {T : Type} [DecidableEq T] (x : Server T)

def Asks (p : Option T) (c : Call) : Prop :=
  match p with
  | some t => x.May t c
  | none => c.sweeps = true

def Fits (p : Option T) : Phase → Prop
  | .idle => True
  | .waiting c => c ≠ .destroy ∧ x.Asks p c
  | .locked c => x.Asks p c
  | .entered c => c ≠ .markTemporary ∧ x.Asks p c
  | .leaving cleans => cleans = true → p = none
  | .cleaning | .freeing => p = none

structure Inv : Prop where
  entry : Guards Phase.holdsEntry x.entryLock x.phase
  vn : Guards Phase.holdsFile x.vnLock x.phase
  fits : ∀ p, x.Fits p (x.phase p)
  kept : x.Kept
  scans : x.Scans (x.phase none)
  gone : x.destroyed = true → x.Gone
  critical : x.critical = false

def Orderly (x : Server T) : Event T → Prop
  | .act p _ =>
    match x.phase p with
    | .locked (.settle ok) => x.file.temporary = false →
      (x.file.vnRefcount = 0 → x.file.writable = true → x.fresh = false) ∧
        (ok = false → x.file.vnRefcount = 0 ∨ x.file.writable = false → x.dirty = false)
    | .locked .markPermanent => x.file.temporary = true → x.file.numWriters = 0 →
      x.file.state ≠ .fileMustClean → x.dirty = false
    | _ => True
  | _ => True

structure Sound : Prop where
  refs : x.file.vnRefcount = x.held.length
  writers : x.file.numWriters = x.held.countP fun e => e.2.writes
  marked : x.file.temporary = false → 0 < x.file.numWriters → x.file.state = .fileMustClean
  leaves : ∀ e y, Orderly x e → next x e = some y → x.file.state = .fileMustClean →
    y.file.state ≠ .fileMustClean → y.file.temporary = true ∨ y.dirty = false
  discarded : x.destroyed = true → x.file.temporary = false → x.dirty = false
  answered : x.critical = false

end Server

namespace Server

section Views

variable {T : Type} {x y : Server T} {p : Option T} {q : Phase}

structure Alike (x y : Server T) : Prop where
  file : y.file = x.file
  held : y.held = x.held
  dirty : y.dirty = x.dirty
  fresh : y.fresh = x.fresh

theorem Kept.refile {f : VnFile} (h : x.Kept) (hfile : y.file = f) (hheld : y.held = x.held)
    (hdirty : y.dirty = x.dirty) (hfresh : y.fresh = x.fresh)
    (hcounts : f.vnRefcount = x.file.vnRefcount ∧ f.numWriters = x.file.numWriters)
    (hmarked : f.temporary = false → 0 < f.numWriters → f.state = .fileMustClean)
    (hcleanable : f.state = .fileMustClean → f.ioActive = true)
    (hstarted : 0 < f.numWriters → f.ioActive = true ∧ f.writable = true)
    (hsafe : f.temporary = false → x.dirty = true → f.state = .fileMustClean) : y.Kept := by
  subst hfile
  refine ⟨?_, ?_, hmarked, hcleanable, hstarted, hdirty ▸ hsafe, ?_⟩
  · rw [hcounts.1, hheld]
    exact h.refs
  · rw [hcounts.2, hheld]
    exact h.writers
  · rw [hdirty, hfresh]
    exact h.fresh

theorem Kept.alike (h : x.Kept) (hy : Alike x y) : y.Kept :=
  h.refile hy.file hy.held hy.dirty hy.fresh ⟨rfl, rfl⟩ h.marked h.cleanable h.started h.safe

theorem Scans.alike (h : x.Scans q) (hy : Alike x y) : y.Scans q := by
  obtain ⟨hfile, hheld, hdirty, hfresh⟩ := hy
  constructor
  · rw [hfile]
    exact h.cleans
  · rw [hfile, hfresh]
    exact h.begun
  · rw [hdirty, hfresh]
    exact h.cleaned
  · rw [hfile]
    exact h.destroys
  · rw [hheld]
    exact h.freeing

theorem scans_of_still (hcall : q.call = none) (hcleaning : q ≠ .cleaning)
    (hleaving : q ≠ .leaving true) (hfreeing : q ≠ .freeing) : x.Scans q := by
  constructor
  · rintro (h | h | h | ⟨ok, h⟩)
    · rw [hcall] at h
      cases h
    · exact (hleaving h).elim
    · exact (hcleaning h).elim
    · rw [hcall] at h
      cases h
  · rintro (h | ⟨ok, h⟩)
    · exact (hcleaning h).elim
    · rw [hcall] at h
      cases h
  · intro h
    rw [hcall] at h
    cases h
  · rintro (rfl | rfl | rfl)
    · cases hcall
    · cases hcall
    · exact (hfreeing rfl).elim
  · intro h
    exact (hfreeing h).elim

theorem Fits.mono (hheld : ∀ u, p = some u → ∀ i, (u, i) ∈ x.held → (u, i) ∈ y.held)
    (h : x.Fits p q) : y.Fits p q := by
  have hasks {c : Call} (hc : x.Asks p c) : y.Asks p c := by
    cases p with
    | none => exact hc
    | some u =>
      have hsome (hx : x.Holds u) : y.Holds u := by
        obtain ⟨⟨v, i⟩, hi, rfl⟩ := hx
        exact ⟨(v, i), hheld v rfl i hi, rfl⟩
      cases c with
      | lookup => trivial
      | registerAgent _ | markTemporary | markPermanent => exact hsome hc
      | unregister i => exact hheld u rfl i hc
      | clean | settle _ | destroy => exact hc
  cases q with
  | waiting c | entered c => exact ⟨h.1, hasks h.2⟩
  | locked c => exact hasks h
  | _ => exact h

end Views

variable {T : Type} [DecidableEq T] {x y : Server T} {p : Option T} {q : Phase}

section

variable (h : x.Inv) (hphase : y.phase = update x.phase p q)
  (hentry : Guards Phase.holdsEntry y.entryLock y.phase)
  (hvn : Guards Phase.holdsFile y.vnLock y.phase)

include h hphase hentry hvn

theorem Inv.move
    (hheld : ∀ u, some u ≠ p → ∀ i, (u, i) ∈ x.held → (u, i) ∈ y.held) (hfits : y.Fits p q)
    (hkept : y.Kept) (hscans : y.Scans (y.phase none)) (hgone : y.destroyed = true → y.Gone)
    (hcritical : y.critical = false) : y.Inv := by
  refine ⟨hentry, hvn, fun r => ?_, hkept, hscans, hgone, hcritical⟩
  rcases eq_or_ne r p with rfl | hne
  · rw [hphase, update_self]
    exact hfits
  · rw [hphase, update_of_ne hne]
    exact (h.fits r).mono fun u hu => hheld u (hu ▸ hne)

theorem Inv.aside (hsame : Alike x y) (hfits : x.Fits p q)
    (hscans : p = none → x.Scans q) (hdestroyed : y.destroyed = x.destroyed)
    (hgone : x.destroyed = true → q = .idle ∨ q = .waiting .lookup ∧ p ≠ none)
    (hcritical : y.critical = x.critical) : y.Inv := by
  have hother (r : Option T) (hr : r ≠ p) : y.phase r = x.phase r := by
    rw [hphase, update_of_ne hr]
  have hself : y.phase p = q := by rw [hphase, update_self]
  refine h.move hphase hentry hvn (fun u _ i hi => hsame.held ▸ hi)
    (hfits.mono fun u _ i hi => hsame.held ▸ hi) (h.kept.alike hsame) ?_ ?_
    (hcritical.trans h.critical)
  · rcases eq_or_ne p none with rfl | hne
    · rw [hself]
      exact (hscans rfl).alike hsame
    · rw [hother none hne.symm]
      exact h.scans.alike hsame
  · intro hy
    have hx := h.gone (hdestroyed ▸ hy)
    have hq := hgone (hdestroyed ▸ hy)
    refine ⟨hsame.held ▸ hx.held, hsame.file ▸ hx.state, ?_, fun r => ?_⟩
    · rcases eq_or_ne p none with rfl | hne
      · rw [hself]
        exact hq.resolve_right fun hlook => hlook.2 rfl
      · rw [hother none hne.symm]
        exact hx.scanner
    · rcases eq_or_ne r p with rfl | hne
      · rw [hself]
        exact hq.imp_right And.left
      · rw [hother r hne]
        exact hx.phase r

end

end Server

namespace VnFile

variable {f g : VnFile} {a : NsAccess} {ok : Bool}

structure Registered (f g : VnFile) (a : NsAccess) : Prop where
  refs : g.vnRefcount = f.vnRefcount + 1
  writers : g.numWriters = if a.write then f.numWriters + 1 else f.numWriters
  temporary : g.temporary = f.temporary
  writable : g.writable = (f.writable || a.write)
  ioActive : g.ioActive = (f.ioActive || a.performsIo)
  cleans : g.ioActive = true → 0 < g.numWriters → g.state = .fileMustClean
  stays : f.state = .fileMustClean → g.state = .fileMustClean
  cleaned : g.state = .fileMustClean → g.ioActive = true ∨ f.state = .fileMustClean

theorem activate_same (f : VnFile) : f.activate = { f with state := f.activate.state } := by
  unfold activate
  split_ifs <;> rfl

theorem nsRegisterAgent_registered (h : f.nsRegisterAgent a ok = some g) : Registered f g a := by
  obtain ⟨k, hk, rfl⟩ := Option.map_eq_some_iff.mp h
  have hio : k = { f with ioActive := f.ioActive || a.performsIo } := by
    unfold startIo at hk
    split_ifs at hk with hneeds hok
    · cases hk
      have hperforms : a.performsIo = true := (Bool.and_eq_true_iff.mp hneeds).1
      rw [hperforms, Bool.or_true]
    · cases hk
      have : (f.ioActive || a.performsIo) = f.ioActive := by
        cases hperforms : a.performsIo <;> cases hactive : f.ioActive <;>
          simp [hperforms, hactive] at hneeds ⊢
      rw [this]
  subst hio
  constructor
  · rw [activate_same]
    rfl
  · rw [activate_same]
    rfl
  · rw [activate_same]
    rfl
  · rw [activate_same]
    rfl
  · rw [activate_same]
    rfl
  · intro hactive hwriters
    rw [activate_same] at hactive hwriters
    rw [activate, if_pos ⟨hactive, hwriters⟩]
  · intro hstate
    unfold activate
    split_ifs with hcleans hother
    · rfl
    · exact (hother hstate).elim
    · exact hstate
  · intro hstate
    unfold activate at hstate ⊢
    split_ifs at hstate ⊢ with hcleans hother
    · exact .inl hcleans.1
    · exact .inr hstate

structure Unregistered (f g : VnFile) (a : NsAccess) : Prop where
  refs : g.vnRefcount = f.vnRefcount - 1
  writers : g.numWriters = if a.write then f.numWriters - 1 else f.numWriters
  temporary : g.temporary = f.temporary
  writable : g.writable = f.writable
  ioActive : g.ioActive = f.ioActive
  state : g.state = .fileMustClean ↔ f.state = .fileMustClean

theorem nsUnregisterAgent_unregistered (hclean : f.state = .fileMustClean → f.ioActive = true) :
    ∃ g, f.nsUnregisterAgent a = some g ∧ Unregistered f g a := by
  have hsame : Unregistered f (f.uncount a) a := ⟨rfl, rfl, rfl, rfl, rfl, .rfl⟩
  unfold nsUnregisterAgent
  split_ifs with hlast
  · unfold deactivate
    split_ifs with hstate hactive
    · exact ⟨_, rfl, hsame⟩
    · exact (hactive (hclean hstate)).elim
    · exact ⟨_, rfl, rfl, rfl, rfl, rfl, rfl, ⟨fun h => AotState.noConfusion h, fun h => (hstate h).elim⟩⟩
  · exact ⟨_, rfl, hsame⟩

end VnFile

end MachUS.Vnode
