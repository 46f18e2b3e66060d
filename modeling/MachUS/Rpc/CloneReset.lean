import MachUS.Rpc.PortTable

namespace MachUS.Rpc

open Transition Option Function List UsRemote

namespace TaskImage

variable {x y : TaskImage} {o : RemoteId} {r r' : UsRemote}

def entries (x : TaskImage) (o : RemoteId) : ℕ := x.table.countP (·.2 = o)

def refs (x : TaskImage) (o : RemoteId) : ℕ := ((x.objects o).map refCnt).getD 0

structure Counted (x : TaskImage) : Prop where
  covers : ∀ o, x.locals o + x.entries o ≤ x.refs o

theorem refs_eq (hr : x.objects o = some r) : x.refs o = r.refCnt := by simp [refs, hr]

theorem refs_setObject (o' : RemoteId) :
    (x.setObject o r).refs o' = if o' = o then r.refCnt else x.refs o' := by
  by_cases ho : o' = o
  · subst ho
    simp [refs, setObject]
  · simp [refs, setObject, ho]

theorem refs_delete (o' : RemoteId) : (x.delete o).refs o' = if o' = o then 0 else x.refs o' := by
  by_cases ho : o' = o
  · subst ho
    simp [refs, delete]
  · simp [refs, delete, ho]

theorem Counted.setObject (h : Counted x) (hr : x.objects o = some r) (hle : r.refCnt ≤ r'.refCnt) :
    Counted (x.setObject o r') := by
  refine ⟨fun o' => ?_⟩
  have hcovers := h.covers o'
  rw [refs_setObject]
  split_ifs with ho
  · subst ho
    rw [refs_eq hr] at hcovers
    exact hcovers.trans hle
  · exact hcovers

structure Spare (x : TaskImage) (o : RemoteId) : Prop where
  others : ∀ o' ≠ o, x.locals o' + x.entries o' ≤ x.refs o'
  own : x.locals o + x.entries o < x.refs o

theorem Spare.delete (h : Spare x o) (hone : x.refs o = 1) : Counted (x.delete o) := by
  refine ⟨fun o' => ?_⟩
  rw [refs_delete]
  split_ifs with ho
  · subst ho
    have hown := h.own
    change x.locals o' + x.entries o' ≤ 0
    omega
  · exact h.others o' ho

theorem Spare.setObject (h : Spare x o) (hcount : r.refCnt + 1 = x.refs o) :
    Counted (x.setObject o r) := by
  refine ⟨fun o' => ?_⟩
  rw [refs_setObject]
  split_ifs with ho
  · subst ho
    have hown := h.own
    change x.locals o' + x.entries o' ≤ r.refCnt
    omega
  · exact h.others o' ho

theorem Spare.dereferenceLocked (h : Spare x o) (hy : x.dereferenceLocked o = some y) : Counted y := by
  rw [TaskImage.dereferenceLocked] at hy
  split at hy
  · cases hy
  · next r hr =>
    split_ifs at hy with hzero hone
    · rw [destroyLocked] at hy
      split at hy
      · cases hy
        exact h.delete ((refs_eq hr).trans hone)
      · split_ifs at hy
        cases hy
        exact ⟨(h.delete ((refs_eq hr).trans hone)).covers⟩
    · cases hy
      refine h.setObject ?_
      rw [refs_eq hr]
      exact Nat.succ_pred_eq_of_ne_zero hzero

theorem countP_eraseP_key {t : List (Port × RemoteId)} {p : Port} {entry : Port × RemoteId}
    (hfind : t.find? (fun entry => entry.1 = p) = some entry) (o : RemoteId) :
    (t.eraseP fun entry => entry.1 = p).countP (·.2 = o) + (if o = entry.2 then 1 else 0) =
      t.countP (·.2 = o) := by
  induction t with
  | nil => cases hfind
  | cons first rest ih =>
    by_cases hkey : first.1 = p
    · rw [find?_cons, decide_eq_true hkey] at hfind
      cases hfind
      rw [eraseP_cons_of_pos (by simpa using hkey), countP_cons]
      simp [eq_comm]
    · rw [find?_cons, decide_eq_false hkey] at hfind
      rw [eraseP_cons_of_neg (by simpa using hkey), countP_cons, countP_cons, ← ih hfind]
      omega

theorem entries_deregister {p : Port} (hp : x.lookup p = some o) (o' : RemoteId) :
    (x.table.eraseP (·.1 = p)).countP (·.2 = o') + (if o' = o then 1 else 0) = x.entries o' := by
  obtain ⟨entry, hfind, rfl⟩ := map_eq_some_iff.mp hp
  exact countP_eraseP_key hfind o'

theorem Counted.deregister (h : Counted x) {p : Port} (hy : x.deregisterExternalPort p = some y) :
    Counted y := by
  rw [deregisterExternalPort] at hy
  split at hy
  · cases hy
    exact h
  · next o hp =>
    refine Spare.dereferenceLocked (o := o) ⟨fun o' ho => ?_, ?_⟩ hy
    · have hentries := entries_deregister hp o'
      have hcovers := h.covers o'
      rw [if_neg ho] at hentries
      change x.locals o' + (x.table.eraseP (·.1 = p)).countP (·.2 = o') ≤ x.refs o'
      omega
    · have hentries := entries_deregister hp o
      have hcovers := h.covers o
      rw [if_pos rfl] at hentries
      change x.locals o + (x.table.eraseP (·.1 = p)).countP (·.2 = o) < x.refs o
      omega

theorem Counted.register (h : Counted x) (hr : x.objects o = some r) (hle : r.refCnt ≤ r'.refCnt)
    (p : Port) : Counted (x.registerExternalPort p o r') := by
  refine ⟨fun o' => ?_⟩
  have hcovers := h.covers o'
  have hentries : (x.registerExternalPort p o r').entries o' ≤
      x.entries o' + (if o' = o then 1 else 0) := by
    rw [entries, registerExternalPort, entries]
    dsimp only
    split_ifs with hkey ho ho
    · omega
    · omega
    · simp [ho]
    · simp [Ne.symm ho]
  have hrefs : (x.registerExternalPort p o r').refs o' =
      if o' = o then r'.refCnt + 1 else x.refs o' := refs_setObject o'
  have hlocals : (x.registerExternalPort p o r').locals = x.locals := rfl
  rw [hrefs, hlocals]
  split_ifs at hentries ⊢ with ho
  · subst ho
    rw [refs_eq hr] at hcovers
    omega
  · omega

theorem Counted.transfer (h : Counted x) (hr : x.objects o = some r) (fresh : Port) :
    Counted (x.getTransferPort o r fresh).2 := by
  rw [getTransferPort]
  split
  · dsimp only
    split_ifs
    · refine h.register hr ?_ _
      exact le_refl _
    · exact h.setObject hr (le_refl _)
  · split
    · exact h
    · have hallocated : Counted { x with rights := fresh :: x.rights } := ⟨h.covers⟩
      refine hallocated.register hr ?_ _
      exact le_refl _

theorem entries_eraseP_le (p : Port) (o : RemoteId) :
    (x.table.eraseP (·.1 = p)).countP (·.2 = o) ≤ x.entries o :=
  Sublist.countP_le eraseP_sublist

theorem deregister_shrinks {p : Port} (hy : x.deregisterExternalPort p = some y) :
    y.locals = x.locals ∧ ∀ o, y.entries o ≤ x.entries o := by
  rw [deregisterExternalPort] at hy
  split at hy
  · cases hy
    exact ⟨rfl, fun _ => le_refl _⟩
  · have hsame {z : TaskImage} {o : RemoteId} (hz : z.dereferenceLocked o = some y) :
        y.locals = z.locals ∧ y.table = z.table := by
      rw [dereferenceLocked] at hz
      split at hz
      · cases hz
      · split_ifs at hz
        · rw [destroyLocked] at hz
          split at hz
          · cases hz
            exact ⟨rfl, rfl⟩
          · split_ifs at hz
            cases hz
            exact ⟨rfl, rfl⟩
        · cases hz
          exact ⟨rfl, rfl⟩
    obtain ⟨hlocals, htable⟩ := hsame hy
    refine ⟨hlocals, fun o => ?_⟩
    rw [entries, htable]
    exact entries_eraseP_le p o

theorem Spare.dereference (h : Spare x o) (hy : x.dereference o = some y) : Counted y := by
  rw [TaskImage.dereference] at hy
  split at hy
  · cases hy
  · next r hr =>
    split_ifs at hy with hzero hone
    · have hrefs := (refs_eq hr).trans hone
      have hown := h.own
      rw [destroy] at hy
      split at hy
      · cases hy
        exact h.delete hrefs
      · split_ifs at hy
        · cases hy
          exact ⟨(h.delete hrefs).covers⟩
        · obtain ⟨z, hz, rfl⟩ := map_eq_some_iff.mp hy
          have hcounted : Counted z := by
            refine Counted.deregister (h.setObject ?_) hz
            simp [hrefs]
          obtain ⟨hlocals, hentries⟩ := deregister_shrinks hz
          have hspare : z.locals o + z.entries o = 0 := by
            have hle := hentries o
            have hsame : (x.setObject o { r with refCnt := 0 }).entries o = x.entries o := rfl
            have hlocal : z.locals o = x.locals o := congrFun hlocals o
            omega
          refine ⟨fun o' => ?_⟩
          change z.locals o' + z.entries o' ≤ (z.delete o).refs o'
          rw [refs_delete]
          split_ifs with ho
          · subst ho
            exact hspare.le
          · exact hcounted.covers o'
    · cases hy
      refine h.setObject ?_
      rw [refs_eq hr]
      exact Nat.succ_pred_eq_of_ne_zero hzero

def cloned (r : UsRemote) (entries : ℕ) : Option UsRemote :=
  if entries = 0 then some r
  else if entries = r.refCnt then none
  else some { r.resetAfterClone with refCnt := r.refCnt - entries }

theorem cloneInternal_eq (hr : x.objects o = some r) (hpos : 0 < r.refCnt) :
    x.cloneInternal o = some { x with objects := update x.objects o (cloned r 1) } := by
  have hself : (x.setObject o r.resetAfterClone).objects o = some r.resetAfterClone :=
    update_self _ _ _
  have hcount : r.resetAfterClone.refCnt = r.refCnt := rfl
  simp only [cloneInternal, hr, dereferenceLocked, hself, hcount]
  rw [if_neg (Nat.pos_iff_ne_zero.mp hpos)]
  by_cases hone : r.refCnt = 1
  · rw [if_pos hone]
    simp [destroyLocked, resetAfterClone, setObject, delete, cloned, hone]
  · rw [if_neg hone]
    simp [setObject, cloned, Ne.symm hone]

theorem cloned_cloned {n : ℕ} (hle : n + 1 ≤ r.refCnt) : (cloned r 1).bind (cloned · n) = cloned r (n + 1) := by
  by_cases hone : r.refCnt = 1
  · have hn : n = 0 := by omega
    subst hn
    simp [cloned, hone]
  · have h1 : cloned r 1 = some { r.resetAfterClone with refCnt := r.refCnt - 1 } := by
      simp [cloned, Ne.symm hone]
    rw [h1, bind_some]
    by_cases hn : n = 0
    · subst hn
      simp [cloned, Ne.symm hone]
    · have hdiff : n = r.refCnt - 1 ↔ n + 1 = r.refCnt := by omega
      have hsub : r.refCnt - 1 - n = r.refCnt - (n + 1) := by omega
      simp [cloned, hn, hdiff, hsub, resetAfterClone]

theorem hashApply_eq {l : List (Port × RemoteId)} (hrefs : ∀ o, l.countP (·.2 = o) ≤ x.refs o) :
    ∃ y, x.hashApply l = some y ∧ y.table = x.table ∧ y.rights = x.rights ∧ y.locals = x.locals ∧
      ∀ o, y.objects o = (x.objects o).bind fun r => cloned r (l.countP (·.2 = o)) := by
  induction l generalizing x with
  | nil => exact ⟨x, rfl, rfl, rfl, rfl, fun o => by simp [cloned]⟩
  | cons entry rest ih =>
    obtain ⟨p, o⟩ := entry
    have hcount (o' : RemoteId) : ((p, o) :: rest).countP (·.2 = o') =
        rest.countP (·.2 = o') + if o = o' then 1 else 0 := by simp [countP_cons]
    have hown := hrefs o
    rw [hcount, if_pos rfl] at hown
    cases hr : x.objects o with
    | none => simp [refs, hr] at hown
    | some r =>
      rw [refs_eq hr] at hown
      let z : TaskImage := { x with objects := update x.objects o (cloned r 1) }
      have hz : x.cloneInternal o = some z := cloneInternal_eq hr (by omega)
      have hzrefs (o' : RemoteId) : rest.countP (·.2 = o') ≤ z.refs o' := by
        by_cases ho : o' = o
        · subst ho
          have hsame : z.objects o' = cloned r 1 := update_self _ _ _
          rw [refs, hsame, cloned, if_neg Nat.one_ne_zero]
          split_ifs with hone
          · omega
          · simp only [map_some, getD_some]
            omega
        · have hsame : z.objects o' = x.objects o' := update_of_ne ho _ _
          have hle := hrefs o'
          rw [hcount, if_neg (Ne.symm ho)] at hle
          rw [refs, hsame]
          exact hle
      obtain ⟨y, hy, htable, hrights, hlocals, hobjects⟩ := ih hzrefs
      refine ⟨y, ?_, htable, hrights, hlocals, fun o' => ?_⟩
      · rw [hashApply, hz]
        exact hy
      · rw [hobjects, hcount]
        by_cases ho : o' = o
        · subst ho
          have hsame : z.objects o' = cloned r 1 := update_self _ _ _
          rw [hsame, hr, if_pos rfl, bind_some]
          exact cloned_cloned hown
        · have hsame : z.objects o' = x.objects o' := update_of_ne ho _ _
          rw [hsame, if_neg (Ne.symm ho)]
          rfl

theorem Counted.cloneComplete (h : Counted x) : ∃ y, x.cloneComplete = some y ∧ y.table = [] ∧
    y.rights = x.rights ∧ y.locals = x.locals ∧
      ∀ o, y.objects o = (x.objects o).bind fun r => cloned r (x.entries o) := by
  have hrefs (o : RemoteId) : x.table.countP (·.2 = o) ≤ x.refs o :=
    (Nat.le_add_left _ _).trans (h.covers o)
  obtain ⟨y, hy, -, hrights, hlocals, hobjects⟩ := hashApply_eq hrefs
  refine ⟨{ y with table := [] }, ?_, rfl, hrights, hlocals, hobjects⟩
  rw [TaskImage.cloneComplete, hy]
  rfl

theorem refs_cloned (h : Counted x)
    (hobjects : ∀ o, y.objects o = (x.objects o).bind fun r => cloned r (x.entries o)) (o : RemoteId) :
    y.refs o + x.entries o = x.refs o := by
  have hcovers := h.covers o
  cases hr : x.objects o with
  | none =>
    have hzero : x.refs o = 0 := by simp [refs, hr]
    have hgone : y.refs o = 0 := by simp [refs, hobjects, hr]
    omega
  | some r =>
    rw [refs_eq hr] at hcovers ⊢
    rw [refs, hobjects, hr, bind_some, cloned]
    split_ifs with hnone hall
    · simp [hnone]
    · simp [hall]
    · simp only [map_some, getD_some]
      omega

theorem Counted.clone (h : Counted x) (hy : x.fork.cloneComplete = some y) : Counted y := by
  have hfork : Counted x.fork := ⟨h.covers⟩
  obtain ⟨z, hz, htable, -, hlocals, hobjects⟩ := hfork.cloneComplete
  obtain rfl := some.inj (hz.symm.trans hy)
  refine ⟨fun o => ?_⟩
  have hrefs := refs_cloned hfork hobjects o
  have hcovers := hfork.covers o
  have hnone : z.entries o = 0 := by simp [entries, htable]
  rw [hlocals]
  omega

theorem Counted.referenced (h : Counted x) (hr : x.objects o = some r) (n : ℕ)
    (hcount : r'.refCnt = r.refCnt + n) :
    Counted { x.setObject o r' with locals := update x.locals o (x.locals o + n) } := by
  refine ⟨fun o' => ?_⟩
  have hcovers := h.covers o'
  change update x.locals o (x.locals o + n) o' + x.entries o' ≤ (x.setObject o r').refs o'
  rw [refs_setObject]
  by_cases ho : o' = o
  · subst ho
    rw [refs_eq hr] at hcovers
    rw [update_self, if_pos rfl]
    omega
  · rw [update_of_ne ho, if_neg ho]
    exact hcovers

theorem onObject_cases {call : UsRemote → Option TaskImage} (hy : x.onObject o call = some y) :
    x.locals o ≠ 0 ∧ ∃ r, x.objects o = some r ∧ call r = some y := by
  rw [onObject] at hy
  split_ifs at hy with hlocals
  split at hy
  · cases hy
  · next r hr => exact ⟨hlocals, r, hr, hy⟩

theorem Counted.step (h : Counted x) {event : TaskEvent} (hy : x.next event = some y) : Counted y := by
  cases event with
  | create o =>
    rw [next] at hy
    split at hy
    · cases hy
    · next hnone =>
      cases hy
      refine ⟨fun o' => ?_⟩
      have hcovers := h.covers o'
      change update x.locals o (x.locals o + 1) o' + x.entries o' ≤ (x.setObject o create).refs o'
      rw [refs_setObject]
      by_cases ho : o' = o
      · subst ho
        have hzero : x.refs o' = 0 := by simp [refs, hnone]
        have hone : create.refCnt = 1 := rfl
        rw [update_self, if_pos rfl]
        omega
      · rw [update_of_ne ho, if_neg ho]
        exact hcovers
  | transfer o fresh =>
    rw [next] at hy
    split_ifs at hy
    obtain ⟨-, r, hr, hy⟩ := onObject_cases hy
    exact some.inj hy ▸ h.transfer hr fresh
  | setObjectPort o p =>
    obtain ⟨-, r, hr, hy⟩ := onObject_cases hy
    exact some.inj hy ▸ h.setObject hr (le_refl _)
  | noRemoteSenders o n =>
    obtain ⟨-, r, hr, hy⟩ := onObject_cases hy
    rw [noRemoteSenders] at hy
    split_ifs at hy
    · have hmarked : Counted (x.setObject o { r with noSenders := true }) := h.setObject hr (le_refl _)
      split at hy
      · exact some.inj hy ▸ hmarked
      · exact hmarked.deregister hy
    · exact some.inj hy ▸ h
  | lookup p =>
    rw [next] at hy
    split at hy
    · exact some.inj hy ▸ h
    · obtain ⟨r, hr, rfl⟩ := map_eq_some_iff.mp hy
      exact h.referenced hr 1 rfl
  | lookupWithSeqno p seqno =>
    rw [next, lookupWithSeqno] at hy
    split at hy
    · exact some.inj hy ▸ h
    · split at hy
      · cases hy
      · next r hr =>
        split_ifs at hy
        exact some.inj hy ▸ h.referenced hr _ rfl
  | registerIncomingInvoke o id =>
    obtain ⟨-, r, hr, hy⟩ := onObject_cases hy
    rw [registerIncomingInvoke] at hy
    split_ifs at hy
    · exact some.inj hy ▸ h
    · exact some.inj hy ▸ h.setObject hr (le_refl _)
  | deregisterIncomingInvoke o id =>
    obtain ⟨-, r, hr, hy⟩ := onObject_cases hy
    rw [deregisterIncomingInvoke] at hy
    split at hy
    · exact some.inj hy ▸ h
    · split_ifs at hy
      · exact some.inj hy ▸ h.setObject hr (le_refl _)
      · exact some.inj hy ▸ h
  | reference o =>
    obtain ⟨-, r, hr, hy⟩ := onObject_cases hy
    exact some.inj hy ▸ h.referenced hr 1 rfl
  | dereference o =>
    obtain ⟨hlocals, r, hr, hy⟩ := onObject_cases hy
    refine Spare.dereference (o := o) ⟨fun o' ho => ?_, ?_⟩ hy
    · change update x.locals o (x.locals o - 1) o' + x.entries o' ≤ x.refs o'
      rw [update_of_ne ho]
      exact h.covers o'
    · have hcovers := h.covers o
      change update x.locals o (x.locals o - 1) o + x.entries o < x.refs o
      rw [update_self]
      omega
  | clone => exact h.clone hy

theorem counted_of_run {events : List TaskEvent} (hx : Counted x)
    (hrun : exec next x events = some y) : Counted y :=
  Transition.invariant (I := Counted) (fun _ _ _ hz _ hnext => hz.step hnext)
    (run_of_exec (free_admits x events) hrun) hx

end TaskImage

end MachUS.Rpc

namespace MachUS.Rpc

open Transition

structure CloneReset (x y : TaskImage) : Prop where
  transfers : ∀ o r, y.objects o = some r → ∀ fresh, fresh ∉ y.rights →
    (y.getTransferPort o r fresh).1 = fresh ∧ fresh ∈ (y.getTransferPort o r fresh).2.rights ∧
      (y.getTransferPort o r fresh).2.lookup fresh = some o ∧
        (y.getTransferPort o r fresh).2.entries o = 1
  invokes : ∀ o r, y.objects o = some r → r.activeInvokes = []
  released : ∀ o, y.refs o + x.entries o = x.refs o

def ResetCovers (x : TaskImage) : Prop :=
  ∀ o r, x.objects o = some r → x.entries o = 0 ∨ x.entries o < r.refCnt →
    r.objectPort = none ∧ (r.externalPort = none ∨ 0 < x.entries o) ∧ r.activeInvokes = []

namespace TaskImage

variable {x y : TaskImage}

theorem transfers_iff (htable : y.table = []) (hrights : y.rights = []) (o : RemoteId) (r : UsRemote) :
    (∀ fresh, fresh ∉ y.rights → (y.getTransferPort o r fresh).1 = fresh ∧
      fresh ∈ (y.getTransferPort o r fresh).2.rights ∧
        (y.getTransferPort o r fresh).2.lookup fresh = some o ∧
          (y.getTransferPort o r fresh).2.entries o = 1) ↔
      r.externalPort = none ∧ r.objectPort = none := by
  constructor
  · intro h
    cases hexternal : r.externalPort with
    | some p =>
      have hother := (h (p + 1) (by simp [hrights])).1
      have hhanded : (y.getTransferPort o r (p + 1)).1 = p := by
        simp only [getTransferPort, hexternal]
        split_ifs <;> rfl
      exact (Nat.succ_ne_self p (hother.symm.trans hhanded)).elim
    | none =>
      cases hobject : r.objectPort with
      | some p =>
        have hother := (h (p + 1) (by simp [hrights])).1
        have hhanded : (y.getTransferPort o r (p + 1)).1 = p := by
          simp only [getTransferPort, hexternal, hobject]
        exact (Nat.succ_ne_self p (hother.symm.trans hhanded)).elim
      | none => exact ⟨rfl, rfl⟩
  · intro ⟨hexternal, hobject⟩ fresh _
    simp [getTransferPort, hexternal, hobject, registerExternalPort, setObject, lookup, htable, entries]

theorem clone_reset_of (hcounted : Counted x) (htable : y.table = []) (hrights : y.rights = [])
    (hobjects : ∀ o, y.objects o = (x.objects o).bind fun r => cloned r (x.entries o)) :
    CloneReset x y ↔ ResetCovers x := by
  constructor
  · intro h o r hr hmore
    have hcloned : y.objects o = cloned r (x.entries o) := by rw [hobjects, hr, Option.bind_some]
    rw [cloned] at hcloned
    split_ifs at hcloned with hnone hall
    · obtain ⟨hexternal, hobject⟩ := (transfers_iff htable hrights o r).mp (h.transfers o r hcloned)
      exact ⟨hobject, Or.inl hexternal, h.invokes o r hcloned⟩
    · omega
    · have hports := (transfers_iff htable hrights o _).mp (h.transfers o _ hcloned)
      have hinvokes := h.invokes o _ hcloned
      exact ⟨hports.2, Or.inr (Nat.pos_of_ne_zero hnone), hinvokes⟩
  · intro h
    have hcases {o : RemoteId} {s : UsRemote} (hs : y.objects o = some s) :
        s.externalPort = none ∧ s.objectPort = none ∧ s.activeInvokes = [] := by
      cases hr : x.objects o with
      | none => simp [hobjects, hr] at hs
      | some r =>
        rw [hobjects, hr, Option.bind_some, cloned] at hs
        have hcovers := hcounted.covers o
        rw [refs_eq hr] at hcovers
        split_ifs at hs with hnone hall
        · obtain rfl := Option.some.inj hs
          obtain ⟨hobject, hexternal, hinvokes⟩ := h o r hr (Or.inl hnone)
          exact ⟨hexternal.resolve_right (by omega), hobject, hinvokes⟩
        · cases hs
          obtain ⟨hobject, -, hinvokes⟩ := h o r hr (Or.inr (by omega))
          exact ⟨rfl, hobject, hinvokes⟩
    refine ⟨fun o r hr => ?_, fun o r hr => (hcases hr).2.2, refs_cloned hcounted hobjects⟩
    exact (transfers_iff htable hrights o r).mpr ⟨(hcases hr).1, (hcases hr).2.1⟩

theorem clone_reset_iff {events : List TaskEvent} (hrun : exec next start events = some x) :
    ∃ y, x.fork.cloneComplete = some y ∧ (CloneReset x y ↔ ResetCovers x) := by
  have hcounted : Counted x := counted_of_run ⟨fun _ => le_refl _⟩ hrun
  have hfork : Counted x.fork := ⟨hcounted.covers⟩
  obtain ⟨y, hy, htable, hrights, -, hobjects⟩ := hfork.cloneComplete
  exact ⟨y, hy, clone_reset_of hcounted htable hrights hobjects⟩

def exported : List TaskEvent := [.create 0, .transfer 0 5, .lookupWithSeqno 5 0]

theorem clone_reset_exported :
    ∃ x y, exec next start exported = some x ∧ x.fork.cloneComplete = some y ∧
      (CloneReset x y ↔ ResetCovers x) ∧ y.refs 0 = 2 := by
  have hcheck : check next start exported
      (fun x => (x.fork.cloneComplete.any fun y => decide (y.refs 0 = 2))) = true := by decide
  obtain ⟨x, hx, htest⟩ := exec_of_check hcheck
  obtain ⟨y, hy, hiff⟩ := clone_reset_iff hx
  refine ⟨x, y, hx, hy, hiff, ?_⟩
  simpa [hy] using htest

theorem stale_port_survives_clone :
    ¬∀ events x y, exec next start events = some x → x.fork.cloneComplete = some y →
      CloneReset x y := by
  intro h
  have hcheck : check next start (exported ++ [.noRemoteSenders 0 1, .dereference 0])
      (fun x => x.fork.cloneComplete.any fun y => (y.objects 0).any fun r =>
        decide ((y.getTransferPort 0 r 6).1 = 5 ∧ 6 ∉ y.rights)) = true := by decide
  obtain ⟨x, hx, htest⟩ := exec_of_check hcheck
  cases hy : x.fork.cloneComplete with
  | none => simp [hy] at htest
  | some y =>
    cases hr : y.objects 0 with
    | none => simp [hy, hr] at htest
    | some r =>
      simp only [hy, hr, Option.any_some, decide_eq_true_eq] at htest
      obtain ⟨hhanded, -⟩ := (h _ x y hx hy).transfers 0 r hr 6 htest.2
      cases hhanded.symm.trans htest.1

end TaskImage

end MachUS.Rpc
