import Mathlib.Algebra.BigOperators.Fin
import Mathlib.Data.UInt

namespace MachUS.Ux

open Function

def maxOpenFiles : ℕ := 64

instance : NeZero maxOpenFiles := ⟨by decide⟩

abbrev Fd := Fin maxOpenFiles

abbrev Fp := Fin maxOpenFiles

structure FileObject (Obj : Type) where
  refCnt : ℤ
  obj : Option Obj
  deriving DecidableEq

structure Slot where
  fp : Option Fp
  flags : UInt32
  deriving DecidableEq

inductive Code where
  | success
  | ebadf
  | einval
  deriving DecidableEq

-- What the uninitialised pointer of ftab_cdup may hold.
inductive Stray where
  | null
  | object (i : Fp)
  | elsewhere
  deriving DecidableEq

structure Ftab (Obj : Type) where
  files : Fd → Slot
  objects : Fp → FileObject Obj
  free : List Fp
  inUse : List Fp
  refs : Obj → ℤ
  given : Obj → ℤ

namespace Ftab

variable {Obj : Type}

def closed : Slot := ⟨none, 0⟩

def create (objects : Fp → FileObject Obj) : Ftab Obj where
  files := fun _ => closed
  objects := objects
  free := List.finRange maxOpenFiles
  inUse := []
  refs := fun _ => 0
  given := fun _ => 0

variable (s : Ftab Obj)

def slot (fd : ℤ) : Option Fd :=
  if h : 0 ≤ fd ∧ fd < maxOpenFiles then some ⟨fd.toNat, by omega⟩ else none

def getFp (fd : ℤ) : Option Fp := (slot fd).bind fun i => (s.files i).fp

def getFtab (fd : ℤ) : Option Fd := (slot fd).filter fun i => (s.files i).fp.isSome

def firstFree : Option Fd := (List.finRange maxOpenFiles).find? fun fd => (s.files fd).fp.isNone

def counted (i : Fp) (n : ℤ) : Ftab Obj :=
  { s with objects := update s.objects i { s.objects i with refCnt := n } }

def point (fd : Fd) (slot : Slot) : Ftab Obj := { s with files := update s.files fd slot }

variable [DecidableEq Obj]

def reference (o : Obj) : Ftab Obj := { s with refs := update s.refs o (s.refs o + 1) }

def dereference (o : Obj) : Ftab Obj := { s with refs := update s.refs o (s.refs o - 1) }

def falloc : Option (Fd × Fp × Ftab Obj) :=
  match s.free with
  | [] => none
  | i :: free =>
    match s.firstFree with
    | none => none
    | some fd =>
      some (fd, i,
        (({ s with free := free, inUse := s.inUse ++ [i] } : Ftab Obj).counted i 1).point fd
          ⟨some i, 0⟩)

def closeInternal (fd : Fd) : Ftab Obj :=
  match (s.files fd).fp with
  | none => s.point fd closed
  | some i =>
    let s := s.point fd closed
    let s := s.counted i ((s.objects i).refCnt - 1)
    if (s.objects i).refCnt = 0 then
      let s := (s.objects i).obj.elim s s.dereference
      { s with inUse := s.inUse.erase i, free := s.free ++ [i] }
    else s

def ftabAddObj (o : Obj) : Code × Ftab Obj :=
  match s.falloc with
  | none => (.ebadf, s)
  | some (_, i, s) =>
    (.success, ({ s with objects := update s.objects i { s.objects i with obj := some o } } :
      Ftab Obj).reference o)

def ftabGetObj (fd : ℤ) : Code × Ftab Obj :=
  match s.getFp fd with
  | none => (.ebadf, s)
  | some i =>
    match (s.objects i).obj with
    | none => (.success, s)
    | some o =>
      (.success, { s.reference o with given := update s.given o (s.given o + 1) })

def ftabClose (fd : ℤ) : Code × Ftab Obj :=
  match s.getFtab fd with
  | none => (.ebadf, s)
  | some fd => (.success, s.closeInternal fd)

def fdMask (flag : ℤ) : UInt32 := 1 <<< UInt32.ofInt flag

def ftabSetFlag (fd flag : ℤ) (val : Bool) : Code × Ftab Obj :=
  match s.getFtab fd with
  | none => (.ebadf, s)
  | some fd =>
    let flags := (s.files fd).flags
    (.success, s.point fd { s.files fd with
      flags := if val then flags ||| fdMask flag else flags &&& ~~~fdMask flag })

def execLoop : List Fd → Ftab Obj → Ftab Obj
  | [], s => s
  | fd :: fds, s =>
    execLoop fds (if (s.files fd).flags &&& fdMask 0 ≠ 0 then s.closeInternal fd else s)

def ftabExec : Code × Ftab Obj := (.success, execLoop (List.finRange maxOpenFiles) s)

def undo : Stray → Ftab Obj
  | .object i => s.counted i ((s.objects i).refCnt - 1)
  | .null => s
  | .elsewhere => s

def ftabCdup (source targ : ℤ) (alloc : Bool) (stray : Stray) : Code × Ftab Obj :=
  if alloc = false ∧ (targ < 0 ∨ maxOpenFiles ≤ targ) then (.einval, s.undo stray)
  else
    match slot source with
    | none => (.ebadf, s.undo stray)
    | some fd =>
      match (s.files fd).fp with
      | none => (.ebadf, s)
      | some i =>
        let s := s.counted i ((s.objects i).refCnt + 1)
        if alloc then
          match s.firstFree with
          | none => (.ebadf, s.counted i ((s.objects i).refCnt - 1))
          | some fd => (.success, s.point fd ⟨some i, 0⟩)
        else
          match slot targ with
          | none => (.ebadf, s.counted i ((s.objects i).refCnt - 1))
          | some fd => (.success, (s.closeInternal fd).point fd ⟨some i, 0⟩)

end Ftab

end MachUS.Ux

namespace MachUS.Ux

open List

inductive CloneRet where
  | success
  | noSuchOperation
  | failed (code : ℕ)
  deriving DecidableEq

def CloneRet.err : CloneRet → CloneRet
  | .noSuchOperation => .success
  | ret => ret

structure CloneCall where
  err : CloneRet
  inits : List Fp
  aborts : List Fp
  deriving DecidableEq

namespace Ftab

variable {Obj : Type} (s : Ftab Obj) (cloneInit : Fp → CloneRet)

def cloneLoop : List Fp → CloneRet → CloneRet × List Fp
  | [], err => (err, [])
  | f :: fs, _ =>
    let err := (cloneInit f).err
    if err ≠ .success then (err, [f])
    else
      let r := cloneLoop fs err
      (r.1, f :: r.2)

def ftabCloneInit (stray : CloneRet) : CloneCall :=
  let r := cloneLoop cloneInit s.inUse stray
  ⟨r.1, r.2, if r.1 ≠ .success then s.inUse else []⟩

variable {cloneInit} {fs : List Fp} {stray : CloneRet} {f : Fp}

theorem cloneLoop_success (h : ∀ f ∈ fs, (cloneInit f).err = .success) (hne : fs ≠ []) :
    (cloneLoop cloneInit fs stray).1 = .success := by
  induction fs generalizing stray with
  | nil => exact absurd rfl hne
  | cons f fs ih =>
    have hf : (cloneInit f).err = .success := h f mem_cons_self
    rw [cloneLoop]
    simp only [hf, ne_eq, not_true_eq_false, if_false]
    cases fs with
    | nil => rfl
    | cons g gs => exact ih (fun k hk => h k (mem_cons_of_mem f hk)) (cons_ne_nil g gs)

variable (cloneInit)

def cloned (c : CloneCall) : List Fp := c.inits.filter fun f => (cloneInit f).err = .success

structure AllOrNothing (c : CloneCall) : Prop where
  success : c.err = .success ↔ ∀ f ∈ s.inUse, (cloneInit f).err = .success
  undone : c.err ≠ .success → c.aborts.Perm (cloned cloneInit c)

-- No object refuses, and where there is none err happens to hold ERR_SUCCESS.
def Unrefused (stray : CloneRet) : Prop :=
  (∀ f ∈ s.inUse, (cloneInit f).err = .success) ∧ (s.inUse = [] → stray = .success)

variable {cloneInit}

theorem cloneLoop_asked (hfail : (cloneLoop cloneInit fs stray).1 ≠ .success) (hne : fs ≠ []) :
    ((cloneLoop cloneInit fs stray).2.filter fun f => (cloneInit f).err = .success).length < fs.length := by
  induction fs generalizing stray with
  | nil => exact absurd rfl hne
  | cons f fs ih =>
    rw [cloneLoop] at hfail ⊢
    by_cases hf : (cloneInit f).err = .success
    · simp only [hf, ne_eq, not_true_eq_false, if_false] at hfail ⊢
      rw [filter_cons_of_pos (by simpa using hf), length_cons, length_cons]
      cases fs with
      | nil => exact absurd rfl hfail
      | cons g gs => exact Nat.succ_lt_succ (ih hfail (cons_ne_nil g gs))
    · simp only [ne_eq, hf, not_false_eq_true, if_true]
      rw [filter_cons_of_neg (by simpa using hf)]
      exact Nat.succ_pos _

variable (cloneInit)

theorem clone_all_or_nothing_iff (stray : CloneRet) :
    s.AllOrNothing cloneInit (s.ftabCloneInit cloneInit stray) ↔ s.Unrefused cloneInit stray := by
  rcases eq_or_ne s.inUse [] with hnil | hne
  · have hcall : s.ftabCloneInit cloneInit stray = ⟨stray, [], []⟩ := by
      unfold ftabCloneInit
      rw [hnil, cloneLoop]
      simp
    have hall : ∀ f ∈ s.inUse, (cloneInit f).err = .success := by
      rw [hnil]
      simp
    rw [hcall]
    constructor
    · intro h
      exact ⟨hall, fun _ => h.success.mpr hall⟩
    · intro h
      exact ⟨iff_of_true (h.2 hnil) hall, fun hfail => absurd (h.2 hnil) hfail⟩
  · constructor
    · intro h
      refine ⟨?_, fun hnil => absurd hnil hne⟩
      by_contra hrefused
      have hfail : (cloneLoop cloneInit s.inUse stray).1 ≠ .success := mt h.success.mp hrefused
      have haborts : (s.ftabCloneInit cloneInit stray).aborts = s.inUse := if_pos hfail
      have hlength := (h.undone hfail).length_eq
      have hfewer := cloneLoop_asked hfail hne
      rw [haborts] at hlength
      exact absurd hlength.symm (ne_of_lt hfewer)
    · intro h
      have hsuccess : (s.ftabCloneInit cloneInit stray).err = .success := cloneLoop_success h.1 hne
      exact ⟨iff_of_true hsuccess h.1, fun hfail => absurd hsuccess hfail⟩

def pair : Ftab Bool :=
  (((create fun _ => ⟨0, none⟩).ftabAddObj false).2.ftabAddObj true).2

def secondRefuses (f : Fp) : CloneRet := if f = 1 then .failed 5 else .success

theorem refused_clone_aborts_all :
    pair.ftabCloneInit secondRefuses .success = ⟨.failed 5, [0, 1], [0, 1]⟩ ∧
      ¬ pair.AllOrNothing secondRefuses (pair.ftabCloneInit secondRefuses .success) := by
  have hcall : pair.ftabCloneInit secondRefuses .success = ⟨.failed 5, [0, 1], [0, 1]⟩ := by
    decide
  refine ⟨hcall, fun h => ?_⟩
  rw [hcall] at h
  have hlength := (h.undone (by decide)).length_eq
  cases hlength

end Ftab

end MachUS.Ux
