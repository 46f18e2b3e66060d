import MachUS.Foundation.Transition
import MachUS.Ux.Ftab

namespace MachUS.Ux

open Function Ftab List Option

namespace Ftab

variable {Obj : Type}

def pointing (files : Fd → Slot) (i : Fp) : ℕ :=
  (Finset.univ.filter fun fd => (files fd).fp = some i).card

def mark (p : Option Fp) (i : Fp) : ℤ := if p = some i then 1 else 0

@[simp] theorem mark_none (i : Fp) : mark none i = 0 := rfl

theorem mark_nonneg (p : Option Fp) (i : Fp) : 0 ≤ mark p i := by
  rw [mark]
  split_ifs <;> decide

theorem pointing_eq_sum (files : Fd → Slot) (i : Fp) :
    (pointing files i : ℤ) = ∑ fd, mark (files fd).fp i := by
  rw [pointing, Finset.card_filter, Nat.cast_sum]
  refine Finset.sum_congr rfl fun fd _ => ?_
  rw [mark]
  split_ifs <;> rfl

theorem pointing_update (files : Fd → Slot) (fd : Fd) (slot : Slot) (i : Fp) :
    (pointing (update files fd slot) i : ℤ) + mark (files fd).fp i =
      pointing files i + mark slot.fp i := by
  have hupdate : (fun j => mark (update files fd slot j).fp i) =
      update (fun j => mark (files j).fp i) fd (mark slot.fp i) := by
    funext j
    by_cases hj : j = fd
    · subst hj
      simp
    · simp [update_of_ne hj]
  have hsplit := Finset.add_sum_erase Finset.univ (fun j => mark (files j).fp i)
    (Finset.mem_univ fd)
  rw [pointing_eq_sum, pointing_eq_sum, hupdate, Finset.sum_update_of_mem (Finset.mem_univ fd),
    Finset.sdiff_singleton_eq_erase, ← hsplit]
  omega

theorem pointing_pos {files : Fd → Slot} {fd : Fd} {i : Fp} (h : (files fd).fp = some i) :
    0 < pointing files i :=
  Finset.card_pos.mpr ⟨fd, by simp [h]⟩

structure Valid [DecidableEq Obj] (s : Ftab Obj) : Prop where
  counts : ∀ i, (s.objects i).refCnt = pointing s.files i
  used : ∀ i, i ∈ s.inUse ↔ 0 < (s.objects i).refCnt
  unused : ∀ i, i ∈ s.free ↔ ¬0 < (s.objects i).refCnt
  refs : ∀ o, s.refs o = s.inUse.countP (fun i => (s.objects i).obj = some o) + s.given o

structure Inv [DecidableEq Obj] (extra : Fp → ℤ) (s : Ftab Obj) : Prop where
  counts : ∀ i, (s.objects i).refCnt = pointing s.files i + extra i
  spare : ∀ i, 0 ≤ extra i
  used : ∀ i, i ∈ s.inUse ↔ 0 < (s.objects i).refCnt
  unused : ∀ i, i ∈ s.free ↔ ¬0 < (s.objects i).refCnt
  once : s.inUse.Nodup
  freeOnce : s.free.Nodup
  loaded : ∀ i ∈ s.inUse, ∃ o, (s.objects i).obj = some o
  refs : ∀ o, s.refs o = s.inUse.countP (fun i => (s.objects i).obj = some o) + s.given o

@[simp] theorem counted_self (s : Ftab Obj) (i : Fp) (n : ℤ) :
    ((s.counted i n).objects i).refCnt = n := by
  simp [counted]

theorem counted_of_ne (s : Ftab Obj) {i j : Fp} (n : ℤ) (h : j ≠ i) :
    (s.counted i n).objects j = s.objects j := update_of_ne h _ _

@[simp] theorem counted_obj (s : Ftab Obj) (i j : Fp) (n : ℤ) :
    ((s.counted i n).objects j).obj = (s.objects j).obj := by
  by_cases hj : j = i
  · subst hj
    simp [counted]
  · rw [counted_of_ne s n hj]

namespace Inv

variable [DecidableEq Obj] {extra extra' : Fp → ℤ} {s : Ftab Obj} {fd : Fd} {i : Fp}

theorem used_of_fp (h : Inv extra s) (hfd : (s.files fd).fp = some i) :
    0 < (s.objects i).refCnt := by
  have := h.counts i
  have := h.spare i
  have := pointing_pos hfd
  omega

theorem point (h : Inv extra s) {slot : Slot} (hspare : ∀ j, 0 ≤ extra' j)
    (hmark : ∀ j, extra' j + mark slot.fp j = extra j + mark (s.files fd).fp j) :
    Inv extra' (s.point fd slot) := by
  refine ⟨fun j => ?_, hspare, h.used, h.unused, h.once, h.freeOnce, h.loaded, h.refs⟩
  have hc := h.counts j
  have hp := pointing_update s.files fd slot j
  have hm := hmark j
  simp only [Ftab.point]
  omega

theorem recount (h : Inv extra s) {n : ℤ} (hpos : 0 < (s.objects i).refCnt) (hn : 0 < n)
    (hspare : ∀ j, 0 ≤ extra' j) (hself : extra' i + (s.objects i).refCnt = extra i + n)
    (hother : ∀ j ≠ i, extra' j = extra j) : Inv extra' (s.counted i n) := by
  have hsame (j : Fp) : 0 < ((s.counted i n).objects j).refCnt ↔ 0 < (s.objects j).refCnt := by
    by_cases hj : j = i
    · subst hj
      rw [counted_self]
      exact iff_of_true hn hpos
    · rw [counted_of_ne s n hj]
  refine ⟨fun j => ?_, hspare, fun j => (h.used j).trans (hsame j).symm,
    fun j => (h.unused j).trans (not_congr (hsame j)).symm, h.once, h.freeOnce, ?_, ?_⟩
  · have hc := h.counts j
    by_cases hj : j = i
    · subst hj
      rw [counted_self]
      simp only [counted]
      omega
    · rw [counted_of_ne s n hj, hother j hj]
      exact hc
  · intro j hj
    rw [counted_obj]
    exact h.loaded j hj
  · intro o
    simp only [counted_obj]
    exact h.refs o

theorem release (h : Inv extra s) (hone : (s.objects i).refCnt = 1) (hextra : extra i = 1)
    (hspare : ∀ j, 0 ≤ extra' j) (hself : extra' i = 0) (hother : ∀ j ≠ i, extra' j = extra j) :
    let z := s.counted i 0
    let y := (z.objects i).obj.elim z z.dereference
    Inv extra' { y with inUse := y.inUse.erase i, free := y.free ++ [i] } := by
  intro z y
  have hmem : i ∈ s.inUse := (h.used i).mpr (by omega)
  obtain ⟨o, ho⟩ := h.loaded i hmem
  have hy : y = z.dereference o := by
    simp only [y, z, counted_obj, ho]
    rfl
  rw [hy]
  have hpos (j : Fp) : 0 < (z.objects j).refCnt ↔ j ≠ i ∧ 0 < (s.objects j).refCnt := by
    by_cases hj : j = i
    · subst hj
      simp [z]
    · simp [z, counted_of_ne s 0 hj, hj]
  refine ⟨fun j => ?_, hspare, fun j => ?_, fun j => ?_, h.once.erase i, ?_,
    fun j hj => ?_, fun q => ?_⟩
  · have hc := h.counts j
    by_cases hj : j = i
    · subst hj
      simp only [dereference, z, counted_self]
      simp only [counted]
      omega
    · simp only [dereference, z, counted_of_ne s 0 hj, hother j hj]
      exact hc
  · simp only [dereference]
    rw [hpos, ← h.used]
    exact h.once.mem_erase_iff
  · simp only [dereference]
    rw [hpos, mem_append, mem_singleton]
    change j ∈ s.free ∨ j = i ↔ _
    rw [h.unused j]
    tauto
  · have hnot : i ∉ s.free := fun hi => (h.unused i).mp hi (by omega)
    refine h.freeOnce.append (nodup_singleton i) fun j hj hji => hnot ?_
    rwa [← mem_singleton.mp hji]
  · simp only [dereference, z, counted_obj]
    exact h.loaded j (mem_of_mem_erase hj)
  · have hq := h.refs q
    have hcount := countP_erase (fun j => decide ((s.objects j).obj = some q)) s.inUse i
    have hpos : 0 < s.inUse.countP (fun j => decide ((s.objects j).obj = some o)) :=
      countP_pos_iff.mpr ⟨i, hmem, by simp [ho]⟩
    simp only [dereference, z, counted_obj]
    change update s.refs o (s.refs o - 1) q =
      ((s.inUse.erase i).countP (fun j => decide ((s.objects j).obj = some q)) : ℤ) + s.given q
    rw [hcount]
    by_cases hqo : q = o
    · subst hqo
      rw [update_self]
      simp only [hmem, ho, decide_true, and_self, if_true]
      omega
    · rw [update_of_ne hqo]
      have hne : ¬(some o = some q) := fun he => hqo (some.inj he).symm
      simp only [ho, hne, decide_false, Bool.false_eq_true, and_false, if_false]
      omega

theorem enlist (h : Inv (fun _ => 0) s) {free : List Fp} (hfree : s.free = i :: free)
    (hnone : (s.files fd).fp = none) (o : Obj) :
    Inv (fun _ => 0)
      { files := update s.files fd ⟨some i, 0⟩
        objects := update s.objects i ⟨1, some o⟩
        free := free
        inUse := s.inUse ++ [i]
        refs := update s.refs o (s.refs o + 1)
        given := s.given } := by
  have hzero : ¬0 < (s.objects i).refCnt := (h.unused i).mp (by simp [hfree])
  have hnot : i ∉ s.inUse := fun hi => hzero ((h.used i).mp hi)
  obtain ⟨hnotFree, honce⟩ : i ∉ free ∧ free.Nodup := nodup_cons.mp (hfree ▸ h.freeOnce)
  refine ⟨fun j => ?_, fun _ => le_refl 0, fun j => ?_, fun j => ?_, ?_, honce, fun j hj => ?_,
    fun q => ?_⟩
  · have hc := h.counts j
    have hp := pointing_update s.files fd ⟨some i, 0⟩ j
    rw [hnone, mark_none] at hp
    dsimp only at hp
    by_cases hj : j = i
    · subst hj
      have hself : mark (some j) j = 1 := by simp [mark]
      dsimp only
      rw [update_self]
      dsimp only
      omega
    · have hother : mark (some i) j = 0 := by simp [mark, Ne.symm hj]
      dsimp only
      rw [update_of_ne hj]
      omega
  · by_cases hj : j = i
    · subst hj
      simp
    · simp [hj, h.used j]
  · by_cases hj : j = i
    · subst hj
      simp [hnotFree]
    · have hu := h.unused j
      rw [hfree, mem_cons] at hu
      simp only [update_of_ne hj]
      tauto
  · refine h.once.append (nodup_singleton i) fun j hj hji => hnot ?_
    rwa [← mem_singleton.mp hji]
  · by_cases hji : j = i
    · subst hji
      exact ⟨o, by simp⟩
    · simp only [update_of_ne hji]
      refine h.loaded j ((mem_append.mp hj).resolve_right fun hm => ?_)
      exact hji (mem_singleton.mp hm)
  · have hold : s.inUse.countP (fun j => decide
        ((update s.objects i ⟨1, some o⟩ j).obj = some q)) =
        s.inUse.countP (fun j => decide ((s.objects j).obj = some q)) := by
      refine countP_congr fun j hj => ?_
      have hji : j ≠ i := fun he => hnot (he ▸ hj)
      rw [update_of_ne hji]
    have hq := h.refs q
    have hnew : [i].countP (fun j => decide
        ((update s.objects i ⟨1, some o⟩ j).obj = some q)) = if o = q then 1 else 0 := by
      simp
    dsimp only
    rw [countP_append, hold, hnew, Nat.cast_add]
    by_cases hqo : q = o
    · subst hqo
      rw [update_self, hq, if_pos rfl]
      exact add_right_comm _ _ _
    · rw [update_of_ne hqo, hq, if_neg (Ne.symm hqo)]
      simp

end Inv

end Ftab

namespace Ftab

variable {Obj : Type} {s : Ftab Obj} {fd : Fd}

theorem firstFree_fp (hfd : s.firstFree = some fd) : (s.files fd).fp = none :=
  isNone_iff_eq_none.mp (by simpa using find?_some hfd)

variable [DecidableEq Obj] {extra : Fp → ℤ} {i : Fp}

namespace Inv

theorem closeInternal (h : Inv extra s) (fd : Fd) : Inv extra (s.closeInternal fd) := by
  rw [Ftab.closeInternal]
  cases hfp : (s.files fd).fp with
  | none =>
    refine h.point h.spare fun j => ?_
    rw [hfp]
    rfl
  | some i =>
    have hpoint : Inv (fun j => extra j + mark (some i) j) (s.point fd closed) := by
      refine h.point (fun j => add_nonneg (h.spare j) (mark_nonneg _ j)) fun j => ?_
      rw [hfp]
      exact add_zero _
    have hpos : 0 < (s.objects i).refCnt := h.used_of_fp hfp
    have hspare := h.spare i
    have hself : mark (some i) i = 1 := by simp [mark]
    have hother : ∀ j ≠ i, extra j = extra j + mark (some i) j := by
      intro j hj
      have hne : ¬(some i = some j) := fun he => hj (some.inj he).symm
      simp [mark, hne.imp, Ne.symm hj]
    simp only [counted_self]
    by_cases hone : (s.objects i).refCnt = 1
    · have hextra : extra i + mark (some i) i = 1 := by
        have hc := hpoint.counts i
        have hn : (0 : ℤ) ≤ pointing (s.point fd closed).files i := Int.natCast_nonneg _
        simp only [Ftab.point] at hc hn
        omega
      have hzero : ((s.point fd closed).objects i).refCnt - 1 = 0 := by
        change (s.objects i).refCnt - 1 = 0
        omega
      rw [if_pos hzero, hzero]
      exact hpoint.release hone hextra h.spare (by omega) hother
    · have hne : ((s.point fd closed).objects i).refCnt - 1 ≠ 0 := by
        change (s.objects i).refCnt - 1 ≠ 0
        omega
      rw [if_neg hne]
      refine hpoint.recount hpos ?_ h.spare ?_ hother
      · change 0 < (s.objects i).refCnt - 1
        omega
      · omega

theorem execLoop (h : Inv extra s) (fds : List Fd) : Inv extra (execLoop fds s) := by
  induction fds generalizing s with
  | nil => exact h
  | cons fd fds ih =>
    rw [execLoop]
    split_ifs
    · exact ih (h.closeInternal fd)
    · exact ih h

theorem setFlags (h : Inv extra s) (fd : Fd) (flags : UInt32) :
    Inv extra (s.point fd { s.files fd with flags := flags }) :=
  h.point h.spare fun _ => rfl

theorem getObj (h : Inv extra s) (fd : ℤ) : Inv extra (s.ftabGetObj fd).2 := by
  rw [ftabGetObj]
  cases s.getFp fd with
  | none => exact h
  | some i =>
    cases ho : (s.objects i).obj with
    | none =>
      simp only [ho]
      exact h
    | some o =>
      simp only [ho]
      refine ⟨h.counts, h.spare, h.used, h.unused, h.once, h.freeOnce, h.loaded, fun q => ?_⟩
      have hq := h.refs q
      simp only [reference]
      by_cases hqo : q = o
      · subst hqo
        rw [update_self, update_self, hq]
        exact add_assoc _ _ _
      · rw [update_of_ne hqo, update_of_ne hqo]
        exact hq

theorem addObj (h : Inv (fun _ => 0) s) (o : Obj) : Inv (fun _ => 0) (s.ftabAddObj o).2 := by
  rw [ftabAddObj, falloc]
  cases hfree : s.free with
  | nil => exact h
  | cons i free =>
    cases hfd : s.firstFree with
    | none =>
      exact h
    | some fd =>
      have hy := h.enlist hfree (firstFree_fp hfd) o
      simpa [reference, Ftab.point, counted] using hy

theorem bump (h : Inv (fun _ => 0) s) (hpos : 0 < (s.objects i).refCnt) :
    Inv (mark (some i)) (s.counted i ((s.objects i).refCnt + 1)) := by
  refine h.recount hpos (by omega) (mark_nonneg _) ?_ fun j hj => ?_
  · have hself : mark (some i) i = 1 := by simp [mark]
    omega
  · simp [mark, Ne.symm hj]

theorem dup (h : Inv (mark (some i)) s) (hfd : (s.files fd).fp = none) :
    Inv (fun _ => 0) (s.point fd ⟨some i, 0⟩) := by
  refine h.point (fun _ => le_refl 0) fun j => ?_
  rw [hfd, mark_none]
  exact add_comm _ _

theorem valid (h : Inv (fun _ => 0) s) : s.Valid :=
  ⟨fun i => (h.counts i).trans (add_zero _), h.used, h.unused, h.refs⟩

end Inv

end Ftab

open Transition

namespace Ftab

variable {Obj : Type}

def Same (s s' : Ftab Obj) : Prop :=
  s'.files = s.files ∧ ∀ i, (s'.objects i).refCnt = (s.objects i).refCnt

instance (s s' : Ftab Obj) : Decidable (Same s s') := inferInstanceAs (Decidable (_ ∧ _))

theorem closeInternal_fp [DecidableEq Obj] (s : Ftab Obj) (fd : Fd) : ((s.closeInternal fd).files fd).fp = none := by
  rw [closeInternal]
  cases (s.files fd).fp with
  | none => simp [point, closed]
  | some i =>
    dsimp only
    split_ifs
    · cases (((s.point fd closed).counted i _).objects i).obj <;>
        simp [point, counted, dereference, closed]
    · simp [point, counted, closed]

end Ftab

inductive Call (Obj : Type) where
  | addObj (o : Obj)
  | getObj (fd : ℤ)
  | close (fd : ℤ)
  | cdup (source targ : ℤ) (alloc : Bool) (stray : Stray)
  | setFlag (fd flag : ℤ) (val : Bool)
  | exec

namespace Call

variable {Obj : Type} {s : Ftab Obj}

theorem undo_eq {stray : Stray} (h : ∀ i, stray ≠ .object i) : s.undo stray = s := by
  cases stray with
  | null => rfl
  | elsewhere => rfl
  | object i => exact absurd rfl (h i)

variable [DecidableEq Obj]

def run (s : Ftab Obj) : Call Obj → Code × Ftab Obj
  | .addObj o => s.ftabAddObj o
  | .getObj fd => s.ftabGetObj fd
  | .close fd => s.ftabClose fd
  | .cdup source targ alloc stray => s.ftabCdup source targ alloc stray
  | .setFlag fd flag val => s.ftabSetFlag fd flag val
  | .exec => s.ftabExec

def Unset (source targ : ℤ) (alloc : Bool) : Prop :=
  alloc = false ∧ (targ < 0 ∨ maxOpenFiles ≤ targ) ∨ slot source = none

instance (source targ : ℤ) (alloc : Bool) : Decidable (Unset source targ alloc) :=
  inferInstanceAs (Decidable (_ ∨ _))

def Harmless : Call Obj → Prop
  | .cdup source targ alloc stray => Unset source targ alloc → ∀ i, stray ≠ .object i
  | _ => True

theorem cdup_unset {source targ : ℤ} {alloc : Bool} (h : Unset source targ alloc) (stray : Stray) :
    ∃ code, code ≠ .success ∧ s.ftabCdup source targ alloc stray = (code, s.undo stray) := by
  rw [ftabCdup]
  by_cases hrange : alloc = false ∧ (targ < 0 ∨ maxOpenFiles ≤ targ)
  · rw [if_pos hrange]
    exact ⟨.einval, Code.noConfusion, rfl⟩
  · rw [if_neg hrange, h.resolve_left hrange]
    exact ⟨.ebadf, Code.noConfusion, rfl⟩

theorem cdup_inv (h : Ftab.Inv (fun _ => 0) s) {source targ : ℤ} {alloc : Bool} (stray : Stray)
    (hset : ¬Unset source targ alloc) :
    Ftab.Inv (fun _ => 0) (s.ftabCdup source targ alloc stray).2 ∧
      ((s.ftabCdup source targ alloc stray).1 ≠ .success →
        Same s (s.ftabCdup source targ alloc stray).2) := by
  rw [Unset, not_or] at hset
  rw [ftabCdup, if_neg hset.1]
  obtain ⟨fd, hfd⟩ := ne_none_iff_exists'.mp hset.2
  rw [hfd]
  dsimp only
  cases hfp : (s.files fd).fp with
  | none => exact ⟨h, fun _ => ⟨rfl, fun _ => rfl⟩⟩
  | some i =>
    have hpos := h.used_of_fp hfp
    have hback : (s.counted i ((s.objects i).refCnt + 1)).counted i
        (((s.counted i ((s.objects i).refCnt + 1)).objects i).refCnt - 1) = s := by
      simp [counted]
    cases alloc with
    | true =>
      simp only [if_true]
      cases hfree : (s.counted i ((s.objects i).refCnt + 1)).firstFree with
      | none =>
        rw [hback]
        exact ⟨h, fun _ => ⟨rfl, fun _ => rfl⟩⟩
      | some fd => exact ⟨(h.bump hpos).dup (firstFree_fp hfree), fun hc => absurd rfl hc⟩
    | false =>
      simp only [Bool.false_eq_true, if_false]
      cases slot targ with
      | none =>
        rw [hback]
        exact ⟨h, fun _ => ⟨rfl, fun _ => rfl⟩⟩
      | some fd =>
        exact ⟨((h.bump hpos).closeInternal fd).dup (closeInternal_fp _ fd),
          fun hc => absurd rfl hc⟩

theorem run_inv (h : Ftab.Inv (fun _ => 0) s) {c : Call Obj} (hc : c.Harmless) :
    Ftab.Inv (fun _ => 0) (c.run s).2 ∧ ((c.run s).1 ≠ .success → Same s (c.run s).2) := by
  cases c with
  | addObj o =>
    refine ⟨h.addObj o, fun hne => ?_⟩
    simp only [run, ftabAddObj] at hne ⊢
    cases hf : s.falloc with
    | none => exact ⟨rfl, fun _ => rfl⟩
    | some r => simp [hf] at hne
  | getObj fd =>
    refine ⟨h.getObj fd, fun hne => ?_⟩
    simp only [run, ftabGetObj] at hne ⊢
    cases hf : s.getFp fd with
    | none => exact ⟨rfl, fun _ => rfl⟩
    | some i =>
      cases ho : (s.objects i).obj <;> simp [hf, ho] at hne
  | close fd =>
    simp only [run, ftabClose]
    cases s.getFtab fd with
    | none => exact ⟨h, fun _ => ⟨rfl, fun _ => rfl⟩⟩
    | some fd => exact ⟨h.closeInternal fd, fun hne => absurd rfl hne⟩
  | cdup source targ alloc stray =>
    by_cases hset : Unset source targ alloc
    · obtain ⟨code, -, hrun⟩ := cdup_unset (s := s) hset stray
      simp only [run]
      rw [hrun, undo_eq (hc hset)]
      exact ⟨h, fun _ => ⟨rfl, fun _ => rfl⟩⟩
    · exact cdup_inv h stray hset
  | setFlag fd flag val =>
    simp only [run, ftabSetFlag]
    cases s.getFtab fd with
    | none => exact ⟨h, fun _ => ⟨rfl, fun _ => rfl⟩⟩
    | some fd => exact ⟨h.setFlags fd _, fun hne => absurd rfl hne⟩
  | exec => exact ⟨h.execLoop _, fun hne => absurd rfl hne⟩

theorem harmless_of_same {c : Call Obj}
    (h : (c.run s).1 ≠ .success → Same s (c.run s).2) : c.Harmless := by
  cases c with
  | cdup source targ alloc stray =>
    rintro hset i rfl
    obtain ⟨code, hcode, hrun⟩ := cdup_unset (s := s) hset (.object i)
    simp only [run] at h
    rw [hrun] at h
    have hsame := (h hcode).2 i
    simp only [undo, counted_self] at hsame
    omega
  | _ => trivial

end Call

structure World (Obj : Type) where
  table : Ftab Obj
  unchanged : Bool

namespace World

variable {Obj : Type} [DecidableEq Obj]

def boot (objects : Fp → FileObject Obj) : World Obj := ⟨.create objects, true⟩

def next (x : World Obj) (c : Call Obj) : Option (World Obj) :=
  some ⟨(c.run x.table).2,
    x.unchanged && decide ((c.run x.table).1 ≠ .success → Same x.table (c.run x.table).2)⟩

def Sound (x : World Obj) : Prop := x.table.Valid ∧ x.unchanged = true

def Inv (x : World Obj) : Prop := Ftab.Inv (fun _ => 0) x.table ∧ x.unchanged = true

theorem next_inv {x y : World Obj} {c : Call Obj} (hx : x.Inv) (hc : c.Harmless)
    (hy : x.next c = some y) : y.Inv := by
  cases hy
  obtain ⟨hinv, hsame⟩ := Call.run_inv hx.1 hc
  exact ⟨hinv, by simp only [hx.2, Bool.true_and]; exact decide_eq_true hsame⟩

theorem harmless_of_sound {x y : World Obj} {c : Call Obj} (hy : x.next c = some y)
    (hq : y.Sound) : c.Harmless := by
  cases hy
  have hflag := (Bool.and_eq_true_iff.mp hq.2).2
  exact Call.harmless_of_same (of_decide_eq_true hflag)

theorem boot_inv {objects : Fp → FileObject Obj} (h : ∀ i, (objects i).refCnt = 0) :
    (boot objects).Inv := by
  refine ⟨⟨fun i => ?_, fun _ => le_refl 0, fun i => ?_, fun i => ?_, nodup_nil,
    nodup_finRange _, nofun, fun _ => rfl⟩, rfl⟩
  · have hzero : Ftab.pointing (fun _ => Ftab.closed) i = 0 := by
      simp [Ftab.pointing, Ftab.closed]
    simp only [boot, Ftab.create, h i, hzero]
    rfl
  · simp [boot, Ftab.create, h i]
  · simp [boot, Ftab.create, h i]

theorem zero_of_sound {objects : Fp → FileObject Obj} (h : (boot objects).Sound) (i : Fp) :
    (objects i).refCnt = 0 := by
  have hc := h.1.counts i
  have hzero : Ftab.pointing (fun _ => Ftab.closed) i = 0 := by
    simp [Ftab.pointing, Ftab.closed]
  exact hc

theorem exec_total (x : World Obj) (cs : List (Call Obj)) : ∃ y, exec next x cs = some y := by
  induction cs generalizing x with
  | nil => exact ⟨x, rfl⟩
  | cons c cs ih => exact ih _

theorem admits_iff {x : World Obj} {cs : List (Call Obj)} :
    Admits next (fun _ c => c.Harmless) x cs ↔ ∀ c ∈ cs, c.Harmless := by
  induction cs generalizing x with
  | nil => simp [Admits]
  | cons c cs ih =>
    rw [forall_mem_cons]
    constructor
    · intro ⟨hc, hcs⟩
      exact ⟨hc, ih.mp (hcs _ rfl)⟩
    · intro ⟨hc, hcs⟩
      exact ⟨hc, fun _ _ => ih.mpr hcs⟩

theorem sound_of_throughout {x : World Obj} {cs : List (Call Obj)}
    (h : Throughout next Sound x cs) : x.Sound := by
  cases cs with
  | nil => exact h
  | cons c cs => exact h.1

end World

theorem descriptor_table_iff {Obj : Type} [DecidableEq Obj] (objects : Fp → FileObject Obj)
    (cs : List (Call Obj)) :
    Throughout World.next World.Sound (.boot objects) cs ↔
      (∀ i, (objects i).refCnt = 0) ∧ ∀ c ∈ cs, c.Harmless := by
  obtain ⟨y, hrun⟩ := World.exec_total (.boot objects) cs
  have hiff (hzero : ∀ i, (objects i).refCnt = 0) :
      Throughout World.next World.Sound (.boot objects) cs ↔ ∀ c ∈ cs, c.Harmless := by
    rw [← World.admits_iff (x := .boot objects)]
    exact throughout_iff (I := World.Inv) (fun _ h => ⟨h.1.valid, h.2⟩)
      (fun _ _ _ hx hc hy => World.next_inv hx hc hy)
      (fun _ _ _ _ hy hq => World.harmless_of_sound hy hq) (World.boot_inv hzero) hrun
  constructor
  · intro h
    have hzero := World.zero_of_sound (World.sound_of_throughout h)
    exact ⟨hzero, (hiff hzero).mp h⟩
  · exact fun ⟨hzero, hcs⟩ => (hiff hzero).mpr hcs

theorem failed_dup_drops_count : ∃ y : World Unit,
    exec World.next (.boot fun _ => ⟨0, none⟩) [.addObj (), .cdup 64 0 true (.object 0)] = some y ∧
    (y.table.files 0).fp = some 0 ∧ (y.table.objects 0).refCnt = 0 ∧ ¬y.Sound := by
  have h : check World.next (.boot fun _ => ⟨0, none⟩)
      [.addObj (), .cdup 64 0 true (.object 0)] (fun y : World Unit =>
        decide ((y.table.files 0).fp = some 0) && decide ((y.table.objects 0).refCnt = 0)) = true := by
    decide +kernel
  obtain ⟨y, hy, ht⟩ := exec_of_check h
  rw [Bool.and_eq_true, decide_eq_true_eq, decide_eq_true_eq] at ht
  refine ⟨y, hy, ht.1, ht.2, fun hs => ?_⟩
  have hc := hs.1.counts 0
  have hpos := pointing_pos ht.1
  omega

end MachUS.Ux
