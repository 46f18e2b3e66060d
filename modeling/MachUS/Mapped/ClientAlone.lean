import MachUS.Mapped.ClientRuns

namespace MachUS.Mapped

open Relation Transition Function Option
open Io (Dlong)

namespace MfMem

variable {x y : MfMem} {p : PageSize} {s : ℕ} {mode : IoMode} {data : List UInt8} {size : Dlong}
  {answer : Except ℕ ℕ} {r : Reply} {e : Event}

theorem close_objSize {old : Option (ℕ × ℕ)} : (x.close old).objSize = x.objSize := by
  cases old <;> rfl

theorem ioStore_size (hprobe : mode.probe = false)
    (hy : x.ioStore p mode s data size answer = some (y, r)) :
    (r = .moved data.length [] ∧ y.objSize = size) ∨ (∃ err, r = .failed err) ∧ y.objSize = x.objSize := by
  simp only [ioStore, hprobe, Bool.false_eq_true, if_false] at hy
  split_ifs at hy with haccess
  · cases some.inj hy
    exact .inr ⟨⟨_, rfl⟩, rfl⟩
  · simp only [withWindow] at hy
    split_ifs at hy with hin
    · cases some.inj hy
      exact .inl ⟨rfl, rfl⟩
    · cases answer with
      | error k =>
        cases some.inj hy
        exact .inr ⟨⟨_, rfl⟩, close_objSize⟩
      | ok a =>
        simp only at hy
        split_ifs at hy with hfree
        cases some.inj hy
        exact .inl ⟨rfl, close_objSize⟩

end MfMem

namespace Users

variable {T K : Type}

def fitting (size : Dlong) (mode : IoMode) (data : List UInt8) : Prop :=
  mode.probe = false ∧ size.value + data.length < 2 ^ 63 ∧ data.length < 2 ^ 32

def Alone (k : K) (x : Users T K) : Action T K → Prop
  | .start i _ size => i = k ∧ ((x.client k).ready = false → size = x.mgr.objSize)
  | .fork _ _ => False
  | .call _ _ c => (∀ t, x.phase t = .idle) ∧
    match c with
    | .write mode start data => fitting start mode data
    | .append mode data => fitting x.mgr.objSize mode data
    | _ => True
  | .act _ w => w.executed = true → w.error = none

def Follows (x : Users T K) (k : K) : Phase K → Prop
  | .idle => (x.client k).sizeGuess = x.mgr.objSize
  | .deciding i mode start data => i = k ∧ (x.client k).sizeGuess = x.mgr.objSize ∧
    fitting start mode data
  | .entering i mode start data => i = k ∧ (x.client k).sizeGuess = x.mgr.objSize ∧
    start = x.mgr.objSize ∧ fitting start mode data
  | .sent i m => i = k ∧ (x.client k).sizeGuess = x.mgr.objSize ∧
    match m with
    | .write mode start data => fitting start mode data
    | .append mode data instead => fitting x.mgr.objSize mode data ∧
      ∀ start, instead = some start → start = x.mgr.objSize
    | _ => True
  | .answered i m r => i = k ∧ (learns true (x.client k) m r).sizeGuess = x.mgr.objSize

structure Tracks (k : K) (x : Users T K) : Prop where
  busy : ∀ t u, x.phase t ≠ .idle → x.phase u ≠ .idle → t = u
  unused : ∀ i, (x.client i).ready = true → i = k
  clone : (x.client k).clone = false
  waits : (x.client k).ready = false → ∀ t, x.phase t = .idle
  follows : (x.client k).ready = true → ∀ t, (∀ u, u ≠ t → x.phase u = .idle) → x.Follows k (x.phase t)

variable {x y : Users T K} {p : PageSize} {t : T} {k : K} {q : Phase K} {m : Message} {r : Reply}
  {w : Wire} {e : Action T K}

section

variable (h : x.Tracks k) (hp : x.phase t = q) (hq : q ≠ .idle)

include h hp hq

theorem Tracks.others : ∀ u, u ≠ t → x.phase u = .idle := by
  intro u hu
  by_contra hbusy
  exact hu (h.busy u t hbusy (hp ▸ hq))

theorem Tracks.ready : (x.client k).ready = true := by
  by_contra hnot
  exact hq (hp.symm.trans (h.waits (Bool.eq_false_iff.mpr hnot) t))

theorem Tracks.now : x.Follows k q :=
  hp ▸ h.follows (h.ready hp hq) t (h.others hp hq)

end

theorem Tracks.met (h : x.Tracks k) : Met x e := by
  cases e with
  | act t w =>
    rw [Met]
    split
    · next i mode data start hp =>
      obtain ⟨-, -, ⟨hprobe, hend, hlength⟩, hstart⟩ := h.now hp (by simp)
      obtain rfl := hstart start rfl
      exact fun _ => .inr ⟨rfl, hend, hlength⟩
    · trivial
  | start _ _ _ | fork _ _ | call _ _ _ => trivial

theorem learns_size {c : Client} {s : ℕ} : (learns true c m (.size s)).sizeGuess = c.sizeGuess := rfl

theorem serve_tracks {z z' : MfMem} {c : Client} (hguess : c.sizeGuess = z.objSize)
    (hm : match m with
      | .write mode start data => fitting start mode data
      | .append mode data instead => fitting z.objSize mode data ∧
        ∀ start, instead = some start → start = z.objSize
      | _ => True) {answer : Except ℕ ℕ} (hz : z.serve p ⟨m.request, answer⟩ = some (z', r)) :
    (learns true c m r).sizeGuess = z'.objSize := by
  cases m with
  | write mode start data =>
    change z.ioWrite p mode start data answer = _ at hz
    rw [MfMem.ioWrite] at hz
    rcases MfMem.ioStore_size hm.1 hz with ⟨rfl, hsize⟩ | ⟨⟨err, rfl⟩, hsize⟩
    · rw [hsize]
      simp only [learns, guessed, hguess, Bool.true_and, decide_eq_true_eq]
    · rw [hsize]
      exact hguess
  | append mode data instead =>
    change z.ioAppend p mode data answer = _ at hz
    rw [MfMem.ioAppend] at hz
    rcases MfMem.ioStore_size hm.1.1 hz with ⟨rfl, hsize⟩ | ⟨⟨err, rfl⟩, hsize⟩
    · rw [hsize]
      simp only [learns, guessed, hguess, if_true]
    · rw [hsize]
      exact hguess
  | setSize size =>
    change some (z.ioSetSize size) = _ at hz
    unfold MfMem.ioSetSize at hz
    split_ifs at hz
    · cases some.inj hz
      exact hguess
    · cases some.inj hz
      rfl
  | getSize =>
    change some z.ioGetSize = _ at hz
    unfold MfMem.ioGetSize at hz
    split_ifs at hz
    · cases some.inj hz
      exact hguess
    · cases some.inj hz
      rw [learns_size]
      exact hguess

theorem Tracks.moves [DecidableEq T] (hothers : ∀ u, u ≠ t → x.phase u = .idle)
    (hphase : y.phase = update x.phase t q)
    (hunused : ∀ i, (y.client i).ready = true → i = k) (hclone : (y.client k).clone = false)
    (hready : (y.client k).ready = true) (hfollows : y.Follows k q) : y.Tracks k := by
  have hself : y.phase t = q := by rw [hphase, update_self]
  have hidle (u : T) (hu : u ≠ t) : y.phase u = .idle := by
    rw [hphase, update_of_ne hu]
    exact hothers u hu
  have hbusy (u : T) (hu : y.phase u ≠ .idle) : u = t := by
    by_contra hne
    exact hu (hidle u hne)
  refine ⟨fun u v hu hv => (hbusy u hu).trans (hbusy v hv).symm, hunused, hclone,
    fun hnot => absurd (hnot.symm.trans hready) Bool.false_ne_true, fun _ v hv => ?_⟩
  rcases eq_or_ne v t with rfl | hne
  · rw [hself]
    exact hfollows
  · have hq : q = .idle := hself.symm.trans (hv t hne.symm)
    rw [hidle v hne]
    exact hq ▸ hfollows

theorem Tracks.amend [DecidableEq K] (h : x.Tracks k) {f : Client → Client} (hready : (f (x.client k)).ready = true)
    (hclone : (f (x.client k)).clone = (x.client k).clone) :
    (∀ i, ((x.amend k f).client i).ready = true → i = k) ∧
      ((x.amend k f).client k).clone = false ∧ ((x.amend k f).client k).ready = true := by
  have hself : (x.amend k f).client k = f (x.client k) := update_self ..
  refine ⟨fun i hi => ?_, ?_, ?_⟩
  · by_contra hne
    have hother : (x.amend k f).client i = x.client i := update_of_ne hne ..
    exact hne (h.unused i (hother ▸ hi))
  · rw [hself, hclone]
    exact h.clone
  · rw [hself]
    exact hready

theorem Tracks.call [DecidableEq T] (h : x.Tracks k) (hidle : ∀ u, x.phase u = .idle)
    (hready : (x.client k).ready = true) {c : Call}
    (hc : match c with
      | .write mode start data => fitting start mode data
      | .append mode data => fitting x.mgr.objSize mode data
      | _ => True) : (x.call t k c).Tracks k := by
  have hguess : (x.client k).sizeGuess = x.mgr.objSize := by
    have := h.follows hready t fun u _ => hidle u
    rwa [hidle t] at this
  have hgoes {q : Phase K} (hq : x.Follows k q) : (x.goes t q).Tracks k :=
    Tracks.moves (fun u _ => hidle u) rfl h.unused h.clone hready hq
  have hback {r : Reply} : (x.back t r).Tracks k :=
    Tracks.moves (q := .idle) (fun u _ => hidle u) rfl h.unused h.clone hready hguess
  cases c with
  | read start num =>
    simp only [Users.call]
    split_ifs
    · exact hback
    · exact hgoes ⟨rfl, hguess, trivial⟩
    · exact h
  | write mode start data =>
    simp only [Users.call]
    split_ifs
    · exact hback
    · exact hgoes ⟨rfl, hguess, hc⟩
  | append mode data =>
    simp only [Users.call]
    split_ifs
    · exact hback
    · exact hgoes ⟨rfl, hguess, hc, fun start hstart => by cases hstart⟩
  | setSize size =>
    simp only [Users.call]
    split_ifs
    · exact hback
    · exact hgoes ⟨rfl, hguess, trivial⟩
  | getSize =>
    simp only [Users.call]
    split_ifs
    · exact hback
    · exact hgoes ⟨rfl, hguess, trivial⟩

variable {object : Memory.Mem} {size : Dlong}

theorem boot_tracks : (boot size object : Users T K).Tracks k :=
  ⟨fun _ _ ht => (ht rfl).elim, fun _ hready => Bool.noConfusion hready, rfl, fun _ _ => rfl,
    fun hready => Bool.noConfusion hready⟩

variable [DecidableEq T] [DecidableEq K]

theorem Tracks.act (h : x.Tracks k) (halone : w.executed = true → w.error = none)
    (hy : next true p x (.act t w) = some y) : y.Tracks k := by
  cases hp : x.phase t with
  | idle =>
    simp only [next, hp] at hy
    cases hy
  | deciding i mode start data =>
    simp only [next, hp] at hy
    cases hy
    have hothers := h.others hp (by simp)
    have hready := h.ready hp (by simp)
    obtain ⟨rfl, hguess, hfits⟩ := h.now hp (by simp)
    unfold choose
    split_ifs with hend
    · have hstart : start = (x.client i).sizeGuess := by
        simp only [Bool.and_eq_true, decide_eq_true_eq] at hend
        exact Dlong.eq_of_cmp hend.2
      exact Tracks.moves hothers rfl h.unused h.clone hready ⟨rfl, hguess, hstart.trans hguess, hfits⟩
    · obtain ⟨hunused, hclone, hready⟩ := h.amend (f := fun c => { c with eofWriteAsAppend := false })
        hready rfl
      refine Tracks.moves hothers rfl hunused hclone hready ⟨rfl, ?_, hfits⟩
      change (update x.client i _ i).sizeGuess = _
      rw [update_self]
      exact hguess
  | entering i mode start data =>
    simp only [next, hp] at hy
    cases hy
    have hothers := h.others hp (by simp)
    have hready := h.ready hp (by simp)
    obtain ⟨rfl, hguess, rfl, hfits⟩ := h.now hp (by simp)
    unfold enter
    split_ifs
    · exact Tracks.moves (q := .idle) hothers rfl h.unused h.clone hready hguess
    · exact Tracks.moves hothers rfl h.unused h.clone hready
        ⟨rfl, hguess, hfits, fun _ hinstead => (some.inj hinstead).symm⟩
  | sent i m =>
    simp only [next, hp] at hy
    have hothers := h.others hp (by simp)
    have hready := h.ready hp (by simp)
    obtain ⟨rfl, hguess, hm⟩ := h.now hp (by simp)
    unfold send at hy
    split_ifs at hy with hexecuted
    · obtain ⟨⟨z, r⟩, hz, rfl⟩ := map_eq_some_iff.mp hy
      rw [halone hexecuted]
      exact Tracks.moves hothers rfl h.unused h.clone hready ⟨rfl, serve_tracks hguess hm hz⟩
    · obtain ⟨code, -, rfl⟩ := map_eq_some_iff.mp hy
      exact Tracks.moves hothers rfl h.unused h.clone hready ⟨rfl, hguess⟩
  | answered i m r =>
    simp only [next, hp] at hy
    cases hy
    have hothers := h.others hp (by simp)
    have hready := h.ready hp (by simp)
    obtain ⟨rfl, hguess⟩ := h.now hp (by simp)
    have hkept : (learns true (x.client i) m r).ready = (x.client i).ready ∧
        (learns true (x.client i) m r).clone = (x.client i).clone := by
      unfold learns
      split
      · exact ⟨rfl, rfl⟩
      · split <;> exact ⟨rfl, rfl⟩
      · exact ⟨rfl, rfl⟩
      · exact ⟨rfl, rfl⟩
    obtain ⟨hunused, hclone, hready⟩ := h.amend (f := fun c => learns true c m r)
      (hkept.1.trans hready) hkept.2
    refine Tracks.moves (q := .idle) hothers rfl hunused hclone hready ?_
    change (update x.client i _ i).sizeGuess = _
    rw [update_self]
    exact hguess

theorem Tracks.next (h : x.Tracks k) (halone : Alone k x e) (hy : next true p x e = some y) :
    y.Tracks k := by
  cases e with
  | start i access size =>
    obtain ⟨rfl, hsize⟩ := halone
    cases hy
    unfold startUser
    split_ifs with hready
    · exact h
    · have hnot : (x.client i).ready = false := Bool.eq_false_iff.mpr hready
      have hidle := h.waits hnot
      obtain ⟨hunused, hclone, hready⟩ := h.amend (f := fun c =>
        { c with
          ready := true
          access := access
          objSize := size
          sizeGuess := if c.clone then c.sizeGuess else size
          eofWriteAsAppend := if c.clone then c.eofWriteAsAppend else true }) rfl rfl
      refine ⟨fun u v hu _ => (hu (hidle u)).elim, hunused, hclone,
        fun hfalse => absurd (hfalse.symm.trans hready) Bool.false_ne_true, fun _ t _ => ?_⟩
      change Follows _ i (x.phase t)
      rw [hidle t]
      change (update x.client i _ i).sizeGuess = x.mgr.objSize
      rw [update_self]
      rw [h.clone]
      exact hsize hnot
  | fork _ _ => exact halone.elim
  | call t i c =>
    simp only [next, halone.1 t] at hy
    split_ifs at hy with hready
    cases hy
    obtain rfl := h.unused i hready
    exact h.call halone.1 hready halone.2
  | act t w => exact h.act halone hy

section

variable (hrun : ReflTransGen (Under (next true p) (Alone k)) (boot size object) x)

include hrun

theorem alone_tracks : x.Tracks k :=
  Transition.invariant (fun _ _ _ hx he hy => hx.next he hy) hrun boot_tracks

theorem alone_met : ReflTransGen (Under (next true p) Met) (boot size object) x := by
  induction hrun with
  | refl => exact .refl
  | tail hrun hmove ih =>
    obtain ⟨e, -, hy⟩ := hmove
    exact ih.tail ⟨e, (alone_tracks hrun).met, hy⟩

end

instance decidableMet : Decidable (Met x e) := by
  unfold Met
  split
  · split <;> infer_instance
  · infer_instance

def writable : Rights := ⟨true, true, false⟩

def carriedOut : Wire := ⟨true, .ok 4096, none⟩

def growing : List (Action Bool Bool) :=
  [.start true writable .zero, .start false writable .zero,
    .call true true (.write ⟨false, false⟩ .zero [1, 2, 3]), .act true carriedOut,
    .act true carriedOut, .call false false (.read .zero 2), .act false carriedOut,
    .act true carriedOut, .act false carriedOut, .act true carriedOut,
    .call false false (.write ⟨false, false⟩ (.ofUInt 1) [9]), .act false carriedOut,
    .act false carriedOut, .act false carriedOut]

def overtaken : List (Action Bool Bool) :=
  [.start true writable .zero, .start false writable .zero,
    .call true true (.write ⟨false, false⟩ .zero [1, 2, 3]), .act true carriedOut,
    .act true carriedOut, .act true carriedOut, .act true carriedOut,
    .call false false (.write ⟨false, false⟩ .zero [9]), .act false carriedOut,
    .act false carriedOut, .act false carriedOut, .act false carriedOut]

end Users

end MachUS.Mapped
