import MachUS.Naming.PrefixTable
import Mathlib.Data.List.TakeWhile

namespace MachUS.Naming

open List Cleaning

def Cleaning.Fits (pathsize compsize : ℕ) (k : Cleaning) : Prop :=
  k.ps < pathsize ∧ k.cs < compsize

instance (pathsize compsize : ℕ) (k : Cleaning) : Decidable (k.Fits pathsize compsize) :=
  inferInstanceAs (Decidable (_ ∧ _))

def Cleaning.written (pathsize compsize : ℕ) (k : Cleaning) : List UInt8 :=
  if k.Fits pathsize compsize then k.out ++ [0] else k.out

def cleanInto (pathsize compsize : ℕ) (inpath : Path) : Cleaning :=
  cleanLoop pathsize compsize inpath.length inpath
    (if inpath.head? = some slash then ⟨[slash], 1, 0⟩ else ⟨[], 0, 0⟩)

def components (p : Path) : List Path :=
  (p.splitOn slash).filter fun c => c ≠ [] ∧ c ≠ [dot]

def EndsSlashed (p : Path) : Prop := [slash] <:+ p ∨ [slash, dot] <:+ p

instance (p : Path) : Decidable (EndsSlashed p) := inferInstanceAs (Decidable (_ ∨ _))

def withSlash (p : Path) : Path := if p.getLast? = some slash then p else p ++ [slash]

def leading (p : Path) : Path := if p.head? = some slash then [slash] else []

def normalized (blank : Path → Bool) (p : Path) : Path :=
  if blank p then []
  else
    let out := leading p ++ [slash].intercalate (components p)
    if EndsSlashed p then withSlash out else out

def namedBlank (p : Path) : Bool := p ∈ [[], [dot], [dot, slash]]

def relativeBlank (p : Path) : Bool := leading p = [] && components p = []

example : normalized relativeBlank [slash, 97, slash, slash, dot, slash, 98, slash, dot] =
    [slash, 97, slash, 98, slash] := by decide +kernel

theorem components_nil : components [] = [] := rfl

theorem components_append_slash (p q : Path) :
    components (p ++ slash :: q) = components p ++ components q := by
  simp [components, splitOn_append_cons_of_beq]

theorem components_slash (p : Path) : components (slash :: p) = components p :=
  components_append_slash [] p

theorem components_word {w : Path} (hw : slash ∉ w) :
    components w = if w = [] ∨ w = [dot] then [] else [w] := by
  rw [components, splitOn_eq_singleton hw]
  by_cases h : w = [] ∨ w = [dot]
  · rcases h with rfl | rfl <;> rfl
  · have hproper : w ≠ [] ∧ w ≠ [dot] := not_or.mp h
    simp [hproper]

def Stops (r : Path) : Prop := r = [] ∨ ∃ r', r = slash :: r'

theorem components_word_append (w : Path) {r : Path} (hr : Stops r) :
    components (w ++ r) = components w ++ components r := by
  rcases hr with rfl | ⟨r', rfl⟩
  · simp [components_nil]
  · rw [components_append_slash, components_slash]

theorem slash_notMem_of_mem_splitOn {p c : Path} (h : c ∈ p.splitOn slash) : slash ∉ c := by
  induction p generalizing c with
  | nil => simp_all
  | cons x p ih =>
    obtain ⟨d, ds, hp⟩ := exists_cons_of_ne_nil (splitOn_ne_nil slash p)
    rw [splitOn_cons_eq_if_modifyHead, hp] at h
    by_cases hx : x = slash
    · rw [if_pos (by simpa using hx)] at h
      rcases mem_cons.mp h with rfl | h
      · simp
      · exact ih (hp ▸ h)
    · rw [if_neg (by simpa using hx), modifyHead_cons] at h
      rcases mem_cons.mp h with rfl | h
      · have hd : slash ∉ d := ih (hp ▸ mem_cons_self)
        simpa [hd] using Ne.symm hx
      · exact ih (hp ▸ mem_cons_of_mem d h)

theorem mem_components {p c : Path} (h : c ∈ components p) : c ≠ [] ∧ c ≠ [dot] ∧ slash ∉ c := by
  obtain ⟨hmem, hc⟩ := mem_filter.mp h
  have hproper : c ≠ [] ∧ c ≠ [dot] := by simpa using hc
  exact ⟨hproper.1, hproper.2, slash_notMem_of_mem_splitOn hmem⟩

variable {p : Path}

theorem exists_last_slash (h : slash ∈ p) : ∃ a w, p = a ++ slash :: w ∧ slash ∉ w := by
  obtain ⟨w, a, hp, hw⟩ := eq_append_cons_of_mem (mem_reverse.mpr h)
  refine ⟨a.reverse, w.reverse, ?_, by simpa using hw⟩
  have hrev := congrArg reverse hp
  simpa using hrev

theorem eq_nil_of_last_slash {a b w : Path} (hw : slash ∉ w)
    (h : b ++ [slash] = a ++ slash :: w) : w = [] := by
  rcases eq_nil_or_concat w with rfl | ⟨v, x, rfl⟩
  · rfl
  · have hsplit : b ++ [slash] = (a ++ slash :: v) ++ [x] := by simpa using h
    have hx : slash = x := by simpa using (append_inj' hsplit rfl).2
    simp [hx] at hw

theorem endsSlashed_last {a w : Path} (hw : slash ∉ w) :
    EndsSlashed (a ++ slash :: w) ↔ w = [] ∨ w = [dot] := by
  constructor
  · rintro (⟨b, hb⟩ | ⟨b, hb⟩)
    · exact .inl (eq_nil_of_last_slash hw hb)
    · rcases eq_nil_or_concat w with rfl | ⟨v, x, rfl⟩
      · exact .inl rfl
      · have hsplit : (b ++ [slash]) ++ [dot] = (a ++ slash :: v) ++ [x] := by
          simpa [append_assoc] using hb
        obtain ⟨hb, hx⟩ := append_inj' hsplit rfl
        have hv : v = [] := eq_nil_of_last_slash (fun hv => hw (by simp [hv])) hb
        right
        simp_all
  · rintro (rfl | rfl)
    · exact .inl (suffix_append a [slash])
    · exact .inr (suffix_append a [slash, dot])

theorem endsSlashed_append (a r : Path) :
    EndsSlashed (a ++ slash :: r) ↔ EndsSlashed (slash :: r) := by
  obtain ⟨b, w, hr, hw⟩ := exists_last_slash (mem_cons_self : slash ∈ slash :: r)
  rw [hr, ← append_assoc, endsSlashed_last hw, endsSlashed_last hw]

theorem endsSlashed_of_no_components (h : components p = []) (hp : slash ∈ p) : EndsSlashed p := by
  obtain ⟨a, w, rfl, hw⟩ := exists_last_slash hp
  rw [components_append_slash, append_eq_nil_iff, components_word hw] at h
  rw [endsSlashed_last hw]
  by_contra hproper
  simp [hproper] at h

theorem not_endsSlashed_word {w : Path} (hw : slash ∉ w) : ¬EndsSlashed w := by
  rintro (h | h) <;> exact hw (h.subset (by simp))

def joint (out : Path) : Path :=
  if out ≠ [] ∧ out.getLast? ≠ some slash then out ++ [slash] else out

def finished (out ip : Path) : Path :=
  if ip = [] then out
  else
    joint out ++ [slash].intercalate (components ip) ++
      (if components ip ≠ [] ∧ EndsSlashed ip then [slash] else [])

theorem joint_joint (out : Path) : joint (joint out) = joint out := by
  unfold joint
  split_ifs with h h' <;> simp_all

theorem joint_append_word (out : Path) {w : Path} (hw : slash ∉ w) (hne : w ≠ []) :
    joint (out ++ w) = out ++ w ++ [slash] := by
  obtain ⟨v, x, rfl⟩ := (eq_nil_or_concat w).resolve_left hne
  have hx : x ≠ slash := by
    rintro rfl
    simp at hw
  simp [joint, hx]

theorem finished_nil (out : Path) : finished out [] = out := rfl

theorem finished_joint (out : Path) {ip : Path} (hip : ip ≠ []) :
    finished (joint out) ip = finished out ip := by
  rw [finished, finished, if_neg hip, if_neg hip, joint_joint]

theorem finished_blank (out : Path) {ip : Path} (hip : ip ≠ []) (h : components ip = []) :
    finished out ip = joint out := by
  simp [finished, hip, h]

theorem finished_skip (out s : Path) {r : Path} (hs : components s = []) (hr : Stops r)
    (hne : s ++ r ≠ []) : finished out (s ++ r) = finished (joint out) r := by
  rcases hr with rfl | ⟨r', rfl⟩
  · rw [append_nil, finished_nil]
    exact finished_blank out (by simpa using hne) hs
  · simp [finished, components_append_slash, components_slash, hs, endsSlashed_append, joint_joint]

theorem intercalate_cons (c : Path) (cs : List Path) :
    [slash].intercalate (c :: cs) =
      c ++ if cs = [] then [] else slash :: [slash].intercalate cs := by
  cases cs <;> simp [intercalate_cons_cons]

theorem components_slashes {s : Path} (hs : ∀ c ∈ s, c = slash) (p : Path) :
    components (s ++ p) = components p := by
  induction s with
  | nil => rfl
  | cons c s ih =>
    obtain ⟨rfl, hrest⟩ := forall_mem_cons.mp hs
    rw [cons_append, components_slash]
    exact ih hrest

theorem not_endsSlashed_slashes {s w : Path} (hs : ∀ c ∈ s, c = slash) (hw : slash ∉ w)
    (hproper : w ≠ [] ∧ w ≠ [dot]) : ¬EndsSlashed (s ++ w) := by
  rcases eq_nil_or_concat s with rfl | ⟨t, c, rfl⟩
  · exact not_endsSlashed_word hw
  · have hc : c = slash := hs c (by simp)
    have hsplit : t.concat c ++ w = t ++ slash :: w := by simp [hc]
    rw [hsplit, endsSlashed_last hw]
    exact not_or.mpr hproper

theorem finished_word (out : Path) {s w r : Path} (hs : ∀ c ∈ s, c = slash) (hw : slash ∉ w)
    (hproper : w ≠ [] ∧ w ≠ [dot]) (hr : Stops r) :
    finished out (s ++ (w ++ r)) = finished (joint out ++ w) r := by
  have hcomp : components (s ++ (w ++ r)) = w :: components r := by
    rw [components_slashes hs, components_word_append w hr, components_word hw,
      if_neg (not_or.mpr hproper)]
    rfl
  have hne : s ++ (w ++ r) ≠ [] := by simp [hproper.1]
  rw [finished, if_neg hne, hcomp, intercalate_cons]
  rcases hr with rfl | ⟨r', rfl⟩
  · have hends := not_endsSlashed_slashes hs hw hproper
    simp [hends, components_nil, finished_nil]
  · have hends : EndsSlashed (s ++ (w ++ slash :: r')) ↔ EndsSlashed (slash :: r') := by
      rw [← append_assoc, endsSlashed_append]
    rw [finished, if_neg (cons_ne_nil _ _), joint_append_word _ hw hproper.1]
    by_cases hnone : components (slash :: r') = []
    · have hlast := endsSlashed_of_no_components hnone mem_cons_self
      simp [hends, hnone, hlast]
    · simp [hends, hnone]

theorem length_le_joint (out : Path) : out.length ≤ (joint out).length := by
  unfold joint
  split_ifs <;> simp

theorem length_joint_le (out : Path) {ip : Path} (hip : ip ≠ []) :
    (joint out).length ≤ (finished out ip).length := by
  simp [finished, hip]

theorem length_le_finished (out ip : Path) : out.length ≤ (finished out ip).length := by
  by_cases hip : ip = []
  · simp [finished, hip]
  · exact Nat.le_trans (length_le_joint out) (length_joint_le out hip)

theorem split_slashes (p : Path) : ∃ s, (∀ c ∈ s, c = slash) ∧ p = s ++ p.dropWhile (· = slash) :=
  ⟨p.takeWhile (· = slash), fun _ hc => by simpa using mem_takeWhile_imp hc,
    (takeWhile_append_dropWhile).symm⟩

theorem split_word (p : Path) : ∃ w r, p = w ++ r ∧ slash ∉ w ∧ Stops r := by
  refine ⟨p.takeWhile (· ≠ slash), p.dropWhile (· ≠ slash), ?_, ?_, ?_⟩
  · exact (takeWhile_append_dropWhile).symm
  · intro hmem
    simpa using mem_takeWhile_imp hmem
  · rcases hr : p.dropWhile (· ≠ slash) with _ | ⟨c, r⟩
    · exact .inl rfl
    · have hne : p.dropWhile (· ≠ slash) ≠ [] := by
        rw [hr]
        exact cons_ne_nil c r
      have hc := head_dropWhile_not (· ≠ slash) hne
      simp only [hr, head_cons] at hc
      exact .inr ⟨r, by simpa using hc⟩

section Scanner

variable (pathsize compsize : ℕ)

structure Cleans (goal : Path) (cs : List Path) (k : Cleaning) : Prop where
  out : goal.length < pathsize → (∀ c ∈ cs, c.length < compsize) →
    k.Fits pathsize compsize ∧ k.out = goal
  refused : ¬(goal.length < pathsize ∧ ∀ c ∈ cs, c.length < compsize) → ¬k.Fits pathsize compsize
  bound : k.out.length ≤ pathsize

variable {pathsize compsize} {k : Cleaning}

theorem copyComponent_fits {w r : Path} (hw : slash ∉ w) (hr : Stops r)
    (hcs : k.cs + w.length < compsize) (hps : k.ps + w.length < pathsize) :
    copyComponent pathsize compsize (w ++ r) k =
      (r, ⟨k.out ++ w, k.ps + w.length, k.cs + w.length⟩) := by
  induction w generalizing k with
  | nil =>
    rcases hr with rfl | ⟨r', rfl⟩
    · simp [copyComponent]
    · simp [copyComponent]
  | cons c w ih =>
    obtain ⟨hc, hw⟩ := ne_and_not_mem_of_not_mem_cons hw
    rw [length_cons] at hcs hps
    rw [cons_append, copyComponent, if_neg (Ne.symm hc), if_pos (by omega), if_pos (by omega),
      ih hw (by dsimp only; omega) (by dsimp only; omega)]
    simp only [length_cons, append_assoc, cons_append, nil_append]
    congr 2 <;> omega

theorem copyComponent_refused {w r : Path} (hw : slash ∉ w)
    (hps : k.ps = k.out.length) (hfits : k.Fits pathsize compsize)
    (h : ¬(k.cs + w.length < compsize ∧ k.ps + w.length < pathsize)) :
    ∃ ip k', copyComponent pathsize compsize (w ++ r) k = (ip, k') ∧
      ¬k'.Fits pathsize compsize ∧ k'.out.length ≤ pathsize := by
  obtain ⟨hpath, hcomp⟩ := hfits
  induction w generalizing k with
  | nil => exact absurd ⟨hcomp, hpath⟩ h
  | cons c w ih =>
    obtain ⟨hc, hw⟩ := ne_and_not_mem_of_not_mem_cons hw
    rw [length_cons] at h
    rw [cons_append, copyComponent, if_neg (Ne.symm hc)]
    split_ifs with hcs hps'
    · exact ih hw (by simp [hps]) (by dsimp only; omega) hps' hcs
    · exact ⟨_, _, rfl, fun hfits => hps' hfits.1, by dsimp only; omega⟩
    · exact ⟨_, _, rfl, fun hfits => hcs hfits.2, by dsimp only; omega⟩

variable {ip : Path}

theorem cleanLoop_of_not_fits {n : ℕ}
    (h : ¬k.Fits pathsize compsize) : cleanLoop pathsize compsize n ip k = k := by
  cases n with
  | zero => rfl
  | succ n =>
    rw [cleanLoop, if_pos]
    by_contra hgoes
    obtain ⟨-, hps, hcs⟩ := by simpa only [not_or, not_not] using hgoes
    exact h ⟨hps, hcs⟩

theorem Cleans.unmoved (hps : k.ps = k.out.length) (hbound : k.out.length ≤ pathsize)
    (hcs : k.cs < compsize) : Cleans pathsize compsize k.out [] k where
  out := fun hlt _ => ⟨⟨hps ▸ hlt, hcs⟩, rfl⟩
  refused := fun hlong hfits => hlong ⟨hps ▸ hfits.1, by simp⟩
  bound := hbound

theorem Cleans.failed {goal : Path} {cs : List Path} (hk : ¬k.Fits pathsize compsize)
    (hlong : ¬(goal.length < pathsize ∧ ∀ c ∈ cs, c.length < compsize))
    (hbound : k.out.length ≤ pathsize) : Cleans pathsize compsize goal cs k where
  out := fun hlt hcs => absurd ⟨hlt, hcs⟩ hlong
  refused := fun _ => hk
  bound := hbound

theorem Cleans.cons {goal c : Path} {cs : List Path}
    (h : Cleans pathsize compsize goal cs k) (hc : c.length < compsize) :
    Cleans pathsize compsize goal (c :: cs) k where
  out := fun hlt hcs => h.out hlt fun d hd => hcs d (mem_cons_of_mem c hd)
  refused := fun hlong => h.refused fun hall =>
    hlong ⟨hall.1, forall_mem_cons.mpr ⟨hc, hall.2⟩⟩
  bound := h.bound

theorem goes (hip : ip ≠ []) (hfits : k.Fits pathsize compsize) :
    ¬(ip = [] ∨ ¬k.ps < pathsize ∨ ¬k.cs < compsize) := by
  simp [hip, hfits.1, hfits.2]

theorem cleanLoop_crowded {n : ℕ} (hip : ip ≠ [])
    (hfits : k.Fits pathsize compsize) (hwant : k.out ≠ [] ∧ k.out.getLast? ≠ some slash)
    (hps : ¬k.ps + 1 < pathsize) :
    cleanLoop pathsize compsize (n + 1) ip k = { k with ps := k.ps + 1 } := by
  rw [cleanLoop, if_neg (goes hip hfits)]
  exact if_pos ⟨hwant, hps⟩

theorem not_wanting {out : Path} (h : joint out = out) :
    ¬(out ≠ [] ∧ out.getLast? ≠ some slash) := by
  intro hwant
  rw [joint, if_pos hwant] at h
  simp at h

theorem cleanLoop_joint {n : ℕ} (hip : ip ≠ [])
    (hps : k.ps = k.out.length) (hfits : k.Fits pathsize compsize)
    (hjoint : (joint k.out).length < pathsize) :
    cleanLoop pathsize compsize (n + 1) ip k =
      cleanLoop pathsize compsize (n + 1) ip ⟨joint k.out, (joint k.out).length, k.cs⟩ := by
  obtain ⟨out, ps, cs⟩ := k
  obtain rfl : ps = out.length := hps
  obtain ⟨hpath, hcomp⟩ : out.length < pathsize ∧ cs < compsize := hfits
  by_cases hwant : out ≠ [] ∧ out.getLast? ≠ some slash
  · have hj : joint out = out ++ [slash] := if_pos hwant
    have hroom : out.length + 1 < pathsize := by simpa [hj] using hjoint
    simp [cleanLoop, hj, hip, hwant, hpath, hcomp, hroom]
  · have hj : joint out = out := if_neg hwant
    simp only [hj]

section Jointed

variable {n : ℕ} {ip : Path} {k : Cleaning} (hip : ip ≠ []) (hfits : k.Fits pathsize compsize)
  (hj : joint k.out = k.out)

include hip hfits hj

theorem cleanLoop_ended (h : ip.dropWhile (· = slash) = []) :
    cleanLoop pathsize compsize (n + 1) ip k = { k with cs := 0 } := by
  have hwant := not_wanting hj
  rw [cleanLoop, if_neg (goes hip hfits)]
  simp only [hwant, h, false_and, if_false]

theorem cleanLoop_dot {r : Path} (h : ip.dropWhile (· = slash) = dot :: r) (hr : Stops r) :
    cleanLoop pathsize compsize (n + 1) ip k = cleanLoop pathsize compsize n r k := by
  have hwant := not_wanting hj
  have hnext : r = [] ∨ r.head? = some slash := by rcases hr with rfl | ⟨r', rfl⟩ <;> simp
  rw [cleanLoop, if_neg (goes hip hfits)]
  simp only [hwant, h, hnext, false_and, and_self, if_false, if_true]

theorem cleanLoop_word {w r : Path} (h : ip.dropWhile (· = slash) = w ++ r) (hw : slash ∉ w)
    (hproper : w ≠ [] ∧ w ≠ [dot]) :
    cleanLoop pathsize compsize (n + 1) ip k =
      cleanLoop pathsize compsize n
        (copyComponent pathsize compsize (w ++ r) { k with cs := 0 }).1
        (copyComponent pathsize compsize (w ++ r) { k with cs := 0 }).2 := by
  have hwant := not_wanting hj
  obtain ⟨c, v, rfl⟩ := exists_cons_of_ne_nil hproper.1
  have hword : ¬(c = dot ∧ (v ++ r = [] ∨ (v ++ r).head? = some slash)) := by
    rintro ⟨rfl, hstop⟩
    rcases v with _ | ⟨d, v⟩
    · exact hproper.2 rfl
    · have hd : d = slash := by simpa using hstop
      simp [hd] at hw
  rw [cleanLoop, if_neg (goes hip hfits)]
  simp only [hwant, h, hword, false_and, if_false, cons_append]

end Jointed

variable (pathsize compsize) in
def Scans (n : ℕ) : Prop :=
  ∀ (ip : Path) (k : Cleaning), ip.length ≤ n → k.ps = k.out.length → k.out.length ≤ pathsize →
    k.cs < compsize →
      Cleans pathsize compsize (finished k.out ip) (components ip)
        (cleanLoop pathsize compsize n ip k)

theorem Cleans.crowded {n : ℕ} (hip : ip ≠ [])
    (hps : k.ps = k.out.length) (hfits : k.Fits pathsize compsize)
    (hjoint : ¬(joint k.out).length < pathsize) :
    Cleans pathsize compsize (finished k.out ip) (components ip)
      (cleanLoop pathsize compsize (n + 1) ip k) := by
  have hwant : k.out ≠ [] ∧ k.out.getLast? ≠ some slash := by
    by_contra hnot
    rw [joint, if_neg hnot, ← hps] at hjoint
    exact hjoint hfits.1
  have hlen : (joint k.out).length = k.ps + 1 := by simp [joint, hwant, hps]
  have hcrowded : ¬k.ps + 1 < pathsize := hlen ▸ hjoint
  have hle := length_joint_le k.out hip
  have hpath := hfits.1
  rw [cleanLoop_crowded hip hfits hwant hcrowded]
  exact .failed (fun hfits => hcrowded hfits.1) (fun hlong => by omega) (by dsimp only; omega)

section Iteration

variable {n : ℕ} {ip s w r : Path} {k : Cleaning} (hscans : Scans pathsize compsize n)
  (hn : ip.length ≤ n + 1) (hip : ip ≠ []) (hps : k.ps = k.out.length)
  (hfits : k.Fits pathsize compsize) (hjoint : joint k.out = k.out) (hs : ∀ c ∈ s, c = slash)
  (hsplit : ip = s ++ (w ++ r)) (hrest : ip.dropWhile (· = slash) = w ++ r) (hr : Stops r)

include hscans hn hip hps hfits hjoint hs hsplit hrest hr

theorem Scans.word (hw : slash ∉ w) (hproper : w ≠ [] ∧ w ≠ [dot]) :
    Cleans pathsize compsize (finished k.out ip) (components ip)
      (cleanLoop pathsize compsize (n + 1) ip k) := by
  have hlen : r.length ≤ n := by
    have hpos := length_pos_iff.mpr hproper.1
    rw [hsplit, length_append, length_append] at hn
    omega
  have hcomp : components ip = w :: components r := by
    rw [hsplit, components_slashes hs, components_word_append w hr, components_word hw,
      if_neg (not_or.mpr hproper)]
    rfl
  have hgoal : finished k.out ip = finished (k.out ++ w) r := by
    rw [hsplit, finished_word k.out hs hw hproper hr, hjoint]
  have hlonger := length_le_finished (k.out ++ w) r
  rw [length_append] at hlonger
  rw [cleanLoop_word hip hfits hjoint hrest hw hproper, hgoal, hcomp]
  by_cases hroom : 0 + w.length < compsize ∧ k.ps + w.length < pathsize
  · rw [copyComponent_fits (k := { k with cs := 0 }) hw hr hroom.1 hroom.2]
    have hcopied := hscans r ⟨k.out ++ w, k.ps + w.length, 0 + w.length⟩ hlen (by simp [hps])
      (by rw [length_append]; omega) hroom.1
    exact hcopied.cons (by omega)
  · obtain ⟨rest, k', hcopy, hfails, hout⟩ := copyComponent_refused (r := r)
      (k := { k with cs := 0 }) hw hps ⟨hfits.1, Nat.zero_lt_of_lt hfits.2⟩ hroom
    rw [hcopy]
    rw [cleanLoop_of_not_fits hfails]
    refine .failed hfails (fun hlong => hroom ?_) hout
    have hword := hlong.2 w mem_cons_self
    omega

theorem Scans.blank (hblank : w = [] ∨ w = [dot]) :
    Cleans pathsize compsize (finished k.out ip) (components ip)
      (cleanLoop pathsize compsize (n + 1) ip k) := by
  have hbound : k.out.length ≤ pathsize := hps ▸ Nat.le_of_lt hfits.1
  have hw : slash ∉ w := by rcases hblank with rfl | rfl <;> decide
  have hskip : components (s ++ w) = [] := by
    rw [components_slashes hs, components_word hw, if_pos hblank]
  have hcomp : components ip = components r := by
    rw [hsplit, components_slashes hs, components_word_append w hr, components_word hw,
      if_pos hblank, nil_append]
  have hgoal : finished k.out ip = finished k.out r := by
    rw [← append_assoc] at hsplit
    rw [hsplit, finished_skip k.out (s ++ w) hskip hr (hsplit ▸ hip), hjoint]
  rw [hgoal, hcomp]
  rcases hblank with rfl | rfl
  · obtain rfl : r = [] := by
      rcases hr with hr | ⟨r', rfl⟩
      · exact hr
      · have hne : ip.dropWhile (· = slash) ≠ [] := by simp [hrest]
        have hhead := head_dropWhile_not (· = slash) hne
        simp only [hrest] at hhead
        simp at hhead
    rw [cleanLoop_ended hip hfits hjoint hrest]
    exact Cleans.unmoved (k := { k with cs := 0 }) hps hbound (Nat.zero_lt_of_lt hfits.2)
  · have hlen : r.length ≤ n := by
      rw [hsplit, length_append, length_append, length_singleton] at hn
      omega
    rw [cleanLoop_dot hip hfits hjoint hrest hr]
    exact hscans r k hlen hps hbound hfits.2

end Iteration

theorem cleanLoop_scans (n : ℕ) : Scans pathsize compsize n := by
  induction n with
  | zero =>
    intro ip k hn hps hbound hcs
    obtain rfl := eq_nil_of_length_eq_zero (Nat.le_zero.mp hn)
    exact .unmoved hps hbound hcs
  | succ n ih =>
    intro ip k hn hps hbound hcs
    by_cases hip : ip = []
    · subst hip
      rw [cleanLoop, if_pos (.inl rfl)]
      exact .unmoved hps hbound hcs
    by_cases hpath : k.ps < pathsize
    swap
    · have hfits : ¬k.Fits pathsize compsize := fun hfits => hpath hfits.1
      have hle := length_le_finished k.out ip
      rw [cleanLoop_of_not_fits hfits]
      exact .failed hfits (fun hlong => by omega) hbound
    by_cases hjoint : (joint k.out).length < pathsize
    swap
    · exact .crowded hip hps ⟨hpath, hcs⟩ hjoint
    obtain ⟨s, hs, hsplit⟩ := split_slashes ip
    obtain ⟨w, r, hrest, hw, hr⟩ := split_word (ip.dropWhile (· = slash))
    rw [hrest] at hsplit
    have hsame := finished_joint k.out hip
    rw [cleanLoop_joint hip hps ⟨hpath, hcs⟩ hjoint, ← hsame]
    have hfits : Fits pathsize compsize ⟨joint k.out, (joint k.out).length, k.cs⟩ :=
      ⟨hjoint, hcs⟩
    by_cases hblank : w = [] ∨ w = [dot]
    · exact ih.blank hn hip rfl hfits (joint_joint k.out) hs hsplit hrest hr hblank
    · exact ih.word hn hip rfl hfits (joint_joint k.out) hs hsplit hrest hr hw (not_or.mp hblank)

end Scanner

theorem leading_slashes (p : Path) : ∀ c ∈ leading p, c = slash := by
  unfold leading
  split_ifs <;> simp

theorem joint_leading (p : Path) : joint (leading p) = leading p := by
  unfold leading
  split_ifs <;> rfl

theorem not_endsSlashed_joined {l : Path} {cs : List Path} (hl : ∀ c ∈ l, c = slash)
    (hcs : ∀ c ∈ cs, c ≠ [] ∧ c ≠ [dot] ∧ slash ∉ c) (hne : cs ≠ []) :
    ¬EndsSlashed (l ++ [slash].intercalate cs) := by
  induction cs generalizing l with
  | nil => exact absurd rfl hne
  | cons c cs ih =>
    obtain ⟨hword, hrest⟩ := forall_mem_cons.mp hcs
    rw [intercalate_cons]
    by_cases hcs' : cs = []
    · rw [if_pos hcs', append_nil]
      exact not_endsSlashed_slashes hl hword.2.2 ⟨hword.1, hword.2.1⟩
    · rw [if_neg hcs', ← append_assoc, endsSlashed_append]
      exact ih (l := [slash]) (by simp) hrest hcs'

theorem withSlash_of_not_endsSlashed {q : Path} (h : ¬EndsSlashed q) :
    withSlash q = q ++ [slash] := by
  refine if_neg fun hlast => h (.inl ?_)
  obtain ⟨v, rfl⟩ := getLast?_eq_some_iff.mp hlast
  exact suffix_append v [slash]

theorem normalized_of_none (hnone : components p = []) :
    normalized relativeBlank p = leading p := by
  rw [normalized]
  by_cases hhead : p.head? = some slash
  · have hlead : leading p = [slash] := if_pos hhead
    simp [relativeBlank, hlead, hnone, withSlash]
  · have hlead : leading p = [] := if_neg hhead
    simp [relativeBlank, hlead, hnone]

theorem normalized_of_some (hsome : components p ≠ []) :
    normalized relativeBlank p =
      leading p ++ [slash].intercalate (components p) ++
        (if EndsSlashed p then [slash] else []) := by
  have hends := not_endsSlashed_joined (leading_slashes p) (fun _ => mem_components) hsome
  have hblank : relativeBlank p = false := by simp [relativeBlank, hsome]
  rw [normalized, hblank]
  by_cases hp : EndsSlashed p
  · simp [hp, withSlash_of_not_endsSlashed hends]
  · simp [hp]

theorem finished_leading (p : Path) : finished (leading p) p = normalized relativeBlank p := by
  by_cases hp : p = []
  · subst hp
    rfl
  · rw [finished, if_neg hp, joint_leading]
    by_cases hnone : components p = []
    · rw [normalized_of_none hnone]
      simp [hnone]
    · rw [normalized_of_some hnone]
      simp [hnone]

theorem components_intercalate {cs : List Path} (hcs : ∀ c ∈ cs, c ≠ [] ∧ c ≠ [dot] ∧ slash ∉ c) :
    components ([slash].intercalate cs) = cs := by
  by_cases hne : cs = []
  · subst hne
    rfl
  · rw [components, splitOn_intercalate slash (fun c hc => (hcs c hc).2.2) hne]
    exact filter_eq_self.mpr fun c hc => by simp [(hcs c hc).1, (hcs c hc).2.1]

theorem components_normalized (p : Path) :
    components (normalized relativeBlank p) = components p := by
  by_cases hnone : components p = []
  · have hlead := components_slashes (leading_slashes p) []
    rw [append_nil, components_nil] at hlead
    rw [normalized_of_none hnone, hnone, hlead]
  · rw [normalized_of_some hnone, append_assoc, components_slashes (leading_slashes p)]
    split_ifs
    · rw [components_append_slash, components_nil, append_nil]
      exact components_intercalate fun _ => mem_components
    · rw [append_nil]
      exact components_intercalate fun _ => mem_components

theorem leading_normalized (p : Path) : leading (normalized relativeBlank p) = leading p := by
  by_cases hnone : components p = []
  · rw [normalized_of_none hnone]
    unfold leading
    split_ifs <;> simp_all
  · rw [normalized_of_some hnone]
    by_cases hhead : p.head? = some slash
    · have hlead : leading p = [slash] := if_pos hhead
      rw [hlead]
      exact if_pos rfl
    · have hlead : leading p = [] := if_neg hhead
      obtain ⟨c, cs, hcs⟩ := exists_cons_of_ne_nil hnone
      have hword : c ∈ components p := hcs ▸ mem_cons_self
      obtain ⟨hc, -, hslash⟩ := mem_components hword
      obtain ⟨x, v, rfl⟩ := exists_cons_of_ne_nil hc
      have hx : x ≠ slash := fun hx => hslash (hx ▸ mem_cons_self)
      rw [hlead, hcs, intercalate_cons]
      exact if_neg (by simpa using hx)

theorem normalized_normalized (p : Path) :
    normalized relativeBlank (normalized relativeBlank p) = normalized relativeBlank p := by
  have hcomp := components_normalized p
  have hlead := leading_normalized p
  by_cases hnone : components p = []
  · rw [normalized_of_none (hcomp.trans hnone), normalized_of_none hnone] at *
    exact hlead
  · have hends : EndsSlashed (normalized relativeBlank p) ↔ EndsSlashed p := by
      rw [normalized_of_some hnone]
      by_cases hp : EndsSlashed p
      · simp only [hp, if_true, iff_true]
        exact .inl (suffix_append _ [slash])
      · simpa only [hp, if_false, iff_false, append_nil] using
          not_endsSlashed_joined (leading_slashes p) (fun _ => mem_components) hnone
    rw [normalized_of_some (hcomp ▸ hnone), hcomp, hlead, normalized_of_some hnone]
    simp only [← normalized_of_some hnone, hends]

structure CleansTo (normal : Path → Path) (pathsize compsize : ℕ) (p : Path) : Prop where
  succeeds : (cleanInto pathsize compsize p).Fits pathsize compsize ↔
    (normal p).length < pathsize ∧ ∀ c ∈ components (normal p), c.length < compsize
  written : (cleanInto pathsize compsize p).Fits pathsize compsize →
    (cleanInto pathsize compsize p).written pathsize compsize = normal p ++ [0]
  inside : ((cleanInto pathsize compsize p).written pathsize compsize).length ≤ pathsize
  again : (cleanInto pathsize compsize p).Fits pathsize compsize →
    (cleanInto pathsize compsize (cleanInto pathsize compsize p).out).written pathsize compsize =
      (cleanInto pathsize compsize p).written pathsize compsize

section Cleaned

variable {pathsize compsize : ℕ}

theorem cleanInto_cleans (hpath : 0 < pathsize) (hcomp : 0 < compsize) (p : Path) :
    Cleans pathsize compsize (normalized relativeBlank p) (components p)
      (cleanInto pathsize compsize p) := by
  rw [← finished_leading, cleanInto, leading]
  split_ifs
  · exact cleanLoop_scans p.length p ⟨[slash], 1, 0⟩ (Nat.le_refl _) rfl hpath hcomp
  · exact cleanLoop_scans p.length p ⟨[], 0, 0⟩ (Nat.le_refl _) rfl (Nat.zero_le _) hcomp

theorem clean_path_normalizes (hpath : 0 < pathsize) (hcomp : 0 < compsize) (p : Path) :
    CleansTo (normalized relativeBlank) pathsize compsize p := by
  have hcleans := cleanInto_cleans hpath hcomp p
  have hfits : (cleanInto pathsize compsize p).Fits pathsize compsize →
      (normalized relativeBlank p).length < pathsize ∧ ∀ c ∈ components p, c.length < compsize := by
    intro hfits
    by_contra hlong
    exact hcleans.refused hlong hfits
  have hwritten : (cleanInto pathsize compsize p).Fits pathsize compsize →
      (cleanInto pathsize compsize p).written pathsize compsize =
        normalized relativeBlank p ++ [0] := by
    intro h
    obtain ⟨hlt, hcs⟩ := hfits h
    rw [written, if_pos h, (hcleans.out hlt hcs).2]
  refine ⟨?_, hwritten, ?_, ?_⟩
  · rw [components_normalized]
    exact ⟨hfits, fun h => (hcleans.out h.1 h.2).1⟩
  · by_cases h : (cleanInto pathsize compsize p).Fits pathsize compsize
    · have hlt := (hfits h).1
      rw [hwritten h, length_append, length_singleton]
      exact hlt
    · rw [written, if_neg h]
      exact hcleans.bound
  · intro h
    obtain ⟨hlt, hcs⟩ := hfits h
    have hagain := cleanInto_cleans hpath hcomp (normalized relativeBlank p)
    rw [normalized_normalized, components_normalized] at hagain
    obtain ⟨hfits', hout⟩ := hagain.out hlt hcs
    rw [hwritten h, (hcleans.out hlt hcs).2, written, if_pos hfits', hout]

end Cleaned

theorem clean_path_normalizes_dotted :
    CleansTo (normalized relativeBlank) nsPathlen nsNamelen [dot, slash, dot] :=
  clean_path_normalizes (by decide) (by decide) _

theorem dotted_path_has_no_slash :
    ¬CleansTo (normalized namedBlank) nsPathlen nsNamelen [dot, slash, dot] := by
  intro h
  have hempty : (cleanInto nsPathlen nsNamelen [dot, slash, dot]).written nsPathlen nsNamelen =
      [0] := by decide +kernel
  have hslash : normalized namedBlank [dot, slash, dot] = [slash] := by decide +kernel
  have hwritten := h.written (by decide +kernel)
  rw [hempty, hslash] at hwritten
  simp at hwritten

end MachUS.Naming
