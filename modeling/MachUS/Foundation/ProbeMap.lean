import Mathlib.Data.Set.Card

namespace Probing

open Function

variable {n : ℕ} [NeZero n] {K : Type} [DecidableEq K]

def probeFrom (keys : Fin n → K) (null k : K) : ℕ → Fin n → Option (Fin n)
  | 0, _ => none
  | fuel + 1, i => if keys i = k ∨ keys i = null then some i else probeFrom keys null k fuel (i + 1)

def probe (keys : Fin n → K) (null : K) (start : Fin n) (k : K) : Option (Fin n) :=
  probeFrom keys null k n start

def Stops (keys : Fin n → K) (null k : K) (i : Fin n) : Prop := keys i = k ∨ keys i = null

def Before (start i j : Fin n) : Prop := i - start < j - start

instance (start i j : Fin n) : Decidable (Before start i j) :=
  inferInstanceAs (Decidable (i - start < j - start))

theorem walk_val (start : Fin n) {d : ℕ} (hd : d < n) :
    (start + Fin.ofNat n d - start).val = d := by
  rw [add_sub_cancel_left]
  exact Nat.mod_eq_of_lt hd

theorem walk_reach (start i : Fin n) : start + Fin.ofNat n (i - start).val = i := by
  have h : Fin.ofNat n (i - start).val = i - start := by
    ext
    exact Nat.mod_eq_of_lt (i - start).isLt
  rw [h, add_sub_cancel]

theorem walk_succ (start : Fin n) (d : ℕ) :
    start + Fin.ofNat n d + 1 = start + Fin.ofNat n (d + 1) := by
  have h : Fin.ofNat n d + 1 = Fin.ofNat n (d + 1) := by
    ext
    simp [Fin.val_add, Fin.ofNat]
  rw [add_assoc, h]

theorem probeFrom_eq_some (keys : Fin n → K) (null k : K) (start : Fin n) :
    ∀ (fuel d : ℕ), d + fuel = n → (∀ e < d, ¬Stops keys null k (start + Fin.ofNat n e)) →
      ∀ j, probeFrom keys null k fuel (start + Fin.ofNat n d) = some j →
        Stops keys null k j ∧ ∀ i, Before start i j → ¬Stops keys null k i := by
  intro fuel
  induction fuel with
  | zero =>
    intro d _ _ j h
    simp [probeFrom] at h
  | succ fuel ih =>
    intro d hd hfree j h
    rw [probeFrom] at h
    split_ifs at h with hstop
    · cases h
      refine ⟨hstop, fun i hi => ?_⟩
      have hlt : (i - start).val < d := by
        have hval : (start + Fin.ofNat n d - start).val = d := walk_val start (by omega)
        rw [Before, Fin.lt_def, hval] at hi
        exact hi
      simpa [walk_reach] using hfree _ hlt
    · rw [walk_succ] at h
      refine ih (d + 1) (by omega) (fun e he => ?_) j h
      rcases Nat.lt_succ_iff_lt_or_eq.mp he with he | rfl
      · exact hfree e he
      · exact hstop

theorem probeFrom_eq_none (keys : Fin n → K) (null k : K) (start : Fin n) :
    ∀ (fuel d : ℕ), d + fuel = n → probeFrom keys null k fuel (start + Fin.ofNat n d) = none →
      ∀ e, d ≤ e → e < n → ¬Stops keys null k (start + Fin.ofNat n e) := by
  intro fuel
  induction fuel with
  | zero => intro d hd _ e hde hen; omega
  | succ fuel ih =>
    intro d hd h e hde hen
    rw [probeFrom] at h
    split_ifs at h with hstop
    rw [walk_succ] at h
    rcases hde.eq_or_lt with rfl | hlt
    · exact hstop
    · exact ih (d + 1) (by omega) h e hlt hen

theorem walk_zero (start : Fin n) : start + Fin.ofNat n 0 = start := by
  have h : Fin.ofNat n 0 = (0 : Fin n) := by ext; simp [Fin.ofNat]
  rw [h, add_zero]

theorem probe_stops {keys : Fin n → K} {null k : K} {start j : Fin n}
    (h : probe keys null start k = some j) :
    Stops keys null k j ∧ ∀ i, Before start i j → ¬Stops keys null k i :=
  probeFrom_eq_some keys null k start n 0 (by omega) (by omega) j (by rw [walk_zero]; exact h)

theorem probe_endless {keys : Fin n → K} {null k : K} {start : Fin n}
    (h : probe keys null start k = none) (i : Fin n) : ¬Stops keys null k i := by
  have hfree := probeFrom_eq_none keys null k start n 0 (by omega) (by rw [walk_zero]; exact h)
    (i - start).val (Nat.zero_le _) (i - start).isLt
  simpa [walk_reach] using hfree

theorem first_unique {start i j : Fin n} {P : Fin n → Prop} (hi : P i) (hj : P j)
    (bi : ∀ l, Before start l i → ¬P l) (bj : ∀ l, Before start l j → ¬P l) : i = j := by
  rcases lt_trichotomy (i - start) (j - start) with h | h | h
  · exact absurd hi (bj i h)
  · exact sub_left_injective h
  · exact absurd hj (bi j h)

theorem probe_eq_some_iff {keys : Fin n → K} {null k : K} {start j : Fin n} :
    probe keys null start k = some j ↔
      Stops keys null k j ∧ ∀ i, Before start i j → ¬Stops keys null k i := by
  constructor
  · exact probe_stops
  · rintro ⟨hj, hbefore⟩
    cases h : probe keys null start k with
    | none => exact absurd hj (probe_endless h j)
    | some i =>
      obtain ⟨hi, hfree⟩ := probe_stops h
      rw [first_unique hi hj hfree hbefore]

theorem probe_isSome {keys : Fin n → K} {null k : K} {start j : Fin n}
    (hj : Stops keys null k j) : ∃ i, probe keys null start k = some i := by
  cases h : probe keys null start k with
  | none => exact absurd hj (probe_endless h j)
  | some i => exact ⟨i, rfl⟩

section Chained

variable (home : K → Fin n) (null : K)

def Chained (keys : Fin n → K) : Prop :=
  ∀ j, keys j ≠ null → ∀ i, Before (home (keys j)) i j → ¬Stops keys null (keys j) i

def blank (keys : Fin n → K) (gone : Fin n → Prop) [DecidablePred gone] (i : Fin n) : K :=
  if gone i then null else keys i

def Spares (keys : Fin n → K) (gone : Fin n → Prop) : Prop :=
  ∀ j, keys j ≠ null → ¬gone j → ∀ i, gone i → ¬Before (home (keys j)) i j

instance Spares.decidable (keys : Fin n → K) (gone : Fin n → Prop) [DecidablePred gone] :
    Decidable (Spares home null keys gone) :=
  inferInstanceAs (Decidable (∀ j, keys j ≠ null → ¬gone j → ∀ i, gone i →
    ¬Before (home (keys j)) i j))

variable {home null} {keys : Fin n → K}

omit [NeZero n] [DecidableEq K] in
theorem chained_const : Chained home null (fun _ => null) :=
  fun _ h => absurd rfl h

theorem Chained.probe_home (h : Chained home null keys) {j : Fin n} (hj : keys j ≠ null) :
    probe keys null (home (keys j)) (keys j) = some j :=
  probe_eq_some_iff.mpr ⟨Or.inl rfl, h j hj⟩

theorem Chained.injective (h : Chained home null keys) {i j : Fin n} (hi : keys i ≠ null)
    (hij : keys i = keys j) : i = j := by
  have h1 := h.probe_home hi
  have h2 := h.probe_home (j := j) (hij ▸ hi)
  rw [← hij, h1] at h2
  exact Option.some.inj h2

theorem Chained.probe_live (h : Chained home null keys) {j : Fin n} {k : K} (hk : k ≠ null)
    (hj : keys j = k) : probe keys null (home k) k = some j := by
  subst hj
  exact h.probe_home hk

theorem probe_absent {k : K} {j : Fin n} (hk : ∀ i, keys i ≠ k)
    (h : probe keys null (home k) k = some j) : keys j = null :=
  (probe_stops h).1.resolve_left (hk j)

theorem Chained.update (h : Chained home null keys) {k : K} (hk : k ≠ null) {j : Fin n}
    (hp : probe keys null (home k) k = some j) : Chained home null (update keys j k) := by
  obtain ⟨hstop, hfree⟩ := probe_stops hp
  intro l hl i hi
  by_cases hlj : l = j
  · subst hlj
    rw [update_self] at hi ⊢
    have hil : i ≠ l := by
      rintro rfl
      exact lt_irrefl _ hi
    simpa [Stops, update_of_ne hil] using hfree i hi
  · rw [update_of_ne hlj] at hl hi ⊢
    by_cases hij : i = j
    · subst hij
      have hold := h l hl i hi
      simp only [Stops, not_or, update_self] at hold hstop ⊢
      refine ⟨fun hkl => ?_, hk⟩
      subst hkl
      exact hstop.elim hold.1 hold.2
    · simpa [Stops, update_of_ne hij] using h l hl i hi

omit [NeZero n] [DecidableEq K] in
theorem blank_of_not {gone : Fin n → Prop} [DecidablePred gone] {i : Fin n} (h : ¬gone i) :
    blank null keys gone i = keys i := if_neg h

theorem blank_ne_null {gone : Fin n → Prop} [DecidablePred gone] {i : Fin n}
    (h : blank null keys gone i ≠ null) : ¬gone i ∧ keys i ≠ null := by
  by_cases hg : gone i
  · exact absurd (if_pos hg) h
  · exact ⟨hg, by rwa [blank_of_not hg] at h⟩

theorem Chained.blank (h : Chained home null keys) {gone : Fin n → Prop} [DecidablePred gone]
    (hs : Spares home null keys gone) : Chained home null (blank null keys gone) := by
  intro j hj i hi
  obtain ⟨hgj, hkj⟩ := blank_ne_null hj
  rw [blank_of_not hgj] at hi ⊢
  have hgi : ¬gone i := fun hg => hs j hkj hgj i hg hi
  simpa [Stops, blank_of_not hgi] using h j hkj i hi

theorem probe_update_of_ne {k l : K} {start first : Fin n} {i j : Fin n} (hk : k ≠ null)
    (hp : probe keys null start k = some j) (hj : keys j = k) (hkl : l ≠ k)
    (hq : probe keys null first l = some i) :
    i ≠ j ∧ probe (update keys i l) null start k = some j := by
  have hij : i ≠ j := by
    rintro rfl
    rcases (probe_stops hq).1 with h | h
    · exact hkl (h.symm.trans hj)
    · exact hk (hj.symm.trans h)
  refine ⟨hij, probe_eq_some_iff.mpr ⟨Or.inl (by rw [update_of_ne hij.symm, hj]), ?_⟩⟩
  intro m hm hstop
  have hold := (probe_stops hp).2 m hm
  by_cases hmi : m = i
  · subst hmi
    rcases (probe_stops hq).1 with h | h
    · rw [Stops, update_self] at hstop
      rcases hstop with h' | h'
      · exact hkl h'
      · exact hold (Or.inr (h.trans h'))
    · exact hold (Or.inr h)
  · rw [Stops, update_of_ne hmi] at hstop
    exact hold hstop

theorem probe_blank_iff {k : K} {start j : Fin n} (hp : probe keys null start k = some j)
    (hj : keys j = k) {g : Fin n → Prop} [DecidablePred g] (hg : ¬g j) :
    probe (blank null keys g) null start k = some j ↔ ∀ i, g i → ¬Before start i j := by
  constructor
  · intro h i hi hb
    exact (probe_stops h).2 i hb (Or.inr (if_pos hi))
  · intro h
    refine probe_eq_some_iff.mpr ⟨Or.inl (by rw [blank_of_not hg, hj]), fun i hi => ?_⟩
    have hgi : ¬g i := fun hgi => h i hgi hi
    simpa [Stops, blank_of_not hgi] using (probe_stops hp).2 i hi

end Chained

variable {n : ℕ} [NeZero n] {K S V : Type} [DecidableEq K]

structure Layout (n : ℕ) (K S V : Type) where
  home : K → Fin n
  null : K
  key : S → K
  vacant : S → Prop
  holds : S → V → Prop

namespace Layout

variable (L : Layout n K S V)

def keys (m : Fin n → S) (i : Fin n) : K := L.key (m i)

def find (m : Fin n → S) (k : K) : Option (Fin n) := probe (L.keys m) L.null (L.home k) k

structure Stores (m : Fin n → S) (spec : K → Option V) : Prop where
  chained : Chained L.home L.null (L.keys m)
  empty : ∀ i, L.keys m i = L.null → L.vacant (m i)
  full : ∀ i, L.keys m i ≠ L.null → ∃ v, spec (L.keys m i) = some v ∧ L.holds (m i) v
  slot : ∀ k v, spec k = some v → k ≠ L.null ∧ ∃ i, L.keys m i = k

variable {L} {m : Fin n → S} {spec : K → Option V}

theorem stores_const {e : S} (hk : L.key e = L.null) (hv : L.vacant e) :
    L.Stores (fun _ => e) (fun _ => none) where
  chained := by
    have h : L.keys (fun _ : Fin n => e) = fun _ => L.null := funext fun _ => hk
    rw [h]
    exact chained_const
  empty := fun _ _ => hv
  full := fun _ h => absurd hk h
  slot := by simp

namespace Stores

theorem find_live (h : L.Stores m spec) {k : K} {v : V} (hk : spec k = some v) :
    ∃ i, L.find m k = some i ∧ L.keys m i = k ∧ L.holds (m i) v := by
  obtain ⟨hne, i, rfl⟩ := h.slot k v hk
  obtain ⟨w, hw, hi⟩ := h.full i hne
  rw [hk] at hw
  cases hw
  exact ⟨i, h.chained.probe_live hne rfl, rfl, hi⟩

section

variable (h : L.Stores m spec)

include h

omit [NeZero n] [DecidableEq K] in
theorem absent {k : K} (hne : k ≠ L.null) (hk : spec k = none) (i : Fin n) : L.keys m i ≠ k := by
  rintro rfl
  obtain ⟨v, hv, -⟩ := h.full i hne
  rw [hk] at hv
  cases hv

theorem find_absent {k : K} (hne : k ≠ L.null) (hk : spec k = none)
    {i : Fin n} (hi : L.find m k = some i) : L.keys m i = L.null ∧ L.vacant (m i) := by
  have hnull := probe_absent (h.absent hne hk) hi
  exact ⟨hnull, h.empty i hnull⟩

theorem exists_empty (hcard : Set.ncard {k | (spec k).isSome} < n) : ∃ i, L.keys m i = L.null := by
  by_contra hall
  push Not at hall
  have hinj : Injective (L.keys m) := fun i j hij => h.chained.injective (hall i) hij
  have hrange : Set.range (L.keys m) = {k | (spec k).isSome} := by
    ext k
    constructor
    · rintro ⟨i, rfl⟩
      obtain ⟨v, hv, -⟩ := h.full i (hall i)
      simp [hv]
    · intro hk
      obtain ⟨v, hv⟩ := Option.isSome_iff_exists.mp hk
      exact (h.slot k v hv).2
  rw [← hrange, ← Set.image_univ, Set.ncard_image_of_injective _ hinj, Set.ncard_univ,
    Nat.card_eq_fintype_card, Fintype.card_fin] at hcard
  exact lt_irrefl _ hcard

theorem find_vacant {k : K} (hne : k ≠ L.null) (hk : spec k = none)
    (hcard : Set.ncard {k | (spec k).isSome} < n) :
    ∃ i, L.find m k = some i ∧ L.keys m i = L.null ∧ L.vacant (m i) := by
  obtain ⟨e, he⟩ := h.exists_empty hcard
  obtain ⟨i, hi⟩ : ∃ i, L.find m k = some i := probe_isSome (Or.inr he)
  exact ⟨i, hi, h.find_absent hne hk hi⟩

end

omit [NeZero n] [DecidableEq K] in
theorem keys_update (i : Fin n) (e : S) :
    L.keys (update m i e) = update (L.keys m) i (L.key e) := by
  funext j
  by_cases hj : j = i
  · subst hj
    simp [keys]
  · simp [keys, hj]

theorem insert (h : L.Stores m spec) {k : K} (hne : k ≠ L.null) {i : Fin n}
    (hi : L.find m k = some i) {e : S} (he : L.key e = k) {v : V} (hv : L.holds e v) :
    L.Stores (update m i e) (update spec k (some v)) where
  chained := by
    rw [keys_update, he]
    exact h.chained.update hne hi
  empty := by
    intro j hj
    by_cases hji : j = i
    · subst hji
      rw [keys_update, update_self, he] at hj
      exact absurd hj hne
    · rw [keys_update, update_of_ne hji] at hj
      rw [update_of_ne hji]
      exact h.empty j hj
  full := by
    intro j hj
    by_cases hji : j = i
    · subst hji
      rw [keys_update, update_self, he] at hj ⊢
      exact ⟨v, by simp, by simpa using hv⟩
    · rw [keys_update, update_of_ne hji] at hj ⊢
      have hjk : L.keys m j ≠ k := by
        intro hjk
        have hfound := h.chained.probe_live hne hjk
        rw [← find, hi] at hfound
        exact hji (Option.some.inj hfound).symm
      rw [update_of_ne hji, update_of_ne hjk]
      exact h.full j hj
  slot := by
    intro l w hl
    by_cases hlk : l = k
    · subst hlk
      exact ⟨hne, i, by rw [keys_update, update_self, he]⟩
    · rw [update_of_ne hlk] at hl
      obtain ⟨hlne, j, hj⟩ := h.slot l w hl
      refine ⟨hlne, j, ?_⟩
      have hji : j ≠ i := by
        rintro rfl
        rcases (probe_stops hi).1 with hs | hs
        · exact hlk (hj.symm.trans hs)
        · exact hlne (hj.symm.trans hs)
      rw [keys_update, update_of_ne hji, hj]

omit [NeZero n] [DecidableEq K] in
theorem keys_ite (gone : Fin n → Prop) [DecidablePred gone] {e : S} (he : L.key e = L.null) :
    L.keys (fun i => if gone i then e else m i) = blank L.null (L.keys m) gone := by
  funext i
  by_cases hg : gone i
  · simp [keys, blank, hg, he]
  · simp [keys, blank, hg]

theorem erase (h : L.Stores m spec) {gone : Fin n → Prop} [DecidablePred gone] {e : S}
    (he : L.key e = L.null) (hv : L.vacant e) (hs : Spares L.home L.null (L.keys m) gone)
    {spec' : K → Option V}
    (hspec : ∀ i, L.keys m i ≠ L.null →
      spec' (L.keys m i) = if gone i then none else spec (L.keys m i))
    (hsub : ∀ k v, spec' k = some v → spec k = some v) :
    L.Stores (fun i => if gone i then e else m i) spec' where
  chained := by
    rw [keys_ite gone he]
    exact h.chained.blank hs
  empty := by
    intro i hi
    by_cases hg : gone i
    · simpa [hg] using hv
    · rw [keys_ite gone he, blank_of_not hg] at hi
      simpa [hg] using h.empty i hi
  full := by
    intro i hi
    rw [keys_ite gone he] at hi ⊢
    obtain ⟨hg, hne⟩ := blank_ne_null hi
    rw [blank_of_not hg, hspec i hne]
    simpa [hg] using h.full i hne
  slot := by
    intro k v hk
    obtain ⟨hne, i, rfl⟩ := h.slot k v (hsub k v hk)
    refine ⟨hne, i, ?_⟩
    have hg : ¬gone i := by
      intro hg
      rw [hspec i hne, if_pos hg] at hk
      cases hk
    rw [keys_ite gone he, blank_of_not hg]

end Stores

end Layout

end Probing
