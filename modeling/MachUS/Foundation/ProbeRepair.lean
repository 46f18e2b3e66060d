import MachUS.Foundation.ProbeMap

namespace Probing

open Function Fin

section Distance

variable {n : ℕ}

theorem sub_val (a b : Fin n) :
    (a - b).val = if b.val ≤ a.val then a.val - b.val else n + a.val - b.val := by
  rw [sub_def]
  show (n - b.val + a.val) % n = _
  split_ifs with h
  · rw [show n - b.val + a.val = a.val - b.val + n by omega, Nat.add_mod_right,
      Nat.mod_eq_of_lt (by omega)]
  · rw [Nat.mod_eq_of_lt (by omega)]
    omega

theorem before_iff (start i j : Fin n) : Before start i j ↔
    (if start.val ≤ i.val then i.val - start.val else n + i.val - start.val) <
      if start.val ≤ j.val then j.val - start.val else n + j.val - start.val := by
  rw [Before, lt_def, sub_val, sub_val]

theorem between_of_before {h m j p : Fin n} (hm : Before h m p) (hj : ¬Before h j p) (hpj : p ≠ j)
    (hmj : m < j) : m < p ∧ p < j := by
  rw [before_iff] at hm hj
  rw [lt_def] at hmj ⊢
  rw [lt_def]
  split_ifs at hm hj <;> omega

theorem not_between_of_before {h m j s : Fin n} (hs : s = m ∨ Before h s m) (hj : ¬Before h j m)
    (hmj : m < j) : ¬(m < s ∧ s ≤ j) := by
  rintro ⟨hms, hsj⟩
  rcases hs with rfl | hs
  · exact absurd hms (lt_irrefl _)
  · rw [before_iff] at hs hj
    rw [lt_def] at hms hmj
    rw [le_def] at hsj
    split_ifs at hs hj <;> omega

end Distance

variable {n : ℕ} [NeZero n] {K : Type} [DecidableEq K] {home : K → Fin n} {null : K}
  {keys : Fin n → K}

def Distinct (null : K) (keys : Fin n → K) : Prop :=
  ∀ i j, keys i ≠ null → keys i = keys j → i = j

def Found (home : K → Fin n) (null : K) (keys : Fin n → K) (p : Fin n) : Prop :=
  ∀ q, Before (home (keys p)) q p → keys q ≠ null

theorem chained_iff : Chained home null keys ↔
    Distinct null keys ∧ ∀ p, keys p ≠ null → Found home null keys p := by
  constructor
  · intro h
    exact ⟨fun _ _ => h.injective, fun p hp q hq hnull => h p hp q hq (Or.inr hnull)⟩
  · rintro ⟨hdistinct, hfound⟩ p hp q hq (hkey | hnull)
    · rw [← hdistinct p q hp hkey.symm] at hq
      exact lt_irrefl _ hq
    · exact hfound p hp q hq hnull

theorem probeFrom_of_absent {k : K} (hk : ∀ i, keys i ≠ k) (fuel : ℕ) (i : Fin n) :
    probeFrom keys null k fuel i = probeFrom keys null null fuel i := by
  induction fuel generalizing i with
  | zero => rfl
  | succ fuel ih =>
    simp only [probeFrom, hk i, false_or, or_self, ih]

theorem Chained.enter (h : Chained home null keys) {k : K} (hk : k ≠ null) (habsent : ∀ i, keys i ≠ k)
    {j : Fin n} (hj : probe keys null (home k) null = some j) :
    Chained home null (Function.update keys j k) := by
  refine h.update hk ?_
  rw [probe, probeFrom_of_absent habsent]
  exact hj

section Repair

variable {m j s : Fin n}

structure Mending (home : K → Fin n) (null : K) (keys : Fin n → K) (m : ℕ) (j : Fin n) : Prop where
  empty : keys j = null
  pending : ∀ p : Fin n, m ≤ p.val → p < j → keys p ≠ null ∧ ¬Before (home (keys p)) j p
  found : ∀ p : Fin n, keys p ≠ null → ¬(m ≤ p.val ∧ p < j) → Found home null keys p
  distinct : Distinct null keys

omit [NeZero n] [DecidableEq K] in
theorem distinct_vacated (h : Distinct null keys) : Distinct null (Function.update keys m null) := by
  intro p q hp hpq
  by_cases hpm : p = m
  · rw [hpm, update_self] at hp
    exact absurd rfl hp
  · rw [update_of_ne hpm] at hp hpq
    by_cases hqm : q = m
    · rw [hqm, update_self] at hpq
      exact absurd hpq hp
    · rw [update_of_ne hqm] at hpq
      exact h p q hp hpq

omit [NeZero n] [DecidableEq K] in
theorem distinct_entered (h : Distinct null keys) {k : K} (hk : ∀ q, keys q ≠ k) :
    Distinct null (Function.update keys s k) := by
  intro p q hp hpq
  by_cases hps : p = s
  · subst hps
    by_contra hne
    rw [update_self, update_of_ne (Ne.symm hne)] at hpq
    exact hk q hpq.symm
  · rw [update_of_ne hps] at hp hpq
    by_cases hqs : q = s
    · rw [hqs, update_self] at hpq
      exact absurd hpq (hk p)
    · rw [update_of_ne hqs] at hpq
      exact h p q hp hpq

omit [NeZero n] [DecidableEq K] in
theorem found_vacated {p : Fin n} (hempty : keys j = null) (hmj : m < j) (hp : keys p ≠ null)
    (hpm : p ≠ m) (hfound : Found home null keys p) (hout : ¬(m < p ∧ p < j)) :
    Found home null (Function.update keys m null) p := by
  intro q hq
  rw [update_of_ne hpm] at hq
  have hqm : q ≠ m := by
    rintro rfl
    refine hout (between_of_before hq (fun hj => hfound j hj hempty) ?_ hmj)
    rintro rfl
    exact hp hempty
  rw [update_of_ne hqm]
  exact hfound q hq

theorem Chained.mending (h : Chained home null keys) {i : Fin n} (hempty : keys j = null)
    (hij : i < j) (hrun : ∀ p, i < p → p < j → keys p ≠ null) :
    Mending home null (Function.update keys i null) (i.val + 1) j := by
  obtain ⟨hdistinct, hfound⟩ := chained_iff.mp h
  refine ⟨?_, fun p hp hpj => ?_, fun p hp hout => ?_, distinct_vacated hdistinct⟩
  · rw [update_of_ne hij.ne', hempty]
  · have hpi : p ≠ i := by
      rintro rfl
      omega
    rw [update_of_ne hpi]
    have hkey : keys p ≠ null := hrun p (lt_def.mpr (by omega)) hpj
    exact ⟨hkey, fun hj => hfound p hkey j hj hempty⟩
  · have hpi : p ≠ i := by
      rintro rfl
      exact hp (update_self _ _ _)
    rw [update_of_ne hpi] at hp
    refine found_vacated hempty hij hp hpi (hfound p hp) ?_
    rintro ⟨hip, hpj⟩
    exact hout ⟨lt_def.mp hip, hpj⟩

theorem Mending.chained (h : Mending home null keys j.val j) : Chained home null keys := by
  refine chained_iff.mpr ⟨h.distinct, fun p hp => h.found p hp ?_⟩
  rintro ⟨hle, hlt⟩
  exact absurd (lt_def.mp hlt) (by omega)

theorem enters_at (hs : probe (Function.update keys m null) null (home (keys m)) null = some s) :
    Function.update keys m null s = null ∧ (s = m ∨ Before (home (keys m)) s m) ∧
      ∀ q, Before (home (keys m)) q s → Function.update keys m null q ≠ null := by
  obtain ⟨hstop, hbefore⟩ := probe_stops hs
  refine ⟨hstop.elim id id, ?_, fun q hq hnull => hbefore q hq (Or.inl hnull)⟩
  rcases lt_trichotomy (s - home (keys m)) (m - home (keys m)) with hlt | heq | hgt
  · exact Or.inr hlt
  · exact Or.inl (sub_left_injective heq)
  · exact absurd (show Stops _ null null m from Or.inl (update_self _ _ _)) (hbefore m hgt)

theorem Mending.step (h : Mending home null keys m.val j) (hmj : m < j)
    (hs : probe (Function.update keys m null) null (home (keys m)) null = some s) :
    Mending home null (Function.update (Function.update keys m null) s (keys m)) (m.val + 1) j := by
  obtain ⟨hm, hjm⟩ := h.pending m le_rfl hmj
  obtain ⟨hsnull, hsm, hwalk⟩ := enters_at hs
  have hout := not_between_of_before hsm hjm hmj
  have hsj : s ≠ j := fun heq => hout ⟨heq ▸ hmj, heq ▸ le_rfl⟩
  have hold : ∀ p, p ≠ m → p ≠ s →
      Function.update (Function.update keys m null) s (keys m) p = keys p := by
    intro p hpm hps
    rw [update_of_ne hps, update_of_ne hpm]
  have hlive : ∀ q, Function.update keys m null q ≠ null →
      Function.update (Function.update keys m null) s (keys m) q ≠ null := by
    intro q hq
    by_cases hqs : q = s
    · rwa [hqs, update_self]
    · rwa [update_of_ne hqs]
  have hfresh : ∀ q, Function.update keys m null q ≠ keys m := by
    intro q
    by_cases hqm : q = m
    · rw [hqm, update_self]
      exact hm.symm
    · rw [update_of_ne hqm]
      exact fun heq => hqm (h.distinct m q hm heq.symm).symm
  refine ⟨?_, fun p hp hpj => ?_, fun p hp hpout => ?_,
    distinct_entered (distinct_vacated h.distinct) hfresh⟩
  · rw [hold j hmj.ne' hsj.symm, h.empty]
  · have hpm : p ≠ m := by
      rintro rfl
      omega
    have hps : p ≠ s := by
      rintro rfl
      exact hout ⟨lt_def.mpr (by omega), hpj.le⟩
    rw [hold p hpm hps]
    exact h.pending p (by omega) hpj
  · by_cases hps : p = s
    · subst hps
      intro q hq
      rw [update_self] at hq
      exact hlive q (hwalk q hq)
    · rw [update_of_ne hps] at hp
      have hpm : p ≠ m := by
        rintro rfl
        exact hp (update_self _ _ _)
      rw [update_of_ne hpm] at hp
      have hpold : ¬(m.val ≤ p.val ∧ p < j) := by
        rintro ⟨hle, hpj⟩
        exact hpout ⟨by omega, hpj⟩
      have hkept := found_vacated h.empty hmj hp hpm (h.found p hp hpold)
        (fun hbetween => hpold ⟨(lt_def.mp hbetween.1).le, hbetween.2⟩)
      intro q hq
      rw [hold p hpm hps] at hq
      refine hlive q (hkept q ?_)
      rwa [update_of_ne hpm]

end Repair

end Probing
