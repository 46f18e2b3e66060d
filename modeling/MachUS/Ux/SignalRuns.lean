import MachUS.Ux.Signals

namespace MachUS.Ux

open Relation Transition Function Bool Finset Option Uxsignal

section Masks

variable {m m' : SignalSet} {s t : ℕ}

theorem sigmask_eq (hs : 0 < s) (hle : s ≤ 32) : sigmask s = 1#32 <<< (s - 1) := by
  have h : (s + 31) % 32 = s - 1 := by omega
  rw [sigmask, h]

theorem getLsbD_sigmask (hs : 0 < s) (hle : s ≤ 32) {i : ℕ} (hi : i < 32) :
    (sigmask s).getLsbD i = decide (i = s - 1) := by
  rw [sigmask_eq hs hle, BitVec.getLsbD_shiftLeft, BitVec.getLsbD_one, decide_eq_true hi, Bool.true_and]
  rcases lt_trichotomy i (s - 1) with h | h | h
  · simp only [h, decide_true, Bool.not_true, Bool.false_and, Nat.ne_of_lt h, decide_false]
  · simp [h]
  · simp [Nat.not_lt.mpr h.le, Nat.ne_of_gt h, Nat.sub_eq_zero_iff_le, Nat.not_le.mpr h]

def has (m : SignalSet) (s : ℕ) : Prop := m &&& sigmask s ≠ 0#32

instance (m : SignalSet) (s : ℕ) : Decidable (has m s) := inferInstanceAs (Decidable (_ ≠ _))

theorem has_iff (hs : 0 < s) (hle : s ≤ 32) : has m s ↔ m.getLsbD (s - 1) = true := by
  constructor
  · intro h
    by_contra hbit
    refine h (BitVec.eq_of_getLsbD_eq fun i hi => ?_)
    rw [BitVec.getLsbD_and, getLsbD_sigmask hs hle hi, BitVec.getLsbD_zero]
    rcases eq_or_ne i (s - 1) with rfl | hne
    · rw [Bool.not_eq_true _ |>.mp hbit, Bool.false_and]
    · rw [decide_eq_false hne, Bool.and_false]
  · intro hbit h
    have hboth : (m &&& sigmask s).getLsbD (s - 1) = true := by
      rw [BitVec.getLsbD_and, getLsbD_sigmask hs hle (by omega), hbit, decide_eq_true rfl, Bool.true_and]
    rw [h, BitVec.getLsbD_zero] at hboth
    cases hboth

theorem has_removed (hs : 0 < s) (hle : s ≤ 32) (ht : 0 < t) (htle : t ≤ 32) :
    has (m &&& ~~~sigmask s) t ↔ has m t ∧ t ≠ s := by
  rw [has_iff ht htle, has_iff ht htle, BitVec.getLsbD_and, BitVec.getLsbD_not,
    getLsbD_sigmask hs hle (by omega), Bool.and_eq_true, Bool.and_eq_true, decide_eq_true_iff,
    not_eq_true', decide_eq_false_iff_not]
  exact ⟨fun ⟨h, _, hne⟩ => ⟨h, by omega⟩, fun ⟨h, hne⟩ => ⟨h, by omega, by omega⟩⟩

theorem clear_or (hm : m &&& cantmask = 0#32) (hm' : m' &&& cantmask = 0#32) :
    (m ||| m') &&& cantmask = 0#32 := by
  rw [BitVec.and_comm, BitVec.and_or_distrib_left, BitVec.and_comm, hm, BitVec.and_comm, hm']
  rfl

theorem clear_filtered : m &&& ~~~cantmask &&& cantmask = 0#32 := by
  have hnone : ~~~cantmask &&& cantmask = 0#32 := by decide
  rw [BitVec.and_assoc, hnone, BitVec.and_zero]

theorem nxtBit_spec (m : SignalSet) :
    (nxtBit m = 0 ∧ ∀ t, 0 < t → t < 32 → ¬ has m t) ∨
      0 < nxtBit m ∧ nxtBit m < 32 ∧ has m (nxtBit m) ∧ ∀ t, 0 < t → t < nxtBit m → ¬ has m t := by
  rw [nxtBit]
  cases hfind : (List.range' 1 31).find? fun i => m &&& sigmask i ≠ 0 with
  | none =>
    refine .inl ⟨rfl, fun t ht htlt h => ?_⟩
    have hnot := List.find?_range'_eq_none.mp hfind t (by omega) (by omega)
    simp only [not_eq_true', decide_eq_false_iff_not] at hnot
    exact hnot h
  | some s =>
    obtain ⟨hs, hmem, hlower⟩ := List.find?_range'_eq_some.mp hfind
    have hrange := List.mem_range'_1.mp hmem
    refine .inr ⟨hrange.1, hrange.2, of_decide_eq_true hs, fun t ht hlt h => ?_⟩
    have hnot := hlower t (by omega) hlt
    simp only [not_eq_true', decide_eq_false_iff_not] at hnot
    exact hnot h

end Masks

namespace Uxsignal

def Waiting (x : Uxsignal) (s : ℕ) : Prop := 0 < s ∧ s < 32 ∧ has (x.pending &&& ~~~x.blocked) s

instance (x : Uxsignal) (s : ℕ) : Decidable (x.Waiting s) := inferInstanceAs (Decidable (_ ∧ _))

def Skipped (x : Uxsignal) (s : ℕ) : Prop :=
  (x.vec s).handler = .dfl ∧ defaultHandlers s = .ignore

def Reached (x : Uxsignal) (s : ℕ) : Prop :=
  x.Waiting s ∧ ∀ t < s, x.Waiting t →
    x.Skipped t ∨ ∃ v ≤ t, x.Waiting v ∧ (x.vec v).handler = .signalIgnore

def Taken (x : Uxsignal) (sensitive : Bool) (s : ℕ) : Prop :=
  match (x.vec s).handler with
  | .ign => False
  | .dfl => defaultHandlers s ≠ .ignore ∧ sensitive = true
  | _ => True

def Spared (x : Uxsignal) (sensitive : Bool) (fails : ℕ → Bool) : Prop :=
  ∀ s < 32, x.Reached s → x.Taken sensitive s → fails s = false →
    (sigmask s ||| (x.vec s).mask) &&& cantmask = 0#32

structure Unmasked (x : Uxsignal) : Prop where
  blocked : x.blocked &&& cantmask = 0#32
  saved : x.useOldMask = true → x.prevBlocked &&& cantmask = 0#32
  calls : ∀ c ∈ x.calls, c.oldMask &&& cantmask = 0#32
  kill : (x.vec sigkill).handler = .dfl
  stop : (x.vec sigstop).handler = .dfl

structure Keeps (x y : Uxsignal) : Prop where
  blocked : y.blocked = x.blocked
  useOldMask : y.useOldMask = x.useOldMask
  prevBlocked : y.prevBlocked = x.prevBlocked
  vec : y.vec = x.vec
  calls : y.calls = x.calls

structure Handed (x : Uxsignal) (s : ℕ) (y : Uxsignal) : Prop where
  pending : y.pending = x.pending &&& ~~~sigmask s
  blocked : y.blocked = x.blocked ||| (sigmask s ||| (x.vec s).mask)
  useOldMask : y.useOldMask = false
  vec : y.vec = x.vec
  calls : ∃ c, y.calls = c :: x.calls ∧ c.oldMask = x.oldMask

def First (x : Uxsignal) (s : ℕ) : Prop := x.Waiting s ∧ ∀ t, x.Waiting t → s ≤ t

inductive Turned (x : Uxsignal) (sensitive : Bool) (fails : ℕ → Bool) : Turn → Prop where
  | kept (y : Uxsignal) (h : Handler) : x.Keeps y → Turned x sensitive fails (.done y h)
  | skipped (s : ℕ) : x.First s → x.Skipped s →
      Turned x sensitive fails (.again { x with pending := x.pending &&& ~~~sigmask s })
  | handed (s : ℕ) (y : Uxsignal) (h : Handler) : x.First s → x.Taken sensitive s →
      fails s = false → x.Handed s y → Turned x sensitive fails (.done y h)
  | passed (s : ℕ) (y : Uxsignal) : x.First s → (x.vec s).handler = .signalIgnore →
      fails s = false → x.Handed s y → Turned x sensitive fails (.again y)

variable {x y z : Uxsignal} {sensitive : Bool} {fails : ℕ → Bool} {s t : ℕ} {h : Handler}

theorem hand_turned {code : ℤ} {isDefault : Bool} (hfirst : x.First s)
    (hpending : z.pending = x.pending &&& ~~~sigmask s) (hkeeps : x.Keeps z)
    (htaken : x.Taken sensitive s) (hignore : h = .signalIgnore → (x.vec s).handler = .signalIgnore) :
    Turned x sensitive fails (z.hand x sensitive (fails s) s h code isDefault) := by
  unfold hand
  cases hfails : fails s with
  | true => exact .kept _ _ ⟨rfl, rfl, hkeeps.prevBlocked, hkeeps.vec, hkeeps.calls⟩
  | false =>
    have hhanded : x.Handed s
        { z.block s with calls := z.record sensitive s h code isDefault :: z.calls } := by
      refine ⟨hpending, ?_, rfl, hkeeps.vec, _, by rw [hkeeps.calls], ?_⟩
      · change z.blocked ||| (sigmask s ||| (z.vec s).mask) = _
        rw [hkeeps.blocked, hkeeps.vec]
      · change z.oldMask = x.oldMask
        rw [oldMask, oldMask, hkeeps.useOldMask, hkeeps.prevBlocked, hkeeps.blocked]
    by_cases heq : h = .signalIgnore
    · rw [if_pos heq]
      exact .passed s _ hfirst (hignore heq) hfails hhanded
    · rw [if_neg heq]
      exact .handed s _ h hfirst htaken hfails hhanded

theorem first_of_nxtBit (h : nxtBit (x.pending &&& ~~~x.blocked) ≠ 0) :
    x.First (nxtBit (x.pending &&& ~~~x.blocked)) := by
  rcases nxtBit_spec (x.pending &&& ~~~x.blocked) with ⟨hzero, -⟩ | ⟨hpos, hlt, hhas, hlower⟩
  · exact absurd hzero h
  · refine ⟨⟨hpos, hlt, hhas⟩, fun t ht => ?_⟩
    by_contra hless
    exact hlower t ht.1 (not_le.mp hless) ht.2.2

variable (x sensitive fails) in
theorem turn_turned : Turned x sensitive fails (x.turn sensitive fails) := by
  simp only [turn]
  by_cases hnone : x.pending &&& ~~~x.blocked = 0#32
  · rw [if_pos hnone]
    exact .kept _ _ ⟨rfl, rfl, rfl, rfl, rfl⟩
  rw [if_neg hnone]
  by_cases hzero : nxtBit (x.pending &&& ~~~x.blocked) = 0
  · rw [if_pos hzero]
    exact .kept _ _ ⟨rfl, rfl, rfl, rfl, rfl⟩
  rw [if_neg hzero]
  have hfirst := first_of_nxtBit hzero
  generalize nxtBit (x.pending &&& ~~~x.blocked) = s at hfirst ⊢
  cases hh : (x.vec s).handler with
  | ign => exact .kept _ _ ⟨rfl, rfl, rfl, rfl, rfl⟩
  | dfl =>
    have htaken (hd : defaultHandlers s ≠ .ignore) (hs : sensitive = true) : x.Taken sensitive s := by
      rw [Taken, hh]
      exact ⟨hd, hs⟩
    cases hd : defaultHandlers s with
    | ignore => exact .skipped s hfirst ⟨hh, hd⟩
    | terminate | core | stop =>
      split_ifs with hs
      · exact hand_turned hfirst rfl ⟨rfl, rfl, rfl, rfl, rfl⟩ (htaken (by simp [hd]) hs)
          fun h => Handler.noConfusion h
      · exact .kept _ _ ⟨rfl, rfl, rfl, rfl, rfl⟩
  | signalIgnore | signalTerminate | signalCore | signalStop | routine =>
    refine hand_turned hfirst rfl ⟨rfl, rfl, rfl, rfl, rfl⟩ ?_ fun h => hh.trans h
    rw [Taken, hh]
    trivial

theorem Keeps.unmasked (h : x.Keeps y) (hx : x.Unmasked) : y.Unmasked := by
  refine ⟨h.blocked ▸ hx.blocked, fun hold => ?_, h.calls ▸ hx.calls, h.vec ▸ hx.kill, h.vec ▸ hx.stop⟩
  rw [h.prevBlocked]
  exact hx.saved (h.useOldMask ▸ hold)

theorem Unmasked.old (h : x.Unmasked) : x.oldMask &&& cantmask = 0#32 := by
  unfold oldMask
  split_ifs with hold
  · exact h.saved hold
  · exact h.blocked

theorem Handed.unmasked (h : x.Handed s y) (hx : x.Unmasked)
    (hclear : (sigmask s ||| (x.vec s).mask) &&& cantmask = 0#32) : y.Unmasked := by
  refine ⟨?_, fun hold => ?_, fun c hc => ?_, h.vec ▸ hx.kill, h.vec ▸ hx.stop⟩
  · rw [h.blocked]
    exact clear_or hx.blocked hclear
  · exact absurd (h.useOldMask.symm.trans hold) false_ne_true
  · obtain ⟨d, hcalls, hold⟩ := h.calls
    rw [hcalls] at hc
    rcases List.mem_cons.mp hc with rfl | hc
    · rw [hold]
      exact hx.old
    · exact hx.calls c hc

theorem First.after (hs : x.First s) (hpending : y.pending = x.pending &&& ~~~sigmask s)
    (hblocked : ∃ m, y.blocked = x.blocked ||| m) (ht : y.Waiting t) : x.Waiting t ∧ t ≠ s := by
  obtain ⟨hpos, hlt, hhas⟩ := ht
  obtain ⟨m, hm⟩ := hblocked
  rw [has_iff hpos hlt.le, hpending, hm] at hhas
  simp only [BitVec.getLsbD_and, BitVec.getLsbD_not, BitVec.getLsbD_or, Bool.and_eq_true,
    not_eq_true', or_eq_false_iff, getLsbD_sigmask hs.1.1 hs.1.2.1.le (i := t - 1) (by omega),
    decide_eq_false_iff_not] at hhas
  obtain ⟨⟨hp, -, hne⟩, hlt', hb, -⟩ := hhas
  refine ⟨⟨hpos, hlt, (has_iff hpos hlt.le).mpr ?_⟩, fun h => hne (h ▸ rfl)⟩
  rw [BitVec.getLsbD_and, BitVec.getLsbD_not, hp, hb, hlt']
  rfl

theorem First.spared (hs : x.First s) (hpast : x.Skipped s ∨ (x.vec s).handler = .signalIgnore)
    (hpending : y.pending = x.pending &&& ~~~sigmask s) (hblocked : ∃ m, y.blocked = x.blocked ||| m)
    (hvec : y.vec = x.vec) (hkept : (x.vec s).handler ≠ .signalIgnore → y.blocked = x.blocked)
    (h : x.Spared sensitive fails) : y.Spared sensitive fails := by
  intro u hu ⟨hwaiting, hlower⟩ htaken hfails
  rw [hvec]
  refine h u hu ⟨(hs.after hpending hblocked hwaiting).1, fun t htu ht => ?_⟩ ?_ hfails
  · rcases hpast with hskip | hown
    · by_cases hts : t = s
      · exact .inl (hts ▸ hskip)
      · have hsame : y.blocked = x.blocked := hkept (by rw [hskip.1]; exact Handler.noConfusion)
        have hty : y.Waiting t := by
          refine ⟨ht.1, ht.2.1, ?_⟩
          have hboth := ht.2.2
          rw [has_iff ht.1 ht.2.1.le, BitVec.getLsbD_and, Bool.and_eq_true] at hboth
          rw [has_iff ht.1 ht.2.1.le, BitVec.getLsbD_and, hsame, hboth.2, Bool.and_true, hpending,
            ← has_iff ht.1 ht.2.1.le, has_removed hs.1.1 hs.1.2.1.le ht.1 ht.2.1.le, has_iff ht.1 ht.2.1.le]
          exact ⟨hboth.1, hts⟩
        rcases hlower t htu hty with hskipped | ⟨v, hvt, hv, hvown⟩
        · exact .inl (by rwa [Skipped, hvec] at hskipped)
        · exact .inr ⟨v, hvt, (hs.after hpending hblocked hv).1, hvec ▸ hvown⟩
    · exact .inr ⟨s, hs.2 t ht, hs.1, hown⟩
  · rwa [Taken, hvec] at htaken

theorem Handed.grown (h : x.Handed s y) : ∃ m, y.blocked = x.blocked ||| m := ⟨_, h.blocked⟩

theorem First.reached (h : x.First s) : x.Reached s :=
  ⟨h.1, fun t hlt ht => absurd (h.2 t ht) (not_le.mpr hlt)⟩

theorem deliverLoop_unmasked {n : ℕ} (hx : x.Unmasked) (hspared : x.Spared sensitive fails) :
    (deliverLoop sensitive fails n x).1.Unmasked := by
  induction n generalizing x with
  | zero => exact hx
  | succ n ih =>
    have hclear {s : ℕ} (hs : x.First s) (htaken : x.Taken sensitive s) (hfails : fails s = false) :
        (sigmask s ||| (x.vec s).mask) &&& cantmask = 0#32 :=
      hspared s hs.1.2.1 hs.reached htaken hfails
    have hturn := turn_turned x sensitive fails
    rw [deliverLoop]
    generalize x.turn sensitive fails = r at hturn
    cases hturn with
    | kept y h hkeeps => exact hkeeps.unmasked hx
    | skipped s hs hskip =>
      exact ih (x := { x with pending := x.pending &&& ~~~sigmask s })
        ⟨hx.blocked, hx.saved, hx.calls, hx.kill, hx.stop⟩
        (hs.spared (.inl hskip) rfl ⟨0#32, BitVec.or_zero.symm⟩ rfl (fun _ => rfl) hspared)
    | handed s y h hs htaken hfails hhanded => exact hhanded.unmasked hx (hclear hs htaken hfails)
    | passed s y hs hown hfails hhanded =>
      have htaken : x.Taken sensitive s := by
        rw [Taken, hown]
        trivial
      exact ih (hhanded.unmasked hx (hclear hs htaken hfails))
        (hs.spared (.inr hown) hhanded.pending hhanded.grown hhanded.vec
          (fun hnot => absurd hown hnot) hspared)

def waitingCount (x : Uxsignal) : ℕ := ((range 32).filter x.Waiting).card

theorem First.waitingCount_lt (hs : x.First s) (hpending : y.pending = x.pending &&& ~~~sigmask s)
    (hblocked : ∃ m, y.blocked = x.blocked ||| m) : y.waitingCount < x.waitingCount := by
  refine card_lt_card ⟨fun t ht => ?_, fun hall => ?_⟩
  · have hty := (mem_filter.mp ht).2
    exact mem_filter.mpr ⟨(mem_filter.mp ht).1, (hs.after hpending hblocked hty).1⟩
  · have hmem := hall (mem_filter.mpr ⟨mem_range.mpr hs.1.2.1, hs.1⟩)
    exact (hs.after hpending hblocked (mem_filter.mp hmem).2).2 rfl

theorem turn_lt (h : x.turn sensitive fails = .again y) : y.waitingCount < x.waitingCount := by
  have hturn := turn_turned x sensitive fails
  rw [h] at hturn
  cases hturn with
  | skipped s hs _ => exact hs.waitingCount_lt rfl ⟨0#32, BitVec.or_zero.symm⟩
  | passed s _ hs _ _ hhanded => exact hs.waitingCount_lt hhanded.pending hhanded.grown

theorem waitingCount_lt (x : Uxsignal) : x.waitingCount < 32 := by
  have hsub : (range 32).filter x.Waiting ⊆ (range 32).erase 0 := by
    intro t ht
    obtain ⟨hrange, hpos, -⟩ := mem_filter.mp ht
    exact mem_erase.mpr ⟨hpos.ne', hrange⟩
  calc x.waitingCount ≤ ((range 32).erase 0).card := card_le_card hsub
    _ < 32 := by decide

theorem deliver_unmasked (hx : x.Unmasked) (hspared : x.Spared sensitive fails) :
    (x.deliver sensitive fails).1.Unmasked := by
  have h := deliverLoop_unmasked (n := 32) hx hspared
  unfold deliver
  simp only
  split_ifs
  · exact h
  · exact ⟨h.blocked, h.saved, h.calls, h.kill, h.stop⟩

def Guarded (x : Uxsignal) : Call → Prop
  | .deliver sensitive fails => x.Spared sensitive fails
  | .sigreturn _ mask fails => mask &&& cantmask = 0#32 ∧ Spared { x with blocked := mask } true fails
  | .setHandler sig handler => sig = sigkill ∨ sig = sigstop → handler = .dfl
  | .setMask mask fails => Spared { x with blocked := mask &&& ~~~cantmask } true fails
  | .pause mask fails => mask &&& cantmask = 0#32 ∧ Spared { x with blocked := mask } true fails
  | _ => True

theorem signalSetVec_unmasked {sig : ℤ} {vec : Option SigVec} (h : x.Unmasked) :
    (x.signalSetVec sig vec).Unmasked := by
  unfold signalSetVec
  split_ifs with hrefused hmask
  · exact h
  · cases vec with
    | none => exact h
    | some v =>
      have hne (s : ℕ) (hs : s = sigkill ∨ s = sigstop) : s ≠ sig.toNat := by
        rintro rfl
        omega
      refine ⟨h.blocked, h.saved, h.calls, ?_, ?_⟩
      · change (update x.vec sig.toNat v sigkill).handler = _
        rw [update_of_ne (hne _ (.inl rfl))]
        exact h.kill
      · change (update x.vec sig.toNat v sigstop).handler = _
        rw [update_of_ne (hne _ (.inr rfl))]
        exact h.stop
  · exact h

theorem signalSetHandler_unmasked {sig : ℤ} (h : x.Unmasked) {handler : Handler}
    (hhandler : sig = sigkill ∨ sig = sigstop → handler = .dfl) :
    (x.signalSetHandler sig handler).Unmasked := by
  unfold signalSetHandler
  split_ifs with hrefused
  · exact h
  · have hself (s : ℕ) (hs : s = sigkill ∨ s = sigstop) (hdfl : (x.vec s).handler = .dfl) :
        (update x.vec sig.toNat
          { x.vec sig.toNat with
            handler := handler
            mask := (x.vec sig.toNat).mask &&& ~~~cantmask } s).handler = .dfl := by
      rcases eq_or_ne s sig.toNat with rfl | hne
      · rw [update_self]
        exact hhandler (by omega)
      · rw [update_of_ne hne]
        exact hdfl
    exact ⟨h.blocked, h.saved, h.calls, hself _ (.inl rfl) h.kill, hself _ (.inr rfl) h.stop⟩

theorem signalPause_unmasked {mask : SignalSet} (h : x.Unmasked) (hmask : mask &&& cantmask = 0#32)
    (hspared : Spared { x with blocked := mask } true fails) : (x.signalPause mask fails).Unmasked := by
  have hstart : Unmasked { x with prevBlocked := x.blocked, blocked := mask, useOldMask := true } :=
    ⟨hmask, fun _ => h.blocked, h.calls, h.kill, h.stop⟩
  have hdone := deliver_unmasked hstart hspared
  unfold signalPause
  simp only
  split_ifs
  · exact hdone
  · exact ⟨hdone.blocked, hdone.saved, hdone.calls, hdone.kill, hdone.stop⟩

theorem next_unmasked {c : Call} (h : x.Unmasked) (hc : x.Guarded c) (hy : x.next c = some y) :
    y.Unmasked := by
  cases c with
  | reset =>
    cases hy
    exact ⟨BitVec.zero_and, fun hold => Bool.noConfusion hold, h.calls, rfl, rfl⟩
  | post sig code tmPostId =>
    cases hy
    unfold signalPost
    split_ifs <;> exact ⟨h.blocked, h.saved, h.calls, h.kill, h.stop⟩
  | deliver sensitive fails =>
    cases hy
    exact deliver_unmasked h hc
  | sigreturn onStack mask fails =>
    cases hy
    exact deliver_unmasked ⟨hc.1, h.saved, h.calls, h.kill, h.stop⟩ hc.2
  | setVec sig vec =>
    cases hy
    exact signalSetVec_unmasked h
  | setHandler sig handler =>
    cases hy
    exact signalSetHandler_unmasked h hc
  | block mask =>
    cases hy
    exact ⟨clear_or h.blocked clear_filtered, h.saved, h.calls, h.kill, h.stop⟩
  | setMask mask fails =>
    cases hy
    exact deliver_unmasked ⟨clear_filtered, h.saved, h.calls, h.kill, h.stop⟩ hc
  | setStack stack =>
    cases hy
    exact ⟨h.blocked, h.saved, h.calls, h.kill, h.stop⟩
  | pause mask fails =>
    cases hy
    exact signalPause_unmasked h hc.1 hc.2

theorem create_unmasked {prevBlocked : SignalSet} {uxCode tmPostIds : ℕ → ℤ} :
    (create prevBlocked uxCode tmPostIds).Unmasked :=
  ⟨BitVec.zero_and, fun hold => Bool.noConfusion hold, fun _ hc => absurd hc List.not_mem_nil, rfl, rfl⟩

theorem signals_unmasked (prevBlocked : SignalSet) (uxCode tmPostIds : ℕ → ℤ)
    (hrun : ReflTransGen (Under next Guarded) (create prevBlocked uxCode tmPostIds) x) :
    x.Unmasked :=
  Transition.invariant (fun _ _ _ hx hc hy => next_unmasked hx hc hy) hrun create_unmasked

instance decidableSkipped (x : Uxsignal) (s : ℕ) : Decidable (x.Skipped s) :=
  inferInstanceAs (Decidable (_ ∧ _))

instance decidableReached (x : Uxsignal) (s : ℕ) : Decidable (x.Reached s) :=
  inferInstanceAs (Decidable (x.Waiting s ∧ ∀ t < s, x.Waiting t →
    x.Skipped t ∨ ∃ v ≤ t, x.Waiting v ∧ (x.vec v).handler = .signalIgnore))

instance decidableTaken (x : Uxsignal) (sensitive : Bool) (s : ℕ) : Decidable (x.Taken sensitive s) := by
  unfold Taken
  split <;> infer_instance

instance decidableSpared (x : Uxsignal) (sensitive : Bool) (fails : ℕ → Bool) :
    Decidable (x.Spared sensitive fails) :=
  inferInstanceAs (Decidable (∀ s < 32, x.Reached s → x.Taken sensitive s → fails s = false →
    (sigmask s ||| (x.vec s).mask) &&& cantmask = 0#32))

instance decidableGuarded (x : Uxsignal) (c : Call) : Decidable (x.Guarded c) := by
  unfold Guarded
  split <;> infer_instance

def fresh : Uxsignal := create 0 (fun _ => 0) fun _ => 0

def catching : List Call :=
  [.setVec 2 (some ⟨.routine 1, sigmask 3, true⟩), .setHandler 20 (.routine 2), .setStack (some 4096),
    .block (sigmask 20 ||| sigmask sigkill), .post 20 0 0, .post 2 0 0, .deliver true fun _ => true,
    .deliver true fun _ => false, .setMask (sigmask 2) fun _ => false, .post 9 0 1,
    .deliver false fun _ => false, .sigreturn false (sigmask 20) fun _ => false,
    .pause (sigmask 1) fun _ => false]

theorem signals_unmasked_catching : ∃ x : Uxsignal, exec next fresh catching = some x ∧ x.Unmasked ∧
    x.blocked = sigmask 1 ∧ x.calls.map HandlerCall.sig = [20, 2] := by
  have h : check next fresh catching (fun x =>
      decide (x.blocked = sigmask 1 ∧ x.calls.map HandlerCall.sig = [20, 2])) = true := by
    decide +kernel
  obtain ⟨x, hx, ht⟩ := exec_of_check h
  have hadmits : Admits next Guarded fresh catching := by decide +kernel
  exact ⟨x, hx, signals_unmasked 0 (fun _ => 0) (fun _ => 0) (run_of_exec hadmits hx), of_decide_eq_true ht⟩

theorem pause_masks_kill : ∃ x : Uxsignal, ReflTransGen (Under next Free) fresh x ∧ has x.blocked sigkill := by
  have h : check next fresh [.pause (sigmask sigkill) fun _ => false] (fun x =>
      decide (has x.blocked sigkill)) = true := by
    decide +kernel
  obtain ⟨x, hx, ht⟩ := exec_of_check h
  exact ⟨x, run_of_exec (free_admits _ _) hx, of_decide_eq_true ht⟩

end Uxsignal

end MachUS.Ux
