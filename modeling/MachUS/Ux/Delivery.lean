import MachUS.Ux.SignalRuns

namespace MachUS.Ux.Uxsignal

open Function

inductive Deed where
  | ignored
  | discarded
  | invoked
  | setUp
  | refused
  deriving DecidableEq

structure Taking where
  sig : ℕ
  deed : Deed
  before : Uxsignal
  after : Uxsignal

def Taking.Handled (t : Taking) : Prop := t.deed = .invoked ∨ t.deed = .setUp

variable (x : Uxsignal) (sensitive : Bool) (fails : ℕ → Bool)

def deed (s : ℕ) : Deed :=
  match (x.vec s).handler with
  | .ign => .discarded
  | .dfl =>
    if defaultHandlers s = .ignore then .ignored
    else if sensitive = false then .invoked
    else if fails s then .refused else .setUp
  | _ => if fails s then .refused else .setUp

def takings : ℕ → Uxsignal → List Taking
  | 0, _ => []
  | n + 1, x =>
    let sig := nxtBit (x.pending &&& ~~~x.blocked)
    if sig = 0 then []
    else
      match x.turn sensitive fails with
      | .again y => ⟨sig, x.deed sensitive fails sig, x, y⟩ :: takings n y
      | .done y _ => [⟨sig, x.deed sensitive fails sig, x, y⟩]

def Disregarded (s : ℕ) : Prop := (x.vec s).handler = .ign ∨ x.Skipped s

def left : SignalSet := x.pending &&& ~~~x.blocked

inductive Stops (sensitive : Bool) (fails : ℕ → Bool) : Uxsignal → Prop where
  | done {x y : Uxsignal} {h : Handler} : x.turn sensitive fails = .done y h → Stops sensitive fails x
  | again {x y : Uxsignal} :
      x.turn sensitive fails = .again y → Stops sensitive fails y → Stops sensitive fails x

structure Restored (before after : Uxsignal) : Prop where
  blocked : after.blocked = before.blocked
  pending : after.pending = before.pending
  paused : after.paused = before.paused
  useOldMask : after.useOldMask = before.useOldMask
  onStack : after.onStack = before.onStack
  tmPostIds : after.tmPostIds = before.tmPostIds

structure Delivers : Prop where
  stops : Stops sensitive fails x
  ordered : ((takings sensitive fails 32 x).map Taking.sig).Pairwise (· < ·)
  success : (x.deliver sensitive fails).2 = true ↔
    ∃ t ∈ takings sensitive fails 32 x, t.Handled
  leftover : (x.deliver sensitive fails).2 = false →
    ∀ s, 0 < s → s ≤ nsig → has (x.deliver sensitive fails).1.left s →
      (x.deliver sensitive fails).1.Disregarded s ∨
        ∃ t ∈ takings sensitive fails 32 x, t.sig = s ∧ t.deed = .refused
  restored : ∀ t ∈ takings sensitive fails 32 x, t.deed = .refused → Restored t.before t.after

def Course : List ℕ → SignalSet → Bool → Prop
  | [], blocked, set =>
    set = false ∧ (has (x.pending &&& ~~~blocked) nsig → x.Disregarded nsig)
  | s :: ss, blocked, set =>
    if has (x.pending &&& ~~~blocked) s then
      match x.deed sensitive fails s with
      | .ignored => Course ss blocked set
      | .discarded => set = true
      | .invoked => True
      | .setUp =>
        if (x.vec s).handler = .signalIgnore then
          Course ss (blocked ||| (sigmask s ||| (x.vec s).mask)) true
        else True
      | .refused =>
        set = false ∧ ((x.vec s).handler = .dfl → x.tmPostIds s = 0) ∧
          ∀ t ∈ ss ++ [nsig], has (x.pending &&& ~~~blocked) t → x.Disregarded t
    else Course ss blocked set

variable {x sensitive fails} {y : Uxsignal} {s : ℕ}

inductive Acted (x : Uxsignal) (s : ℕ) : Deed → Turn → Prop where
  | ignored : x.Skipped s →
      Acted x s .ignored (.again { x with pending := x.pending &&& ~~~sigmask s })
  | discarded (y : Uxsignal) : Acted x s .discarded (.done y .ign)
  | invoked (y : Uxsignal) (h : Handler) : h ≠ .signalIgnore → Acted x s .invoked (.done y h)
  | setUp (y : Uxsignal) (h : Handler) : (x.vec s).handler ≠ .signalIgnore → h ≠ .signalIgnore →
      Acted x s .setUp (.done y h)
  | marked (y : Uxsignal) : (x.vec s).handler = .signalIgnore →
      y.pending = x.pending &&& ~~~sigmask s →
      y.blocked = x.blocked ||| (sigmask s ||| (x.vec s).mask) →
      y.vec = x.vec → y.tmPostIds = x.tmPostIds → Acted x s .setUp (.again y)
  | refused (y : Uxsignal) :
      y.blocked = x.blocked → y.pending = x.pending → y.paused = x.paused →
      y.useOldMask = x.useOldMask → y.onStack = x.onStack → y.vec = x.vec →
      y.tmPostIds = (if (x.vec s).handler = .dfl then update x.tmPostIds s 0
        else x.tmPostIds) →
      Acted x s .refused (.done y .signalIgnore)

theorem SigDef.handler_ne {d : SigDef} (hd : d ≠ .ignore) : d.handler ≠ .signalIgnore := by
  cases d with
  | ignore => exact absurd rfl hd
  | terminate | core | stop => exact Handler.noConfusion

theorem hand_own_acted {h : Handler} {code : ℤ} (hh : (x.vec s).handler = h) (hdfl : h ≠ .dfl) :
    Acted x s (if fails s then .refused else .setUp)
      (hand { x with pending := x.pending &&& ~~~sigmask s } x sensitive (fails s) s h code
        false) := by
  unfold hand
  cases fails s with
  | true => exact .refused _ rfl rfl rfl rfl rfl rfl (by rw [if_neg (hh ▸ hdfl)])
  | false =>
    by_cases heq : h = .signalIgnore
    · rw [if_pos heq]
      exact .marked _ (hh.trans heq) rfl rfl rfl rfl
    · rw [if_neg heq]
      exact .setUp _ h (hh ▸ heq) heq

theorem hand_default_acted {d : SigDef} {code : ℤ} (hh : (x.vec s).handler = .dfl)
    (hd : d ≠ .ignore) :
    Acted x s (if fails s then .refused else .setUp)
      (hand { x with
        pending := x.pending &&& ~~~sigmask s
        tmPostIds := update x.tmPostIds s 0 } x sensitive (fails s) s d.handler code
        true) := by
  unfold hand
  cases fails s with
  | true => exact .refused _ rfl rfl rfl rfl rfl rfl (by rw [if_pos hh])
  | false =>
    rw [if_neg (SigDef.handler_ne hd)]
    exact .setUp _ _ (by rw [hh]; exact Handler.noConfusion) (SigDef.handler_ne hd)

theorem First.nxtBit_eq (hs : x.First s) : nxtBit (x.pending &&& ~~~x.blocked) = s := by
  rcases nxtBit_spec (x.pending &&& ~~~x.blocked) with ⟨-, hnone⟩ | ⟨hpos, hlt, hhas, hlower⟩
  · exact absurd hs.1.2.2 (hnone s hs.1.1 hs.1.2.1)
  · refine le_antisymm ?_ (hs.2 _ ⟨hpos, hlt, hhas⟩)
    by_contra hless
    exact hlower s hs.1.1 (not_le.mp hless) hs.1.2.2

theorem First.acted (sensitive : Bool) (fails : ℕ → Bool) (hs : x.First s) :
    Acted x s (x.deed sensitive fails s) (x.turn sensitive fails) := by
  have hsome : x.pending &&& ~~~x.blocked ≠ 0#32 := by
    intro hnone
    have hhas := hs.1.2.2
    rw [hnone] at hhas
    exact hhas (BitVec.zero_and)
  simp only [turn, hs.nxtBit_eq]
  rw [if_neg hsome, if_neg hs.1.1.ne', deed]
  cases hh : (x.vec s).handler with
  | ign => exact .discarded _
  | dfl =>
    cases hd : defaultHandlers s with
    | ignore => exact .ignored ⟨hh, hd⟩
    | terminate | core | stop =>
      cases sensitive with
      | false => exact .invoked _ _ Handler.noConfusion
      | true => exact hand_default_acted hh (d := _) SigDef.noConfusion
  | signalIgnore | signalTerminate | signalCore | signalStop | routine =>
    exact hand_own_acted hh Handler.noConfusion

theorem has_unblocked {p b : SignalSet} (hs : 0 < s) (hle : s ≤ 32) :
    has (p &&& ~~~b) s ↔ has p s ∧ ¬ has b s := by
  rw [has_iff hs hle, has_iff hs hle, has_iff hs hle, BitVec.getLsbD_and, BitVec.getLsbD_not,
    decide_eq_true (by omega : s - 1 < 32), Bool.true_and, Bool.and_eq_true, Bool.not_eq_true',
    Bool.not_eq_true]

theorem course_congr (hvec : y.vec = x.vec) (hids : y.tmPostIds = x.tmPostIds) {ss : List ℕ}
    (hss : ∀ t ∈ ss ++ [nsig], 0 < t ∧ t ≤ 32 ∧ (has y.pending t ↔ has x.pending t))
    (blocked : SignalSet) (set : Bool) :
    Course y sensitive fails ss blocked set ↔ Course x sensitive fails ss blocked set := by
  have hsame {t : ℕ} (ht : t ∈ ss ++ [nsig]) (b : SignalSet) :
      has (y.pending &&& ~~~b) t ↔ has (x.pending &&& ~~~b) t := by
    obtain ⟨hpos, hle, hiff⟩ := hss t ht
    rw [has_unblocked hpos hle, has_unblocked hpos hle, hiff]
  have hdisregarded (t : ℕ) : y.Disregarded t ↔ x.Disregarded t := by
    rw [Disregarded, Disregarded, Skipped, Skipped, hvec]
  induction ss generalizing blocked set with
  | nil => rw [Course, Course, hsame (by simp), hdisregarded]
  | cons s ss ih =>
    have ih := fun b v => ih (fun t ht => hss t (.tail s ht)) b v fun ht => hsame (.tail s ht)
    have hdeed : y.deed sensitive fails s = x.deed sensitive fails s := by rw [deed, deed, hvec]
    have hrest (b : SignalSet) : (∀ t ∈ ss ++ [nsig], has (y.pending &&& ~~~b) t → y.Disregarded t) ↔
        ∀ t ∈ ss ++ [nsig], has (x.pending &&& ~~~b) t → x.Disregarded t :=
      forall₂_congr fun t ht => by rw [hsame (.tail s ht), hdisregarded]
    simp only [Course, hsame (List.mem_cons_self : s ∈ s :: (ss ++ [nsig])), hdeed, hvec, hids, ih,
      hrest]

structure Finishes (sensitive : Bool) (fails : ℕ → Bool) (n : ℕ) (x : Uxsignal) (set : Bool) :
    Prop where
  success : (deliverLoop sensitive fails n x).2 ≠ .signalIgnore ↔
    set = true ∨ ∃ t ∈ takings sensitive fails n x, t.Handled
  leftover : (deliverLoop sensitive fails n x).2 = .signalIgnore →
    ∀ s, 0 < s → s ≤ nsig → has (deliverLoop sensitive fails n x).1.left s →
      (deliverLoop sensitive fails n x).1.Disregarded s ∨
        ∃ t ∈ takings sensitive fails n x, t.sig = s ∧ t.deed = .refused
  restored : ∀ t ∈ takings sensitive fails n x, t.deed = .refused → Restored t.before t.after

section Turns

variable {n : ℕ} {set : Bool} {h : Handler}

theorem deliverLoop_again (hturn : x.turn sensitive fails = .again y) :
    deliverLoop sensitive fails (n + 1) x = deliverLoop sensitive fails n y := by
  rw [deliverLoop, hturn]

theorem deliverLoop_done (hturn : x.turn sensitive fails = .done y h) :
    deliverLoop sensitive fails (n + 1) x = (y, h) := by
  rw [deliverLoop, hturn]

section

variable (hs : x.First s)

include hs

theorem takings_again (hturn : x.turn sensitive fails = .again y) :
    takings sensitive fails (n + 1) x =
      ⟨s, x.deed sensitive fails s, x, y⟩ :: takings sensitive fails n y := by
  simp only [takings, hs.nxtBit_eq, if_neg hs.1.1.ne', hturn]

theorem takings_done (hturn : x.turn sensitive fails = .done y h) :
    takings sensitive fails (n + 1) x = [⟨s, x.deed sensitive fails s, x, y⟩] := by
  simp only [takings, hs.nxtBit_eq, if_neg hs.1.1.ne', hturn]

theorem finishes_again_iff (hturn : x.turn sensitive fails = .again y)
    (hdeed : x.deed sensitive fails s = .ignored ∨ x.deed sensitive fails s = .setUp) :
    Finishes sensitive fails (n + 1) x set ↔
      Finishes sensitive fails n y (set || decide (x.deed sensitive fails s = .setUp)) := by
  have hloop := deliverLoop_again (n := n) hturn
  have htakings := takings_again (n := n) hs hturn
  have hhandled : (∃ t ∈ takings sensitive fails (n + 1) x, t.Handled) ↔
      x.deed sensitive fails s = .setUp ∨ ∃ t ∈ takings sensitive fails n y, t.Handled := by
    rw [htakings, List.exists_mem_cons_iff]
    refine or_congr ?_ Iff.rfl
    rcases hdeed with hdeed | hdeed <;> simp [Taking.Handled, hdeed]
  have hnot : x.deed sensitive fails s ≠ .refused := by
    rcases hdeed with hdeed | hdeed <;> simp [hdeed]
  have hrefused (v : ℕ) : (∃ t ∈ takings sensitive fails (n + 1) x, t.sig = v ∧ t.deed = .refused) ↔
      ∃ t ∈ takings sensitive fails n y, t.sig = v ∧ t.deed = .refused := by
    rw [htakings, List.exists_mem_cons_iff]
    exact or_iff_right fun hv => hnot hv.2
  constructor
  · intro hall
    refine ⟨?_, ?_, fun t ht => hall.restored t (htakings ▸ .tail _ ht)⟩
    · rw [← hloop, hall.success, hhandled, Bool.or_eq_true, decide_eq_true_iff, or_assoc]
    · intro hnone v hpos hle hleft
      rw [← hrefused, ← hloop]
      exact hall.leftover (hloop ▸ hnone) v hpos hle (hloop ▸ hleft)
  · intro hall
    refine ⟨?_, ?_, fun t ht hdeed => ?_⟩
    · rw [hloop, hall.success, hhandled, Bool.or_eq_true, decide_eq_true_iff, or_assoc]
    · intro hnone v hpos hle hleft
      rw [hrefused, hloop]
      exact hall.leftover (hloop ▸ hnone) v hpos hle (hloop ▸ hleft)
    · rw [htakings] at ht
      rcases List.mem_cons.1 ht with rfl | ht
      · exact absurd hdeed hnot
      · exact hall.restored t ht hdeed

theorem finishes_done_iff (hturn : x.turn sensitive fails = .done y h)
    (hne : h ≠ .signalIgnore) (hnot : x.deed sensitive fails s ≠ .refused) :
    Finishes sensitive fails (n + 1) x set ↔ set = true ∨
      (x.deed sensitive fails s = .invoked ∨ x.deed sensitive fails s = .setUp) := by
  have hloop := deliverLoop_done (n := n) hturn
  have htakings := takings_done (n := n) hs hturn
  have hhandled : (∃ t ∈ takings sensitive fails (n + 1) x, t.Handled) ↔
      x.deed sensitive fails s = .invoked ∨ x.deed sensitive fails s = .setUp := by
    rw [htakings, List.exists_mem_cons_iff]
    exact or_iff_left (by simp)
  rw [← hhandled]
  constructor
  · intro hall
    exact hall.success.1 (by rw [hloop]; exact hne)
  · intro hset
    refine ⟨iff_of_true (by rw [hloop]; exact hne) hset, ?_, ?_⟩
    · intro hnone
      rw [hloop] at hnone
      exact absurd hnone hne
    · intro t ht hdeed
      rw [htakings, List.mem_singleton] at ht
      rw [ht] at hdeed
      exact absurd hdeed hnot

theorem finishes_refused_iff (hturn : x.turn sensitive fails = .done y .signalIgnore)
    (hdeed : x.deed sensitive fails s = .refused) (hkept : y.pending = x.pending)
    (hblocked : y.blocked = x.blocked) (hvec : y.vec = x.vec) :
    Finishes sensitive fails (n + 1) x set ↔ set = false ∧ Restored x y ∧
      ∀ v, s < v → v ≤ nsig → has x.left v → x.Disregarded v := by
  have hloop := deliverLoop_done (n := n) hturn
  have htakings := takings_done (n := n) hs hturn
  have hnone : ¬ ∃ t ∈ takings sensitive fails (n + 1) x, t.Handled := by
    rw [htakings]
    simp [Taking.Handled, hdeed]
  have hrefused (v : ℕ) :
      (∃ t ∈ takings sensitive fails (n + 1) x, t.sig = v ∧ t.deed = .refused) ↔ s = v := by
    rw [htakings]
    simp [hdeed]
  have hleft : y.left = x.left := by rw [left, left, hkept, hblocked]
  have hdisregarded (v : ℕ) : y.Disregarded v ↔ x.Disregarded v := by
    rw [Disregarded, Disregarded, Skipped, Skipped, hvec]
  constructor
  · intro hall
    refine ⟨?_, ?_, fun v hlt hle hv => ?_⟩
    · by_contra hset
      exact hall.success.2 (.inl (Bool.not_eq_false _ |>.mp hset)) (by rw [hloop])
    · exact hall.restored ⟨s, _, x, y⟩ (by rw [htakings]; exact List.mem_singleton_self _) hdeed
    · have hcase := hall.leftover (by rw [hloop]) v (by omega) hle (by rw [hloop, hleft]; exact hv)
      rw [hrefused, hloop, hdisregarded] at hcase
      exact hcase.resolve_right hlt.ne
  · rintro ⟨rfl, hrestored, hrest⟩
    refine ⟨?_, ?_, ?_⟩
    · rw [hloop]
      simp [hnone]
    · intro _ v hpos hle hv
      rw [hloop, hleft] at hv
      rw [hrefused, hloop, hdisregarded]
      rcases lt_trichotomy s v with hlt | heq | hlt
      · exact .inl (hrest v hlt hle hv)
      · exact .inr heq
      · have hwaiting : x.Waiting v := ⟨hpos, hlt.trans hs.1.2.1, hv⟩
        exact absurd (hs.2 v hwaiting) (not_le.mpr hlt)
    · intro t ht _
      rw [htakings, List.mem_singleton] at ht
      rw [ht]
      exact hrestored

end

theorem restored_iff {s : ℕ} (hblocked : y.blocked = x.blocked) (hpending : y.pending = x.pending)
    (hpaused : y.paused = x.paused) (huse : y.useOldMask = x.useOldMask)
    (hstack : y.onStack = x.onStack)
    (hids : y.tmPostIds = if (x.vec s).handler = .dfl then update x.tmPostIds s 0
      else x.tmPostIds) :
    Restored x y ↔ ((x.vec s).handler = .dfl → x.tmPostIds s = 0) := by
  constructor
  · intro hrestored hdfl
    have hsame := congrFun hrestored.tmPostIds s
    rw [hids, if_pos hdfl, update_self] at hsame
    exact hsame.symm
  · intro hzero
    refine ⟨hblocked, hpending, hpaused, huse, hstack, ?_⟩
    rw [hids]
    split_ifs with hdfl
    · rw [← hzero hdfl, update_eq_self]
    · rfl

theorem idle (sensitive : Bool) (fails : ℕ → Bool) (n : ℕ) (hidle : ∀ t, ¬ x.Waiting t) :
    deliverLoop sensitive fails n x = (x, .signalIgnore) ∧ takings sensitive fails n x = [] := by
  have hzero : nxtBit (x.pending &&& ~~~x.blocked) = 0 := by
    by_contra hne
    exact hidle _ (first_of_nxtBit hne).1
  cases n with
  | zero => exact ⟨rfl, rfl⟩
  | succ n =>
    have hturn : x.turn sensitive fails = .done x .signalIgnore := by
      simp only [turn, hzero, if_true, ite_self]
    refine ⟨deliverLoop_done hturn, ?_⟩
    simp only [takings, hzero, if_true]

theorem finishes_idle_iff (hidle : ∀ t, ¬ x.Waiting t) :
    Finishes sensitive fails n x set ↔ Course x sensitive fails [] x.blocked set := by
  obtain ⟨hloop, htakings⟩ := idle sensitive fails n hidle
  constructor
  · intro hall
    refine ⟨?_, fun hlast => ?_⟩
    · by_contra hset
      exact hall.success.2 (.inl (Bool.not_eq_false _ |>.mp hset)) (by rw [hloop])
    · have hcase := hall.leftover (by rw [hloop]) nsig (by decide) le_rfl (by rw [hloop]; exact hlast)
      rw [hloop, htakings] at hcase
      exact hcase.resolve_right (by simp)
  · rintro ⟨rfl, hlast⟩
    refine ⟨?_, ?_, ?_⟩
    · rw [hloop, htakings]
      simp
    · intro _ v hpos hle hv
      rw [hloop] at hv ⊢
      rcases hle.lt_or_eq with hlt | rfl
      · exact absurd ⟨hpos, hlt, hv⟩ (hidle v)
      · exact .inl (hlast hv)
    · intro t ht
      rw [htakings] at ht
      cases ht

end Turns

theorem finishes_iff_course (m k n : ℕ) (x : Uxsignal) (set : Bool) (hk : k + m = 32) (hpos : 0 < k)
    (hlow : ∀ t, x.Waiting t → k ≤ t) (hn : x.waitingCount < n) :
    Finishes sensitive fails n x set ↔
      Course x sensitive fails (List.range' k m) x.blocked set := by
  induction m generalizing k n x set with
  | zero =>
    refine finishes_idle_iff fun t ht => ?_
    have := hlow t ht
    have := ht.2.1
    omega
  | succ m ih =>
    rw [List.range'_succ, Course]
    by_cases hhas : has (x.pending &&& ~~~x.blocked) k
    · have hs : x.First k := ⟨⟨hpos, by omega, hhas⟩, hlow⟩
      obtain ⟨n, rfl⟩ : ∃ n', n = n' + 1 := ⟨n - 1, by omega⟩
      have hafter {y : Uxsignal} (hpending : y.pending = x.pending &&& ~~~sigmask k)
          (hgrown : ∃ b, y.blocked = x.blocked ||| b) :
          (∀ t, y.Waiting t → k + 1 ≤ t) ∧ y.waitingCount < n := by
        have hcount := hs.waitingCount_lt hpending hgrown
        refine ⟨fun t ht => ?_, by omega⟩
        obtain ⟨hwait, hne⟩ := hs.after hpending hgrown ht
        have := hlow t hwait
        omega
      have hrest {y : Uxsignal} (hpending : y.pending = x.pending &&& ~~~sigmask k) :
          ∀ t ∈ List.range' (k + 1) m ++ [nsig], 0 < t ∧ t ≤ 32 ∧
            (has y.pending t ↔ has x.pending t) := by
        intro t ht
        have hrange : k + 1 ≤ t ∧ t ≤ 32 := by
          rcases List.mem_append.1 ht with ht | ht
          · have := List.mem_range'_1.1 ht
            omega
          · rw [List.mem_singleton.1 ht, nsig]
            omega
        refine ⟨by omega, hrange.2, ?_⟩
        rw [hpending, has_removed hpos (by omega) (by omega) hrange.2]
        exact and_iff_left (by omega)
      rw [if_pos hhas]
      have hacted := hs.acted sensitive fails
      generalize hdeed : x.deed sensitive fails k = d at hacted
      generalize hturn : x.turn sensitive fails = r at hacted
      cases hacted with
      | ignored hskip =>
        obtain ⟨hlow', hn'⟩ := hafter (y := { x with pending := x.pending &&& ~~~sigmask k }) rfl
          ⟨0#32, BitVec.or_zero.symm⟩
        rw [finishes_again_iff hs hturn (.inl hdeed), hdeed,
          ih (k + 1) n _ _ (by omega) (by omega) hlow' hn']
        simpa using course_congr (x := x) (y := { x with pending := x.pending &&& ~~~sigmask k })
          rfl rfl (hrest rfl) x.blocked set
      | marked y hown hpending hblocked hvec hids =>
        obtain ⟨hlow', hn'⟩ := hafter hpending ⟨_, hblocked⟩
        rw [finishes_again_iff hs hturn (.inr hdeed), hdeed,
          ih (k + 1) n _ _ (by omega) (by omega) hlow' hn',
          course_congr (x := x) hvec hids (hrest hpending), hblocked]
        simp [hown]
      | discarded y =>
        rw [finishes_done_iff hs hturn Handler.noConfusion (by simp [hdeed])]
        simp [hdeed]
      | invoked y h hne =>
        rw [finishes_done_iff hs hturn hne (by simp [hdeed])]
        simp [hdeed]
      | setUp y h hown hne =>
        rw [finishes_done_iff hs hturn hne (by simp [hdeed])]
        simp [hdeed, hown]
      | refused y hblocked hpending hpaused huse hstack hvec hids =>
        rw [finishes_refused_iff hs hturn hdeed hpending hblocked hvec,
          restored_iff hblocked hpending hpaused huse hstack hids]
        refine and_congr Iff.rfl (and_congr Iff.rfl ⟨fun hall t ht => ?_, fun hall v hlt hle => ?_⟩)
        · rcases List.mem_append.1 ht with ht | ht
          · have := List.mem_range'_1.1 ht
            exact hall t (by omega) (by rw [nsig]; omega)
          · rw [List.mem_singleton.1 ht]
            exact hall nsig (by rw [nsig]; omega) le_rfl
        · refine hall v ?_
          rw [List.mem_append, List.mem_range'_1, List.mem_singleton]
          rw [nsig] at hle ⊢
          omega
    · rw [if_neg hhas]
      refine ih (k + 1) n x set (by omega) (by omega) (fun t ht => ?_) hn
      have hle := hlow t ht
      rcases hle.lt_or_eq with hlt | rfl
      · exact hlt
      · exact absurd ht.2.2 hhas

section Calls

variable {n : ℕ} {t : ℕ}

theorem First.after_again (hs : x.First s) (hturn : x.turn sensitive fails = .again y)
    (ht : y.Waiting t) : x.Waiting t ∧ t ≠ s := by
  have hacted := hs.acted sensitive fails
  rw [hturn] at hacted
  generalize x.deed sensitive fails s = d at hacted
  cases hacted with
  | ignored =>
    exact hs.after (y := { x with pending := x.pending &&& ~~~sigmask s }) rfl
      ⟨0#32, BitVec.or_zero.symm⟩ ht
  | marked y _ hpending hblocked => exact hs.after hpending ⟨_, hblocked⟩ ht

theorem waiting_of_mem_takings {e : Taking} (he : e ∈ takings sensitive fails n x) :
    x.Waiting e.sig := by
  induction n generalizing x with
  | zero => cases he
  | succ n ih =>
    by_cases hzero : nxtBit (x.pending &&& ~~~x.blocked) = 0
    · simp only [takings, hzero, if_true] at he
      cases he
    · have hs := first_of_nxtBit hzero
      cases hturn : x.turn sensitive fails with
      | done y h =>
        rw [takings_done hs hturn, List.mem_singleton] at he
        rw [he]
        exact hs.1
      | again y =>
        rw [takings_again hs hturn] at he
        rcases List.mem_cons.1 he with rfl | he
        · exact hs.1
        · exact (hs.after_again hturn (ih he)).1

theorem takings_ordered : ((takings sensitive fails n x).map Taking.sig).Pairwise (· < ·) := by
  induction n generalizing x with
  | zero => exact .nil
  | succ n ih =>
    by_cases hzero : nxtBit (x.pending &&& ~~~x.blocked) = 0
    · simp only [takings, hzero, if_true]
      exact .nil
    · have hs := first_of_nxtBit hzero
      cases hturn : x.turn sensitive fails with
      | done y h =>
        rw [takings_done hs hturn]
        exact List.pairwise_singleton _ _
      | again y =>
        rw [takings_again hs hturn, List.map_cons, List.pairwise_cons]
        refine ⟨fun v hv => ?_, ih⟩
        obtain ⟨e, he, rfl⟩ := List.mem_map.1 hv
        obtain ⟨hwaiting, hne⟩ := hs.after_again hturn (waiting_of_mem_takings he)
        exact lt_of_le_of_ne (hs.2 _ hwaiting) hne.symm

theorem stops (sensitive : Bool) (fails : ℕ → Bool) (x : Uxsignal) : Stops sensitive fails x := by
  induction hcount : x.waitingCount using Nat.strongRecOn generalizing x with
  | ind c ih =>
    cases hturn : x.turn sensitive fails with
    | done y h => exact .done hturn
    | again y => exact .again hturn (ih _ (hcount ▸ turn_lt hturn) y rfl)

theorem delivers_iff_finishes :
    x.Delivers sensitive fails ↔ Finishes sensitive fails 32 x false := by
  have hresult : (x.deliver sensitive fails).2 = true ↔
      (deliverLoop sensitive fails 32 x).2 ≠ .signalIgnore := by
    simp only [deliver]
    split_ifs with hnone <;> simp [hnone]
  have hstate (hnone : (deliverLoop sensitive fails 32 x).2 = .signalIgnore) :
      (x.deliver sensitive fails).1 = (deliverLoop sensitive fails 32 x).1 := by
    simp only [deliver, hnone, if_true]
  have hfailed : (x.deliver sensitive fails).2 = false ↔
      (deliverLoop sensitive fails 32 x).2 = .signalIgnore := by
    rw [← Bool.not_eq_true, hresult, not_not]
  constructor
  · intro h
    refine ⟨?_, fun hnone => ?_, h.restored⟩
    · rw [← hresult, h.success]
      simp
    · rw [← hstate hnone]
      exact h.leftover (hfailed.2 hnone)
  · intro h
    refine ⟨stops sensitive fails x, takings_ordered, ?_, fun hnone => ?_, h.restored⟩
    · rw [hresult, h.success]
      simp
    · rw [hstate (hfailed.1 hnone)]
      exact h.leftover (hfailed.1 hnone)

theorem delivers_iff_course : x.Delivers sensitive fails ↔
    x.Course sensitive fails (List.range' 1 31) x.blocked false :=
  delivers_iff_finishes.trans
    (finishes_iff_course 31 1 32 x false rfl (by decide) (fun _ ht => ht.1) x.waitingCount_lt)

end Calls

def Accepted (sig : ℤ) : Prop := ¬ (sig ≤ 0 ∨ nsig < sig)

def Deliverable (sig : ℤ) : Prop :=
  ∃ (x : Uxsignal) (code tmPostId : ℤ) (sensitive : Bool) (fails : ℕ → Bool),
    ∃ t ∈ takings sensitive fails 32 (x.signalPost sig code tmPostId), t.sig = sig ∧ t.Handled

theorem deliverable_of_lt {sig : ℤ} (hpos : 0 < sig) (hlt : sig < nsig) : Deliverable sig := by
  obtain ⟨s, rfl⟩ := Int.eq_ofNat_of_zero_le hpos.le
  have hs : 0 < s ∧ s < 32 := by
    rw [nsig] at hlt
    omega
  let x : Uxsignal := { create 0 (fun _ => 0) fun _ => 0 with vec := fun _ => ⟨.routine 0, 0, false⟩ }
  have hpost : x.signalPost s 0 0 =
      { x with pending := 0#32 ||| sigmask s, uxCode := update x.uxCode s 0 } := by
    rw [signalPost, if_neg (by rw [nsig]; omega)]
    rfl
  have hwaiting (t : ℕ) (ht : 0 < t) (htlt : t < 32) :
      has ((0#32 ||| sigmask s) &&& ~~~0#32) t ↔ t = s := by
    rw [has_iff ht htlt.le, BitVec.zero_or, BitVec.getLsbD_and,
      getLsbD_sigmask hs.1 hs.2.le (by omega), BitVec.getLsbD_not, BitVec.getLsbD_zero,
      decide_eq_true (by omega : t - 1 < 32), Bool.not_false, Bool.and_true, Bool.and_true,
      decide_eq_true_iff]
    omega
  have hfirst : (x.signalPost s 0 0).First s := by
    rw [hpost]
    refine ⟨⟨hs.1, hs.2, (hwaiting s hs.1 hs.2).2 rfl⟩, ?_⟩
    rintro t ⟨ht, htlt, hhas⟩
    exact ((hwaiting t ht htlt).1 hhas).ge
  have hdeed : (x.signalPost s 0 0).deed true (fun _ => false) s = .setUp := by
    rw [hpost]
    rfl
  refine ⟨x, 0, 0, true, fun _ => false, ?_⟩
  cases hturn : (x.signalPost s 0 0).turn true fun _ => false with
  | again y =>
    refine ⟨_, (takings_again hfirst hturn).symm ▸ List.mem_cons_self, rfl, .inr hdeed⟩
  | done y h =>
    refine ⟨_, (takings_done hfirst hturn).symm ▸ List.mem_singleton_self _, rfl, .inr hdeed⟩

theorem accepted_deliverable_iff (sig : ℤ) : (Accepted sig → Deliverable sig) ↔ sig ≠ nsig := by
  constructor
  · rintro h rfl
    obtain ⟨x, code, tmPostId, sensitive, fails, t, ht, hsig, -⟩ := h (by simp [Accepted, nsig])
    have hlt := (waiting_of_mem_takings ht).2.1
    rw [nsig] at hsig
    omega
  · intro hne haccepted
    rw [Accepted, not_or, not_le, not_lt] at haccepted
    exact deliverable_of_lt haccepted.1 (lt_of_le_of_ne haccepted.2 hne)

theorem delivery_complete_iff (x : Uxsignal) (sensitive : Bool) (fails : ℕ → Bool) (sig : ℤ) :
    (x.Delivers sensitive fails ∧ (Accepted sig → Deliverable sig)) ↔
      x.Course sensitive fails (List.range' 1 31) x.blocked false ∧ sig ≠ nsig :=
  and_congr delivers_iff_course (accepted_deliverable_iff sig)

def ignoring : Uxsignal :=
  { fresh with
    pending := sigmask 2
    vec := fun _ => ⟨.ign, 0, false⟩ }

theorem ignored_signal_reported : ¬ ignoring.Delivers true fun _ => false := by
  intro h
  have hresult : (ignoring.deliver true fun _ => false).2 = true := by decide
  obtain ⟨t, ht, hhandled⟩ := h.success.1 hresult
  have hdeeds : (takings true (fun _ => false) 32 ignoring).map Taking.deed = [.discarded] := by
    decide
  have hmem := List.mem_map_of_mem (f := Taking.deed) ht
  rw [hdeeds, List.mem_singleton] at hmem
  rw [Taking.Handled, hmem] at hhandled
  exact absurd hhandled (by decide)

end MachUS.Ux.Uxsignal
