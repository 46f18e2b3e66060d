import MachUS.Foundation.Text
import MachUS.Foundation.Transition

namespace MachUS.Tm.TaskIds

open Relation Transition Text Function

inductive Code where
  | success
  | entryExists
  | nameTooLong
  | invalidName
  | invalidTaskId
  | noMoreTaskIds
  deriving DecidableEq

def nsNamelen : ℕ := 256

def nullTaskId : ℤ := -1

def tmMaxTaskId : ℤ := 0xffff

-- A tm_task_id_t is an int of 32 bits.
def intMin : ℤ := -2 ^ 31

def intMax : ℤ := 2 ^ 31 - 1

structure TmRoot where
  lastTaskId : ℤ
  taskDir : Bytes → Bool

inductive Round where
  | again (id : ℤ)
  | returns (code : Code) (id : ℤ)
  | overflow
  deriving DecidableEq

inductive Event where
  | reserve (taskId : ℤ) (rounds : ℕ)
  | removeEntry (id : ℤ)

namespace TmRoot

def boot : TmRoot where
  lastTaskId := 0
  taskDir := fun _ => false

variable (x : TmRoot)

def nsReserveEntry (name : Bytes) : Code :=
  if nsNamelen ≤ name.length then .nameTooLong
  else if name.length = 0 then .invalidName
  else if x.taskDir name then .entryExists
  else .success

def enter (name : Bytes) : TmRoot := { x with taskDir := update x.taskDir name true }

def nsRemoveEntry (name : Bytes) : TmRoot :=
  { x with taskDir := update x.taskDir name false }

def increment (id : ℤ) : Option ℤ := if id < intMax then some (id + 1) else none

def round (id : ℤ) : Round :=
  if id = x.lastTaskId then .returns .noMoreTaskIds id
  else
    match x.nsReserveEntry (formatInt id) with
    | .entryExists =>
      match increment id with
      | none => .overflow
      | some i => .again (if tmMaxTaskId < i then 1 else i)
    | code => .returns code id

def search : ℕ → ℤ → Round
  | 0, id => .again id
  | n + 1, id =>
    match x.round id with
    | .again i => search n i
    | r => r

def tmReserveTaskId (rounds : ℕ) (taskId : ℤ) : Round × TmRoot :=
  if taskId ≠ nullTaskId then
    match x.nsReserveEntry (formatInt taskId) with
    | .success => (.returns .success taskId, x.enter (formatInt taskId))
    | .entryExists => (.returns .invalidTaskId taskId, x)
    | code => (.returns code taskId, x)
  else
    match increment x.lastTaskId with
    | none => (.overflow, x)
    | some id =>
      match x.search rounds id with
      | .returns .success i => (.returns .success i, { x.enter (formatInt i) with lastTaskId := i })
      | r => (r, x)

def next (x : TmRoot) : Event → Option TmRoot
  | .reserve taskId rounds =>
    if intMin ≤ taskId ∧ taskId ≤ intMax then
      match x.tmReserveTaskId rounds taskId with
      | (.returns _ _, y) => some y
      | _ => none
    else none
  | .removeEntry id => some (x.nsRemoveEntry (formatInt id))

def occupied (id : ℤ) : Bool := x.taskDir (formatInt id)

def InRange (id : ℤ) : Prop := 1 ≤ id ∧ id ≤ tmMaxTaskId

instance (id : ℤ) : Decidable (InRange id) := inferInstanceAs (Decidable (1 ≤ id ∧ id ≤ tmMaxTaskId))

def Full : Prop := ∀ id, InRange id → x.occupied id = true

-- The call with NULL_TASK_ID returns what it should.
def Allocates : Prop :=
  ∃ rounds code id y, x.tmReserveTaskId rounds nullTaskId = (.returns code id, y) ∧
    (x.Full → code = .noMoreTaskIds) ∧
    (¬ x.Full → code = .success ∧ InRange id ∧ x.occupied id = false)

structure Sound : Prop where
  first : x.lastTaskId < tmMaxTaskId ∨
    x.occupied (x.lastTaskId + 1) = true ∧ x.lastTaskId + 1 < intMax
  rest : if InRange x.lastTaskId then x.Full ∨ ∃ id, InRange id ∧ id ≠ x.lastTaskId ∧ x.occupied id = false
    else ¬ x.Full

variable {x} {a b : ℤ} {n : ℕ}

theorem formatInt_injective : Injective formatInt :=
  LeftInverse.injective atoi_formatInt

theorem nsReserveEntry_formatInt (h : intMin ≤ a ∧ a ≤ intMax) :
    x.nsReserveEntry (formatInt a) = if x.occupied a then .entryExists else .success := by
  obtain ⟨hmin, hmax⟩ := h
  unfold intMin at hmin
  unfold intMax at hmax
  have hdigits : a.natAbs < 10 ^ (9 + 1) := by omega
  have hlength := formatInt_length hdigits
  have hpos : (formatInt a).length ≠ 0 := fun h => formatInt_ne_nil a (List.length_eq_zero_iff.mp h)
  have hshort : ¬ nsNamelen ≤ (formatInt a).length := by
    unfold nsNamelen
    omega
  rw [nsReserveEntry, if_neg hshort, if_neg hpos]
  rfl

theorem InRange.int (h : InRange a) : intMin ≤ a ∧ a ≤ intMax := by
  unfold InRange tmMaxTaskId at h
  unfold intMin intMax
  omega

theorem round_free (ha : intMin ≤ a ∧ a ≤ intMax) (hlast : a ≠ x.lastTaskId)
    (hfree : x.occupied a = false) : x.round a = .returns .success a := by
  rw [round, if_neg hlast, nsReserveEntry_formatInt ha, hfree]
  rfl

theorem round_occupied (ha : intMin ≤ a ∧ a ≤ intMax) (hlast : a ≠ x.lastTaskId)
    (hoccupied : x.occupied a = true) (hmax : a < intMax) :
    x.round a = .again (if tmMaxTaskId < a + 1 then 1 else a + 1) := by
  rw [round, if_neg hlast, nsReserveEntry_formatInt ha, hoccupied]
  simp only [if_true, increment, if_pos hmax]

theorem round_last : x.round x.lastTaskId = .returns .noMoreTaskIds x.lastTaskId := by
  rw [round, if_pos rfl]

variable (x) in
def Leads (a b : ℤ) : Prop := ∃ k, ∀ n, x.search (k + n) a = x.search n b

theorem Leads.refl (a : ℤ) : x.Leads a a := ⟨0, fun n => by rw [Nat.zero_add]⟩

theorem Leads.step (h : x.round a = .again b) {c : ℤ} (hb : x.Leads b c) : x.Leads a c := by
  obtain ⟨k, hk⟩ := hb
  refine ⟨k + 1, fun n => ?_⟩
  rw [Nat.add_right_comm, search, h]
  exact hk n

theorem Leads.trans {c : ℤ} (hab : x.Leads a b) (hbc : x.Leads b c) : x.Leads a c := by
  obtain ⟨k, hk⟩ := hab
  obtain ⟨l, hl⟩ := hbc
  refine ⟨k + l, fun n => ?_⟩
  rw [Nat.add_assoc, hk, hl]

theorem Leads.returns {code : Code} {id : ℤ} (h : x.Leads a b) (hb : x.round b = .returns code id) :
    ∃ n, x.search n a = .returns code id := by
  obtain ⟨k, hk⟩ := h
  refine ⟨k + 1, ?_⟩
  rw [hk, search, hb]

theorem search_stable {code : Code} {id : ℤ} (h : x.search n a = .returns code id) (k : ℕ) :
    x.search (n + k) a = .returns code id := by
  induction n generalizing a with
  | zero => cases h
  | succ n ih =>
    rw [Nat.add_right_comm, search]
    rw [search] at h
    cases hround : x.round a with
    | again i =>
      rw [hround] at h
      exact ih h
    | returns code' id' =>
      rw [hround] at h
      exact h
    | overflow =>
      rw [hround] at h
      cases h

theorem search_unique {m : ℕ} {code code' : Code} {id id' : ℤ} (h : x.search n a = .returns code id)
    (h' : x.search m a = .returns code' id') : code' = code ∧ id' = id := by
  have hn := search_stable h m
  have hm := search_stable h' n
  rw [Nat.add_comm, hn] at hm
  cases hm
  exact ⟨rfl, rfl⟩

theorem seek (x : TmRoot) (hb : b ≤ tmMaxTaskId) (hlast : ∀ c, a ≤ c → c ≤ b → c ≠ x.lastTaskId)
    (ha : 1 ≤ a) (hab : a ≤ b + 1) :
    (∃ c, a ≤ c ∧ c ≤ b ∧ x.occupied c = false ∧ ∃ n, x.search n a = .returns .success c) ∨
      (∀ c, a ≤ c → c ≤ b → x.occupied c = true) ∧
        (a ≤ b → x.Leads a (if tmMaxTaskId < b + 1 then 1 else b + 1)) := by
  induction hk : (b + 1 - a).toNat generalizing a with
  | zero => exact .inr ⟨fun c hac hcb => by omega, fun h => by omega⟩
  | succ k ih =>
    have hle : a ≤ b := by omega
    have hrange : InRange a := ⟨ha, hle.trans hb⟩
    have hne := hlast a le_rfl hle
    cases hoccupied : x.occupied a with
    | false =>
      have hround := round_free hrange.int hne hoccupied
      exact .inl ⟨a, le_rfl, hle, hoccupied, (Leads.refl a).returns hround⟩
    | true =>
      have hmax : a < intMax := by
        unfold intMax
        unfold tmMaxTaskId at hb
        omega
      have hround := round_occupied hrange.int hne hoccupied hmax
      rcases eq_or_lt_of_le hle with rfl | hlt
      · refine .inr ⟨fun c hac hca => ?_, fun _ => Leads.step hround (Leads.refl _)⟩
        rwa [le_antisymm hca hac]
      · rw [if_neg (by omega)] at hround
        have hafter : ∀ c, a + 1 ≤ c → c ≤ b → c ≠ x.lastTaskId := fun c hc => hlast c (by omega)
        rcases ih hafter (by omega) (by omega) (by omega) with
          ⟨c, hac, hcb, hfree, n, hn⟩ | ⟨hall, hleads⟩
        · refine .inl ⟨c, by omega, hcb, hfree, n + 1, ?_⟩
          rw [search, hround]
          exact hn
        · refine .inr ⟨fun c hac hcb => ?_, fun _ => Leads.step hround (hleads (by omega))⟩
          rcases eq_or_lt_of_le hac with rfl | hac
          · exact hoccupied
          · exact hall c (by omega) hcb

theorem endless (hfull : x.Full) (hlast : ¬ InRange x.lastTaskId) (ha : InRange a) (n : ℕ) :
    ∃ b, InRange b ∧ x.search n a = .again b := by
  induction n generalizing a with
  | zero => exact ⟨a, ha, rfl⟩
  | succ n ih =>
    have hne : a ≠ x.lastTaskId := fun heq => hlast (heq ▸ ha)
    have hmax : a < intMax := by
      unfold InRange tmMaxTaskId at ha
      unfold intMax
      omega
    rw [search, round_occupied ha.int hne (hfull a ha) hmax]
    refine ih ?_
    unfold InRange tmMaxTaskId at *
    split_ifs <;> omega

variable (x) in
def Serves (code : Code) (id : ℤ) : Prop :=
  (x.Full → code = .noMoreTaskIds) ∧ (¬ x.Full → code = .success ∧ InRange id ∧ x.occupied id = false)

theorem allocates_iff_search (hs : increment x.lastTaskId = some a) :
    x.Allocates ↔ ∃ n code id, x.search n a = .returns code id ∧ x.Serves code id := by
  have hcall (n : ℕ) : x.tmReserveTaskId n nullTaskId =
      match x.search n a with
      | .returns .success i => (.returns .success i, { x.enter (formatInt i) with lastTaskId := i })
      | r => (r, x) := by
    rw [tmReserveTaskId, if_neg (by simp)]
    simp only [hs]
  constructor
  · rintro ⟨n, code, id, y, hcalled, hserves⟩
    refine ⟨n, code, id, ?_, hserves⟩
    rw [hcall] at hcalled
    split at hcalled
    · next i hi =>
      cases hcalled
      exact hi
    · next r _ =>
      exact (Prod.mk.inj hcalled).1
  · rintro ⟨n, code, id, hn, hserves⟩
    cases hcode : decide (code = .success) with
    | true =>
      obtain rfl := of_decide_eq_true hcode
      exact ⟨n, .success, id, _, by rw [hcall, hn], hserves⟩
    | false =>
      refine ⟨n, code, id, x, ?_, hserves⟩
      rw [hcall, hn]
      split
      · next heq =>
        cases heq
        exact absurd rfl (of_decide_eq_false hcode)
      · rfl

theorem allocates_iff_serves {code : Code} {id : ℤ} (hs : increment x.lastTaskId = some a)
    (h : x.search n a = .returns code id) : x.Allocates ↔ x.Serves code id := by
  rw [allocates_iff_search hs]
  constructor
  · rintro ⟨m, code', id', hm, hserves⟩
    obtain ⟨rfl, rfl⟩ := search_unique h hm
    exact hserves
  · exact fun hserves => ⟨n, code, id, h, hserves⟩

theorem serves_success {c : ℤ} (hc : InRange c) (hfree : x.occupied c = false) :
    x.Serves .success c ∧ ¬ x.Full := by
  have hnot : ¬ x.Full := fun hfull => by
    rw [hfull c hc] at hfree
    cases hfree
  exact ⟨⟨fun hfull => absurd hfull hnot, fun _ => ⟨rfl, hc, hfree⟩⟩, hnot⟩

section

variable (hs : increment x.lastTaskId = some a) (hleads : x.Leads a 1)

include hs hleads

theorem unstopped_iff (hlast : ¬ InRange x.lastTaskId) : x.Allocates ↔ ¬ x.Full := by
  have hne (c : ℤ) (h1 : 1 ≤ c) (hc : c ≤ tmMaxTaskId) : c ≠ x.lastTaskId :=
    fun heq => hlast (heq ▸ ⟨h1, hc⟩)
  rcases seek x le_rfl hne le_rfl (by decide) with ⟨c, h1, hc, hfree, n, hn⟩ | ⟨hall, -⟩
  · obtain ⟨hserves, hnot⟩ := serves_success ⟨h1, hc⟩ hfree
    obtain ⟨k, hk⟩ := hleads
    exact iff_of_true ((allocates_iff_serves hs ((hk n).trans hn)).mpr hserves) hnot
  · have hfull : x.Full := fun c hc => hall c hc.1 hc.2
    refine iff_of_false ?_ fun hnot => hnot hfull
    rw [allocates_iff_search hs]
    rintro ⟨n, code, id, hn, -⟩
    obtain ⟨k, hk⟩ := hleads
    obtain ⟨b, -, hb⟩ := endless hfull hlast ⟨le_rfl, by decide⟩ n
    have hreturned := search_stable hn k
    rw [Nat.add_comm, hk, hb] at hreturned
    cases hreturned

theorem stopped_iff (hlast : InRange x.lastTaskId)
    (habove : ∀ c, x.lastTaskId < c → c ≤ tmMaxTaskId → x.occupied c = true) :
    x.Allocates ↔ x.Full ∨ ∃ id, InRange id ∧ id ≠ x.lastTaskId ∧ x.occupied id = false := by
  have hupper : x.lastTaskId - 1 ≤ tmMaxTaskId := by
    have := hlast.2
    omega
  have hlower : 1 ≤ x.lastTaskId - 1 + 1 := by
    have := hlast.1
    omega
  rcases seek x hupper (fun c _ hc => by omega) le_rfl hlower with ⟨c, h1, hc, hfree, n, hn⟩ | ⟨hall, hto⟩
  · have hrange : InRange c := ⟨h1, hc.trans hupper⟩
    obtain ⟨hserves, -⟩ := serves_success hrange hfree
    obtain ⟨k, hk⟩ := hleads
    refine iff_of_true ((allocates_iff_serves hs ((hk n).trans hn)).mpr hserves) (.inr ⟨c, hrange, ?_, hfree⟩)
    omega
  · have harrives : x.Leads 1 x.lastTaskId := by
      rcases eq_or_lt_of_le hlast.1 with heq | hlt
      · rw [← heq]
        exact Leads.refl 1
      · have hto := hto (by omega)
        rwa [if_neg (by have := hlast.2; omega), sub_add_cancel] at hto
    obtain ⟨n, hn⟩ := (hleads.trans harrives).returns round_last
    have hothers (id : ℤ) (hid : InRange id) (hne : id ≠ x.lastTaskId) : x.occupied id = true := by
      rcases lt_or_gt_of_ne hne with hlt | hgt
      · exact hall id hid.1 (by omega)
      · exact habove id hgt hid.2
    rw [allocates_iff_serves hs hn]
    constructor
    · intro hserves
      by_contra hno
      have hcode := (hserves.2 fun hfull => hno (.inl hfull)).1
      cases hcode
    · rintro (hfull | ⟨id, hid, hne, hfree⟩)
      · exact ⟨fun _ => rfl, fun hnot => absurd hfull hnot⟩
      · rw [hothers id hid hne] at hfree
        cases hfree

theorem comes_round_iff (habove : InRange x.lastTaskId →
      ∀ c, x.lastTaskId < c → c ≤ tmMaxTaskId → x.occupied c = true) :
    x.Allocates ↔ if InRange x.lastTaskId
      then x.Full ∨ ∃ id, InRange id ∧ id ≠ x.lastTaskId ∧ x.occupied id = false else ¬ x.Full := by
  by_cases hlast : InRange x.lastTaskId
  · rw [if_pos hlast]
    exact stopped_iff hs hleads hlast (habove hlast)
  · rw [if_neg hlast]
    exact unstopped_iff hs hleads hlast

end

theorem overflowing (hs : increment x.lastTaskId = none) : ¬ x.Allocates := by
  rintro ⟨n, code, id, y, hcalled, -⟩
  rw [tmReserveTaskId, if_neg (by simp)] at hcalled
  simp only [hs] at hcalled
  cases (Prod.mk.inj hcalled).1

theorem outside_iff (hlast : tmMaxTaskId ≤ x.lastTaskId) (hmax : x.lastTaskId < intMax) :
    x.Allocates ↔ x.Sound := by
  have hs : increment x.lastTaskId = some (x.lastTaskId + 1) := if_pos hmax
  have hint : intMin ≤ x.lastTaskId + 1 ∧ x.lastTaskId + 1 ≤ intMax := by
    unfold tmMaxTaskId at hlast
    unfold intMin intMax at *
    omega
  have hne : x.lastTaskId + 1 ≠ x.lastTaskId := by omega
  have hbeyond : ¬ InRange (x.lastTaskId + 1) := fun h => by
    have := h.2
    omega
  cases hoccupied : x.occupied (x.lastTaskId + 1) with
  | false =>
    have hround := round_free hint hne hoccupied
    obtain ⟨n, hn⟩ := (Leads.refl _).returns hround
    refine iff_of_false ?_ fun hsound => ?_
    · rw [allocates_iff_serves hs hn]
      intro hserves
      by_cases hfull : x.Full
      · cases hserves.1 hfull
      · exact hbeyond (hserves.2 hfull).2.1
    · rcases hsound.first with hlt | ⟨htaken, -⟩
      · omega
      · rw [htaken] at hoccupied
        cases hoccupied
  | true =>
    by_cases hlt : x.lastTaskId + 1 < intMax
    · have hround := round_occupied hint hne hoccupied hlt
      rw [if_pos (by omega)] at hround
      rw [comes_round_iff hs (Leads.step hround (Leads.refl 1)) fun _ c _ _ => by omega]
      exact ⟨fun h => ⟨.inr ⟨hoccupied, hlt⟩, h⟩, fun h => h.rest⟩
    · have hround : x.round (x.lastTaskId + 1) = .overflow := by
        rw [round, if_neg hne, nsReserveEntry_formatInt hint, hoccupied]
        simp only [if_true, increment, if_neg hlt]
      refine iff_of_false ?_ fun hsound => ?_
      · rw [allocates_iff_search hs]
        rintro ⟨n, code, id, hn, -⟩
        cases n with
        | zero => cases hn
        | succ n =>
          rw [search, hround] at hn
          cases hn
      · rcases hsound.first with hbelow | ⟨-, hfits⟩
        · omega
        · exact hlt hfits

theorem inside_iff (hpos : 0 ≤ x.lastTaskId) (hlast : x.lastTaskId < tmMaxTaskId) :
    x.Allocates ↔ x.Sound := by
  have hmax : x.lastTaskId < intMax := by
    unfold tmMaxTaskId at hlast
    unfold intMax
    omega
  have hs : increment x.lastTaskId = some (x.lastTaskId + 1) := if_pos hmax
  have hiff : x.Allocates ↔ if InRange x.lastTaskId
      then x.Full ∨ ∃ id, InRange id ∧ id ≠ x.lastTaskId ∧ x.occupied id = false else ¬ x.Full := by
    rcases eq_or_lt_of_le hpos with hzero | hpos
    · have hout : ¬ InRange x.lastTaskId := fun h => by
        have := h.1
        omega
      have hone : x.lastTaskId + 1 = 1 := by omega
      rw [hone] at hs
      exact comes_round_iff hs (Leads.refl 1) fun h => absurd h hout
    · have hne : ∀ c, x.lastTaskId + 1 ≤ c → c ≤ tmMaxTaskId → c ≠ x.lastTaskId :=
        fun c hc _ => by omega
      rcases seek x le_rfl hne (by omega) (by omega) with
        ⟨c, hc, hcmax, hfree, n, hn⟩ | ⟨hall, hleads⟩
      · have hin : InRange x.lastTaskId := ⟨by omega, by omega⟩
        have hrange : InRange c := ⟨by omega, hcmax⟩
        obtain ⟨hserves, -⟩ := serves_success hrange hfree
        rw [if_pos hin]
        refine iff_of_true ((allocates_iff_serves hs hn).mpr hserves) (.inr ⟨c, hrange, ?_, hfree⟩)
        omega
      · have hto := hleads (by omega)
        rw [if_pos (by omega)] at hto
        exact comes_round_iff hs hto fun _ c hc hcmax => hall c (by omega) hcmax
  rw [hiff]
  exact ⟨fun h => ⟨.inl hlast, h⟩, fun h => h.rest⟩

theorem allocates_iff (hpos : 0 ≤ x.lastTaskId) : x.Allocates ↔ x.Sound := by
  rcases lt_or_ge x.lastTaskId tmMaxTaskId with hlt | hge
  · exact inside_iff hpos hlt
  · by_cases hmax : x.lastTaskId < intMax
    · exact outside_iff hge hmax
    · refine iff_of_false (overflowing (if_neg hmax)) fun hsound => ?_
      rcases hsound.first with hbelow | ⟨-, hfits⟩
      · omega
      · omega

theorem round_cases (x : TmRoot) (a : ℤ) :
    (∃ code, x.round a = .returns code a) ∨ (∃ b, x.round a = .again b ∧ (b = 1 ∨ b = a + 1)) ∨
      x.round a = .overflow := by
  unfold round
  split_ifs with hlast
  · exact .inl ⟨_, rfl⟩
  · cases hcode : x.nsReserveEntry (formatInt a) with
    | entryExists =>
      by_cases hmax : a < intMax
      · refine .inr (.inl ?_)
        simp only [increment, if_pos hmax]
        by_cases hpast : tmMaxTaskId < a + 1
        · rw [if_pos hpast]
          exact ⟨1, rfl, .inl rfl⟩
        · rw [if_neg hpast]
          exact ⟨a + 1, rfl, .inr rfl⟩
      · refine .inr (.inr ?_)
        simp only [increment, if_neg hmax]
    | success | nameTooLong | invalidName | invalidTaskId | noMoreTaskIds => exact .inl ⟨_, rfl⟩

theorem search_nonneg {code : Code} {id : ℤ} (ha : 0 ≤ a) (h : x.search n a = .returns code id) :
    0 ≤ id := by
  induction n generalizing a with
  | zero => cases h
  | succ n ih =>
    rw [search] at h
    rcases round_cases x a with ⟨code', hround⟩ | ⟨b, hround, hb⟩ | hround
    · rw [hround] at h
      cases h
      exact ha
    · rw [hround] at h
      exact ih (by omega) h
    · rw [hround] at h
      cases h

theorem reserve_nonneg (n : ℕ) (taskId : ℤ) (h : 0 ≤ x.lastTaskId) :
    0 ≤ (x.tmReserveTaskId n taskId).2.lastTaskId := by
  unfold tmReserveTaskId
  split_ifs with hgiven
  · split <;> exact h
  · cases hs : increment x.lastTaskId with
    | none => exact h
    | some a =>
      have ha : 0 ≤ a := by
        unfold increment at hs
        split_ifs at hs
        have := Option.some.inj hs
        omega
      simp only
      split
      · next i hi => exact search_nonneg ha hi
      · exact h

theorem next_nonneg {y : TmRoot} {e : Event} (h : 0 ≤ x.lastTaskId) (hy : x.next e = some y) :
    0 ≤ y.lastTaskId := by
  cases e with
  | removeEntry id =>
    cases hy
    exact h
  | reserve taskId rounds =>
    have hkept := reserve_nonneg rounds taskId h
    simp only [next] at hy
    split_ifs at hy
    split at hy
    · next code id z hcall =>
      cases hy
      rw [hcall] at hkept
      exact hkept
    · cases hy

theorem task_ids_allocated (hrun : ReflTransGen (Under next Free) boot x) : x.Allocates ↔ x.Sound :=
  allocates_iff (Transition.invariant (fun _ _ _ h _ hy => next_nonneg h hy) hrun le_rfl)

theorem task_ids_allocated_boot : boot.Allocates := by
  have hempty : boot.Sound := by
    refine ⟨.inl (by decide), ?_⟩
    rw [if_neg (by decide)]
    exact fun hfull => Bool.noConfusion (hfull 1 (by decide))
  exact (task_ids_allocated .refl).mpr hempty

theorem reserve_after (hfree : ∀ id, x.lastTaskId < id → x.occupied id = false)
    (hpos : 0 ≤ x.lastTaskId) (hmax : x.lastTaskId < intMax) :
    x.tmReserveTaskId 1 nullTaskId = (.returns .success (x.lastTaskId + 1),
      { x.enter (formatInt (x.lastTaskId + 1)) with lastTaskId := x.lastTaskId + 1 }) := by
  have hint : intMin ≤ x.lastTaskId + 1 ∧ x.lastTaskId + 1 ≤ intMax := by
    unfold intMin intMax at *
    omega
  have hround := round_free hint (by omega) (hfree _ (lt_add_one _))
  rw [tmReserveTaskId, if_neg (by simp)]
  simp only [increment, if_pos hmax, search, hround]

theorem reserves (k : ℕ) (hfree : ∀ id, x.lastTaskId < id → x.occupied id = false)
    (hpos : 0 ≤ x.lastTaskId) (hmax : x.lastTaskId + k < intMax) :
    ∃ y, exec next x (List.replicate k (.reserve nullTaskId 1)) = some y ∧
      y.lastTaskId = x.lastTaskId + k ∧ ∀ id, y.lastTaskId < id → y.occupied id = false := by
  induction k generalizing x with
  | zero => exact ⟨x, rfl, by simp, hfree⟩
  | succ k ih =>
    have hcall := reserve_after hfree hpos (by omega)
    let y : TmRoot := { x.enter (formatInt (x.lastTaskId + 1)) with lastTaskId := x.lastTaskId + 1 }
    have hlast : y.lastTaskId = x.lastTaskId + 1 := rfl
    have hy : x.next (.reserve nullTaskId 1) = some y := by
      simp only [next, hcall]
      rfl
    have habove : ∀ id, y.lastTaskId < id → y.occupied id = false := by
      intro id hid
      have hne : formatInt id ≠ formatInt (x.lastTaskId + 1) := fun heq => by
        have := formatInt_injective heq
        omega
      calc y.occupied id = x.occupied id := update_of_ne hne ..
        _ = false := hfree id (by omega)
    obtain ⟨z, hz, hzlast, hzfree⟩ := ih habove (by omega) (by omega)
    refine ⟨z, ?_, by omega, hzfree⟩
    rw [List.replicate_succ, exec, hy]
    exact hz

theorem maximum_handed_out : ∃ x y, exec next boot (List.replicate 65535 (.reserve nullTaskId 1)) = some x ∧
    x.tmReserveTaskId 1 nullTaskId = (.returns .success 65536, y) ∧ ¬ x.Allocates := by
  obtain ⟨x, hx, hlast, hfree⟩ := reserves (x := boot) 65535 (fun _ _ => rfl) le_rfl (by decide)
  have hlast : x.lastTaskId = 65535 := hlast
  have hcall := reserve_after hfree (by omega) (by rw [hlast]; decide)
  rw [hlast] at hcall
  refine ⟨x, _, hx, hcall, ?_⟩
  rw [allocates_iff (by omega)]
  intro hsound
  rcases hsound.first with hlt | ⟨htaken, -⟩
  · rw [hlast] at hlt
    cases hlt
  · rw [hfree _ (lt_add_one _)] at htaken
    cases htaken

end TmRoot

end MachUS.Tm.TaskIds
