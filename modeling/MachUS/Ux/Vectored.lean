import MachUS.Io.ByteStream
import MachUS.Ux.Selects

namespace MachUS.Ux.Vectored

open List Nat Option
open Io (Dlong)

inductive Failure where
  | noSuchOperation
  | other (code : ℕ)
  deriving DecidableEq

-- What a call returns: nothing is ERR_SUCCESS.
abbrev Result := Option Failure

def iomTruncate : ℕ := 0x2

def iomWait : ℕ := 0x4

structure Flags where
  ndelay : Bool
  append : Bool
  sequential : Bool

def Flags.mode (f : Flags) : ℕ := iomTruncate ||| if f.ndelay then 0 else iomWait

inductive Request (α : Type) where
  | ioRead (mode : ℕ) (start : Dlong) (num : ℕ)
  | ioReadSeq (mode num : ℕ)
  | ioWrite (mode : ℕ) (start : Dlong) (data : List α)
  | ioWriteSeq (mode : ℕ) (data : List α)
  | ioAppend (mode : ℕ) (data : List α)

inductive Reply (num : ℕ) where
  | failed (f : Failure) (offset : Option Dlong)
  | moved (n : ℕ) (fits : n ≤ num) (offset : Option Dlong)

namespace Reply

variable {num : ℕ}

def byValue : Reply num → Reply num
  | failed f _ => .failed f none
  | moved n h _ => .moved n h none

end Reply

structure Object (α : Type) where
  answer : ℕ → (num : ℕ) → Reply num
  data : ℕ → ℕ → α

structure Iovec (α : Type) where
  base : List α
  fits : base.length < 2 ^ 32

structure Move (α : Type) where
  start : ℕ
  bytes : List α

structure Uxio where
  curOffset : Dlong
  flags : Flags
  byteioObj : Bool
  directory : Bool
  selectState : SelType → SelProbe

structure Outcome (α : Type) where
  uxio : Uxio
  result : Result
  len : ℕ
  requests : List (Request α)
  moves : List (Move α)
  buffers : List (List α)

namespace Outcome

variable {α : Type} (out : Outcome α)

def stream : List α := out.moves.flatMap Move.bytes

def spots : List ℕ := out.moves.flatMap fun m => range' m.start m.bytes.length

end Outcome

structure Way (α : Type) where
  request : Uxio → List α → Request α
  call : ℕ → (num : ℕ) → Reply num
  bytes : ℕ → List α → ℕ → List α
  left : ℕ → List α → ℕ → List α
  take_left : ∀ i b n, n ≤ b.length → (left i b n).take n = bytes i b n
  length_left : ∀ i b n, n ≤ b.length → (left i b n).length = b.length

namespace Uxio

variable {α : Type} (u : Uxio) (object : Object α)

def stores (offset : Option Dlong) : Uxio := { u with curOffset := offset.getD u.curOffset }

def advance (n : ℕ) : Uxio := { u with curOffset := u.curOffset.addLong n }

def ioReadInternal (i num : ℕ) : Reply num :=
  if u.directory || u.byteioObj then (object.answer i num).byValue
  else .failed .noSuchOperation none

def ioReadSeqInternal (i num : ℕ) : Reply num :=
  if u.byteioObj then object.answer i num else .failed .noSuchOperation none

def reads (i num : ℕ) : Reply num :=
  if u.flags.sequential then u.ioReadSeqInternal object i num else u.ioReadInternal object i num

def readRequest (b : List α) : Request α :=
  if u.flags.sequential then .ioReadSeq u.flags.mode b.length
  else .ioRead u.flags.mode u.curOffset b.length

def writes (i num : ℕ) : Reply num :=
  if u.flags.append then (object.answer i num).byValue
  else if u.flags.sequential then object.answer i num
  else (object.answer i num).byValue

def writeRequest (b : List α) : Request α :=
  if u.flags.append then .ioAppend u.flags.mode b
  else if u.flags.sequential then .ioWriteSeq u.flags.mode b
  else .ioWrite u.flags.mode u.curOffset b

def reading : Way α where
  request := readRequest
  call := u.reads object
  bytes i _ n := (range n).map (object.data i)
  left i b n := (range n).map (object.data i) ++ b.drop n
  take_left i b n _ := by simp
  length_left i b n h := by simp; omega

def writing : Way α where
  request := writeRequest
  call := u.writes object
  bytes _ b n := b.take n
  left _ b _ := b
  take_left _ _ _ _ := rfl
  length_left _ _ _ _ := rfl

def usesProbe : Uxio :=
  if u.selectState .read = .succeeded then
    { u with selectState := Function.update u.selectState .read .nothing }
  else u

def uxRead (b : List α) : Outcome α :=
  let u := u.usesProbe
  match u.reads object 0 b.length with
  | .failed f o =>
    { uxio := u.stores o, result := some f, len := 0, requests := [u.readRequest b], moves := [],
      buffers := [b] }
  | .moved n _ o =>
    { uxio := (u.stores o).advance n, result := none, len := n, requests := [u.readRequest b],
      moves := [⟨0, (u.reading object).bytes 0 b n⟩],
      buffers := [(u.reading object).left 0 b n] }

def uxWrite (b : List α) : Outcome α :=
  if u.byteioObj then
    match u.writes object 0 b.length with
    | .failed f o =>
      { uxio := u.stores o, result := some f, len := 0, requests := [u.writeRequest b],
        moves := [], buffers := [b] }
    | .moved n _ o =>
      { uxio := (u.stores o).advance n, result := none, len := n, requests := [u.writeRequest b],
        moves := [⟨0, b.take n⟩], buffers := [b] }
  else
    { uxio := u, result := some .noSuchOperation, len := b.length, requests := [], moves := [],
      buffers := [b] }

end Uxio

namespace Way

variable {α : Type} (way : Way α)

def loop : ℕ → ℕ → List (Iovec α) → Uxio → ℕ → Result → Outcome α
  | _, _, [], u, len, err =>
    { uxio := u, result := err, len := len, requests := [], moves := [], buffers := [] }
  | i, start, v :: iov, u, len, _ =>
    match way.call i v.base.length with
    | .failed f o =>
      { uxio := u.stores o, result := some f, len := len, requests := [way.request u v.base],
        moves := [], buffers := v.base :: iov.map Iovec.base }
    | .moved n _ o =>
      let rest := loop (i + 1) (start + v.base.length) iov ((u.stores o).advance n)
        (Word.add len n) none
      { rest with
        requests := way.request u v.base :: rest.requests
        moves := ⟨start, way.bytes i v.base n⟩ :: rest.moves
        buffers := way.left i v.base n :: rest.buffers }

end Way

namespace Uxio

variable {α : Type} (u : Uxio) (object : Object α) (iov : List (Iovec α)) (stray : Result)

def uxReadv : Outcome α := (u.reading object).loop 0 0 iov u 0 stray

def uxWritev : Outcome α :=
  if u.byteioObj then (u.writing object).loop 0 0 iov u 0 stray
  else
    { uxio := u, result := some .noSuchOperation, len := 0, requests := [], moves := [],
      buffers := iov.map Iovec.base }

end Uxio

structure Answer where
  num : ℕ
  count : ℕ
  offset : Option Dlong
  failed : Bool

namespace Answer

def ofReply {num : ℕ} : Reply num → Answer
  | .failed _ o => ⟨num, 0, o, true⟩
  | .moved n _ o => ⟨num, n, o, false⟩

def total (as : List Answer) : ℕ := (as.map count).sum

def spots : ℕ → List Answer → List ℕ
  | _, [] => []
  | start, a :: as => range' start a.count ++ spots (start + a.num) as

def place : ℕ → List Answer → ℕ
  | v, [] => v
  | v, a :: as => place (((a.offset.map Dlong.value).getD v + a.count) % 2 ^ 64) as

def Resumes (base : ℕ) : ℕ → List Answer → Prop
  | _, [] => True
  | before, a :: as =>
    ((∀ e ∈ as, e.offset = none) → ∀ o ∈ a.offset, o.value = (base + before) % 2 ^ 64) ∧
      Resumes base (before + a.count) as

def Filled (as : List Answer) : Prop := as.Pairwise fun d e => 0 < e.count → d.count = d.num

variable {as : List Answer} {a : Answer}

@[simp] theorem total_nil : total [] = 0 := rfl

@[simp] theorem total_cons : total (a :: as) = a.count + total as := by simp [total]

theorem total_eq_zero_iff : total as = 0 ↔ ∀ a ∈ as, a.count = 0 := by
  induction as with
  | nil => simp
  | cons a as ih => simp [ih]

theorem length_spots (start : ℕ) : (spots start as).length = total as := by
  induction as generalizing start with
  | nil => rfl
  | cons a as ih => simp [spots, ih]

theorem le_of_mem_spots {start p : ℕ} (hp : p ∈ spots start as) : start ≤ p := by
  induction as generalizing start with
  | nil => simp [spots] at hp
  | cons a as ih =>
    rw [spots, mem_append] at hp
    rcases hp with hp | hp
    · exact (mem_range'_1.1 hp).1
    · have := ih hp
      omega

theorem spots_eq_range'_iff (start : ℕ) (hfits : ∀ a ∈ as, a.count ≤ a.num) :
    spots start as = range' start (total as) ↔ Filled as := by
  induction as generalizing start with
  | nil => simp [spots, Filled]
  | cons a as ih =>
    have hsplit : spots start (a :: as) = range' start (total (a :: as)) ↔
        spots (start + a.num) as = range' (start + a.count) (total as) := by
      rw [spots, total_cons, ← range'_append_1, append_cancel_left_eq]
    have ih := ih (start + a.num) fun e he => hfits e (.tail a he)
    rw [hsplit, Filled, pairwise_cons]
    constructor
    · intro h
      rcases Nat.eq_zero_or_pos (total as) with hnone | hsome
      · have hzero := total_eq_zero_iff.1 hnone
        refine ⟨fun e he hpos => absurd (hzero e he) hpos.ne', ?_⟩
        refine ih.1 ?_
        rw [h, hnone]
        rfl
      · have hfirst : start + a.count ∈ spots (start + a.num) as := by
          rw [h, mem_range'_1]
          omega
        have hle := le_of_mem_spots hfirst
        have hcount : a.count = a.num := by
          have := hfits a (by simp)
          omega
        rw [hcount] at h
        exact ⟨fun _ _ _ => hcount, ih.1 h⟩
    · intro h
      rcases Nat.eq_zero_or_pos (total as) with hnone | hsome
      · have hempty : spots (start + a.num) as = [] :=
          length_eq_zero_iff.1 ((length_spots _).trans hnone)
        rw [hempty, hnone]
        rfl
      · obtain ⟨e, he, hpos⟩ : ∃ e ∈ as, e.count ≠ 0 := by
          by_contra hall
          push Not at hall
          exact hsome.ne' (total_eq_zero_iff.2 hall)
        rw [h.1 e he (pos_of_ne_zero hpos)]
        exact ih.2 h.2

theorem place_of_quiet {v : ℕ} (hv : v < 2 ^ 64) (hquiet : ∀ a ∈ as, a.offset = none) :
    place v as = (v + total as) % 2 ^ 64 := by
  induction as generalizing v with
  | nil => rw [place, total_nil, add_zero, mod_eq_of_lt hv]
  | cons a as ih =>
    have hnone : a.offset = none := hquiet a (by simp)
    have hrest : ∀ e ∈ as, e.offset = none := fun e he => hquiet e (.tail a he)
    rw [place, hnone, map_none, getD_none, ih (mod_lt _ (by omega)) hrest, total_cons]
    omega

theorem resumes_of_quiet {base before : ℕ} (hquiet : ∀ a ∈ as, a.offset = none) :
    Resumes base before as := by
  induction as generalizing before with
  | nil => trivial
  | cons a as ih =>
    have hrest : ∀ e ∈ as, e.offset = none := fun e he => hquiet e (.tail a he)
    exact ⟨fun _ o ho => by simp [hquiet a (by simp)] at ho, ih hrest⟩

theorem place_eq_iff {base before v : ℕ} (hstored : ∃ a ∈ as, a.offset ≠ none) :
    place v as = (base + before + total as) % 2 ^ 64 ↔ Resumes base before as := by
  induction as generalizing before v with
  | nil => simp at hstored
  | cons a as ih =>
    rw [place, Resumes, total_cons]
    by_cases hlater : ∃ e ∈ as, e.offset ≠ none
    · have hnot : ¬ ∀ e ∈ as, e.offset = none := by
        obtain ⟨e, he, hne⟩ := hlater
        exact fun h => hne (h e he)
      rw [← add_assoc, add_assoc base, ih hlater]
      exact ⟨fun h => ⟨fun hq => absurd hq hnot, h⟩, And.right⟩
    · push Not at hlater
      obtain ⟨o, ho⟩ : ∃ o, a.offset = some o := by
        obtain ⟨e, he, hne⟩ := hstored
        rcases mem_cons.1 he with rfl | he
        · exact ne_none_iff_exists'.1 hne
        · exact absurd (hlater e he) hne
      have hlt := o.value_lt
      rw [place_of_quiet (mod_lt _ (by omega)) hlater]
      simp only [ho, map_some, getD_some, mem_some_iff, forall_eq']
      constructor
      · intro h
        exact ⟨fun _ => by omega, resumes_of_quiet hlater⟩
      · intro h
        have := h.1 hlater
        omega

end Answer

namespace Uxio

variable (u : Uxio) {α : Type} (object : Object α)

theorem value_stores (o : Option Dlong) :
    (u.stores o).curOffset.value = (o.map Dlong.value).getD u.curOffset.value := by
  cases o <;> rfl

theorem value_advance {n : ℕ} (hn : n < 2 ^ 32) :
    (u.advance n).curOffset.value = (u.curOffset.value + n) % 2 ^ 64 :=
  Dlong.value_addLong _ hn

end Uxio

namespace Way

variable {α : Type} (way : Way α)

def answers : ℕ → List (Iovec α) → List Answer
  | _, [] => []
  | i, v :: iov =>
    match way.call i v.base.length with
    | .failed _ o => [⟨v.base.length, 0, o, true⟩]
    | .moved n _ o => ⟨v.base.length, n, o, false⟩ :: answers (i + 1) iov

variable {way} {i start len : ℕ} {iov : List (Iovec α)} {u : Uxio} {err : Result}

theorem mem_answers {a : Answer} (ha : a ∈ way.answers i iov) :
    ∃ j num, a = Answer.ofReply (way.call j num) := by
  induction iov generalizing i with
  | nil => simp [answers] at ha
  | cons v iov ih =>
    rw [answers] at ha
    cases hcall : way.call i v.base.length with
    | failed f o =>
      simp only [hcall, mem_singleton] at ha
      exact ⟨i, v.base.length, by rw [ha, hcall]; rfl⟩
    | moved n fits o =>
      simp only [hcall, mem_cons] at ha
      rcases ha with rfl | ha
      · exact ⟨i, v.base.length, by rw [hcall]; rfl⟩
      · exact ih ha

theorem count_le_of_mem_answers {a : Answer} (ha : a ∈ way.answers i iov) : a.count ≤ a.num := by
  obtain ⟨j, num, rfl⟩ := mem_answers ha
  cases way.call j num with
  | failed f o => exact zero_le _
  | moved n fits o => exact fits

section Turn

variable {v : Iovec α} {n : ℕ} {fits : n ≤ v.base.length} {o : Option Dlong}

abbrev further (way : Way α) (i start : ℕ) (v : Iovec α) (iov : List (Iovec α)) (u : Uxio)
    (len n : ℕ) (o : Option Dlong) : Outcome α :=
  way.loop (i + 1) (start + v.base.length) iov ((u.stores o).advance n) (Word.add len n) none

theorem loop_moved (hcall : way.call i v.base.length = .moved n fits o) :
    way.loop i start (v :: iov) u len err =
      { further way i start v iov u len n o with
        requests := way.request u v.base :: (further way i start v iov u len n o).requests
        moves := ⟨start, way.bytes i v.base n⟩ :: (further way i start v iov u len n o).moves
        buffers := way.left i v.base n :: (further way i start v iov u len n o).buffers } := by
  rw [loop, hcall]

theorem answers_moved (hcall : way.call i v.base.length = .moved n fits o) :
    way.answers i (v :: iov) = ⟨v.base.length, n, o, false⟩ :: way.answers (i + 1) iov := by
  rw [answers, hcall]

theorem length_bytes (fits : n ≤ v.base.length) : (way.bytes i v.base n).length = n := by
  rw [← way.take_left i v.base n fits, length_take, way.length_left i v.base n fits]
  exact min_eq_left fits

end Turn

theorem loop_len (hlen : len < 2 ^ 32) :
    (way.loop i start iov u len err).len = (len + Answer.total (way.answers i iov)) % 2 ^ 32 := by
  induction iov generalizing i start u len err with
  | nil => exact (mod_eq_of_lt hlen).symm
  | cons v iov ih =>
    cases hcall : way.call i v.base.length with
    | failed f o =>
      rw [loop, answers, hcall]
      exact (mod_eq_of_lt hlen).symm
    | moved n fits o =>
      have hword : Word.add len n = (len + n) % 2 ^ 32 := rfl
      have ih : (further way i start v iov u len n o).len =
          (Word.add len n + Answer.total (way.answers (i + 1) iov)) % 2 ^ 32 := ih (by omega)
      rw [loop_moved hcall, answers_moved hcall, ih, Answer.total_cons, hword]
      dsimp only
      omega

theorem loop_spots :
    (way.loop i start iov u len err).spots = Answer.spots start (way.answers i iov) := by
  induction iov generalizing i start u len err with
  | nil => rfl
  | cons v iov ih =>
    cases hcall : way.call i v.base.length with
    | failed f o =>
      rw [loop, answers, hcall]
      rfl
    | moved n fits o =>
      have ih : (further way i start v iov u len n o).spots =
          Answer.spots (start + v.base.length) (way.answers (i + 1) iov) := ih
      rw [loop_moved hcall, answers_moved hcall, Answer.spots, ← ih, Outcome.spots,
        flatMap_cons, length_bytes fits]
      rfl

theorem loop_length_stream :
    (way.loop i start iov u len err).stream.length = Answer.total (way.answers i iov) := by
  have hspots : (way.loop i start iov u len err).spots = Answer.spots start (way.answers i iov) :=
    loop_spots
  rw [← Answer.length_spots start, ← hspots]
  simp [Outcome.stream, Outcome.spots, length_flatMap]

theorem loop_stream (hfilled : Answer.Filled (way.answers i iov)) :
    (way.loop i start iov u len err).stream =
      (way.loop i start iov u len err).buffers.flatten.take (Answer.total (way.answers i iov)) := by
  induction iov generalizing i start u len err with
  | nil => rfl
  | cons v iov ih =>
    cases hcall : way.call i v.base.length with
    | failed f o =>
      rw [loop, answers, hcall]
      simp [Outcome.stream]
    | moved n fits o =>
      rw [answers_moved hcall] at hfilled ⊢
      obtain ⟨hfull, hrest⟩ := pairwise_cons.1 hfilled
      have ih : (further way i start v iov u len n o).stream =
          (further way i start v iov u len n o).buffers.flatten.take
            (Answer.total (way.answers (i + 1) iov)) := ih hrest
      have hlater : (further way i start v iov u len n o).stream.length =
          Answer.total (way.answers (i + 1) iov) := loop_length_stream
      have htake := way.take_left i v.base n fits
      have hleft := way.length_left i v.base n fits
      rw [loop_moved hcall, Answer.total_cons, Outcome.stream, flatMap_cons, flatten_cons]
      rcases Nat.eq_zero_or_pos (Answer.total (way.answers (i + 1) iov)) with hnone | hsome
      · have hempty : (further way i start v iov u len n o).stream = [] :=
          length_eq_zero_iff.1 (hlater.trans hnone)
        rw [hnone, add_zero, take_append_of_le_length (hleft.symm ▸ fits), htake]
        exact (congrArg (_ ++ ·) hempty).trans (append_nil _)
      · obtain ⟨e, he, hpos⟩ : ∃ e ∈ way.answers (i + 1) iov, e.count ≠ 0 := by
          by_contra hall
          push Not at hall
          exact hsome.ne' (Answer.total_eq_zero_iff.2 hall)
        have hn : n = v.base.length := hfull e he (pos_of_ne_zero hpos)
        have hwhole : way.bytes i v.base n = way.left i v.base n := by
          rw [← htake, take_of_length_le (hleft.trans hn.symm).le]
        rw [take_append, hleft, ← hn, Nat.add_sub_cancel_left,
          take_of_length_le (hleft.trans hn.symm |>.le.trans (Nat.le_add_right _ _)), ← hwhole]
        exact congrArg (_ ++ ·) ih

theorem loop_offset :
    (way.loop i start iov u len err).uxio.curOffset.value =
      Answer.place u.curOffset.value (way.answers i iov) := by
  induction iov generalizing i start u len err with
  | nil => rfl
  | cons v iov ih =>
    cases hcall : way.call i v.base.length with
    | failed f o =>
      rw [loop, answers, hcall]
      have hlt := (u.stores o).curOffset.value_lt
      simp only [Answer.place, add_zero, ← Uxio.value_stores]
      rw [mod_eq_of_lt hlt]
    | moved n fits o =>
      have ih : (further way i start v iov u len n o).uxio.curOffset.value =
          Answer.place ((u.stores o).advance n).curOffset.value (way.answers (i + 1) iov) := ih
      have hn : n < 2 ^ 32 := fits.trans_lt v.fits
      rw [loop_moved hcall, answers_moved hcall, ih, Answer.place, Uxio.value_advance _ hn,
        Uxio.value_stores]

theorem loop_result (hne : iov ≠ []) :
    (way.loop i start iov u len err).result ≠ none ↔ ∃ a ∈ way.answers i iov, a.failed := by
  induction iov generalizing i start u len err with
  | nil => exact absurd rfl hne
  | cons v iov ih =>
    cases hcall : way.call i v.base.length with
    | failed f o =>
      rw [loop, answers, hcall]
      simp
    | moved n fits o =>
      rw [loop_moved hcall, answers_moved hcall]
      cases iov with
      | nil => simp [loop, answers]
      | cons v' iov =>
        rw [ih (cons_ne_nil v' iov)]
        simp

end Way

structure AsPlain {α : Type} (single : Object α → List α → Outcome α) (first : Option Dlong)
    (whole : List α) (out : Outcome α) : Prop where
  bytes : out.spots = range out.len
  stream : out.stream = whole.take out.len
  offset : ∀ (one : Object α) b fits, one.answer 0 b.length = .moved out.len fits first →
    out.uxio.curOffset.value = (single one b).uxio.curOffset.value
  error : out.result ≠ none → out.stream = []

structure Seamless (u : Uxio) (as : List Answer) : Prop where
  filled : Answer.Filled as
  unfailed : ∀ e ∈ as, e.failed → ∀ d ∈ as, d.count = 0
  bounded : Answer.total as < 2 ^ 32
  resumes : Answer.Resumes ((as.head?.bind Answer.offset).getD u.curOffset).value 0 as

inductive Access where
  | byReference
  | byValue
  | refused
  deriving DecidableEq

def Access.reply {num : ℕ} : Access → Reply num → Reply num
  | byReference, r => r
  | byValue, r => r.byValue
  | refused, _ => .failed .noSuchOperation none

namespace Uxio

variable {α : Type} (u : Uxio) (object : Object α) (b : List α)

def readAccess : Access :=
  if u.flags.sequential then if u.byteioObj then .byReference else .refused
  else if u.directory || u.byteioObj then .byValue else .refused

def writeAccess : Access :=
  if u.flags.append then .byValue else if u.flags.sequential then .byReference else .byValue

def settle {num : ℕ} : Reply num → Uxio
  | .failed _ o => u.stores o
  | .moved n _ o => (u.stores o).advance n

theorem reads_eq (i num : ℕ) : u.reads object i num = u.readAccess.reply (object.answer i num) := by
  rw [reads, readAccess]
  split_ifs with hseq hobj hown
  · exact if_pos hobj
  · exact if_neg hobj
  · exact if_pos hown
  · exact if_neg hown

theorem writes_eq (i num : ℕ) :
    u.writes object i num = u.writeAccess.reply (object.answer i num) := by
  rw [writes, writeAccess]
  split_ifs <;> rfl

theorem uxRead_offset :
    (u.uxRead object b).uxio.curOffset = (u.settle (u.reads object 0 b.length)).curOffset := by
  have huses : u.usesProbe.reads object 0 b.length = u.reads object 0 b.length := by
    rw [usesProbe]
    split_ifs <;> rfl
  have hcur : u.usesProbe.curOffset = u.curOffset := by
    rw [usesProbe]
    split_ifs <;> rfl
  simp only [uxRead, huses]
  cases u.reads object 0 b.length <;> simp only [settle, stores, advance, hcur]

theorem uxWrite_offset (hobj : u.byteioObj) :
    (u.uxWrite object b).uxio.curOffset = (u.settle (u.writes object 0 b.length)).curOffset := by
  rw [uxWrite, if_pos hobj]
  cases u.writes object 0 b.length <;> rfl

end Uxio

section Plain

variable {α : Type} {way : Way α} {iov : List (Iovec α)} {u : Uxio} {stray : Result}
  {access : Access} {object : Object α}

theorem quiet_of_byValue (hcall : ∀ i num, way.call i num = access.reply (object.answer i num))
    (haccess : access ≠ .byReference) (i : ℕ) : ∀ a ∈ way.answers i iov, a.offset = none := by
  intro a ha
  obtain ⟨j, num, rfl⟩ := Way.mem_answers ha
  rw [hcall]
  cases access with
  | byReference => exact absurd rfl haccess
  | byValue => cases object.answer j num <;> rfl
  | refused => rfl

theorem head_offset_of_quiet {as : List Answer} (hquiet : ∀ a ∈ as, a.offset = none) :
    as.head?.bind Answer.offset = none := by
  cases as with
  | nil => rfl
  | cons a as => exact hquiet a (by simp)

theorem settle_offset (hcall : ∀ i num, way.call i num = access.reply (object.answer i num))
    {num n : ℕ} {fits : n ≤ num} (hn : n = Answer.total (way.answers 0 iov) % 2 ^ 32)
    {first : Option Dlong} (hfirst : first = (way.answers 0 iov).head?.bind Answer.offset) :
    (u.settle (access.reply (.moved n fits first))).curOffset.value =
      ((first.getD u.curOffset).value + n) % 2 ^ 64 := by
  have hlt : n < 2 ^ 32 := by omega
  cases access with
  | byReference => exact (Uxio.value_advance _ hlt).trans rfl
  | byValue =>
    have hquiet : ∀ a ∈ way.answers 0 iov, a.offset = none := quiet_of_byValue hcall (by simp) 0
    have hnone := head_offset_of_quiet hquiet
    rw [hfirst, hnone]
    exact (Uxio.value_advance _ hlt).trans rfl
  | refused =>
    have hquiet : ∀ a ∈ way.answers 0 iov, a.offset = none := quiet_of_byValue hcall (by simp) 0
    have hnone := head_offset_of_quiet hquiet
    have hzero : Answer.total (way.answers 0 iov) = 0 := by
      refine Answer.total_eq_zero_iff.2 fun a ha => ?_
      obtain ⟨j, num, rfl⟩ := Way.mem_answers ha
      rw [hcall]
      rfl
    obtain rfl : n = 0 := by rw [hn, hzero, zero_mod]
    rw [hfirst, hnone, add_zero, getD_none, mod_eq_of_lt u.curOffset.value_lt]
    rfl

def answering (object : Object α) (n : ℕ) (offset : Option Dlong) : Object α where
  answer _ num := if h : n ≤ num then .moved n h offset else .failed .noSuchOperation none
  data := object.data

theorem resumes_iff (as : List Answer) :
    Answer.Resumes ((as.head?.bind Answer.offset).getD u.curOffset).value 0 as ↔
      Answer.place u.curOffset.value as =
        (((as.head?.bind Answer.offset).getD u.curOffset).value + Answer.total as) % 2 ^ 64 := by
  by_cases hstored : ∃ a ∈ as, a.offset ≠ none
  · rw [← Answer.place_eq_iff hstored (v := u.curOffset.value), add_zero]
  · push Not at hstored
    rw [head_offset_of_quiet hstored]
    exact iff_of_true (Answer.resumes_of_quiet hstored)
      (Answer.place_of_quiet u.curOffset.value_lt hstored)

theorem loop_asPlain_iff (access : Access) (object : Object α)
    {single : Object α → List α → Outcome α} {whole : List α}
    (hcall : ∀ i num, way.call i num = access.reply (object.answer i num))
    (hsingle : ∀ one b, (single one b).uxio.curOffset =
      (u.settle (access.reply (one.answer 0 b.length))).curOffset)
    (hwhole : (way.loop 0 0 iov u 0 stray).stream =
        (way.loop 0 0 iov u 0 stray).buffers.flatten.take (Answer.total (way.answers 0 iov)) →
      (way.loop 0 0 iov u 0 stray).stream = whole.take (Answer.total (way.answers 0 iov))) :
    AsPlain single ((way.answers 0 iov).head?.bind Answer.offset) whole
        (way.loop 0 0 iov u 0 stray) ↔
      Seamless u (way.answers 0 iov) := by
  have hlen : (way.loop 0 0 iov u 0 stray).len = Answer.total (way.answers 0 iov) % 2 ^ 32 := by
    rw [Way.loop_len (by omega), zero_add]
  have hstream : (way.loop 0 0 iov u 0 stray).stream.length =
    Answer.total (way.answers 0 iov) := Way.loop_length_stream
  have hspots : (way.loop 0 0 iov u 0 stray).spots =
    Answer.spots 0 (way.answers 0 iov) := Way.loop_spots
  have hoffset : (way.loop 0 0 iov u 0 stray).uxio.curOffset.value =
    Answer.place u.curOffset.value (way.answers 0 iov) := Way.loop_offset
  have hfits : ∀ a ∈ way.answers 0 iov, a.count ≤ a.num := fun _ => Way.count_le_of_mem_answers
  have hempty : (way.loop 0 0 iov u 0 stray).stream = [] ↔
      ∀ a ∈ way.answers 0 iov, a.count = 0 := by
    rw [← Answer.total_eq_zero_iff, ← hstream, length_eq_zero_iff]
  constructor
  · intro h
    have hbounded : Answer.total (way.answers 0 iov) < 2 ^ 32 := by
      have hcount := congrArg length h.bytes
      rw [hspots, Answer.length_spots, length_range, hlen] at hcount
      omega
    have hexact := hlen.trans (mod_eq_of_lt hbounded)
    refine ⟨?_, ?_, hbounded, ?_⟩
    · refine (Answer.spots_eq_range'_iff 0 hfits).1 ?_
      rw [← hspots, h.bytes, hexact, range_eq_range']
    · intro e he hfailed
      have hne : iov ≠ [] := by
        rintro rfl
        simp [Way.answers] at he
      exact hempty.1 (h.error ((Way.loop_result hne).2 ⟨e, he, hfailed⟩))
    · rw [resumes_iff, ← hoffset, ← hexact]
      have hroom : (way.loop 0 0 iov u 0 stray).len ≤
          (way.loop 0 0 iov u 0 stray).stream.length := (hexact.trans hstream.symm).le
      have hone := h.offset (answering object _ _) _ hroom (dif_pos hroom)
      rw [hsingle, show (answering object _ _).answer 0 _ = _ from dif_pos hroom,
        settle_offset hcall hlen rfl] at hone
      exact hone
  · intro h
    have hexact := hlen.trans (mod_eq_of_lt h.bounded)
    refine ⟨?_, ?_, ?_, ?_⟩
    · rw [hspots, (Answer.spots_eq_range'_iff 0 hfits).2 h.filled, hexact, range_eq_range']
    · rw [hexact]
      exact hwhole (Way.loop_stream h.filled)
    · intro one b fits hone
      rw [hsingle, hone, settle_offset hcall hlen rfl, hoffset, hexact]
      exact (resumes_iff _).1 h.resumes
    · intro herr
      rcases eq_or_ne iov [] with rfl | hne
      · rfl
      · obtain ⟨e, he, hfailed⟩ := (Way.loop_result hne).1 herr
        exact hempty.2 (h.unfailed e he hfailed)

end Plain

namespace Uxio

variable {α : Type} (u : Uxio) (object : Object α) (iov : List (Iovec α)) (stray : Result)

def readAnswers : List Answer := (u.reading object).answers 0 iov

def writeAnswers : List Answer :=
  if u.byteioObj then (u.writing object).answers 0 iov else []

theorem loop_buffers_writing (i start len : ℕ) (w : Uxio) :
    ((u.writing object).loop i start iov w len stray).buffers = iov.map Iovec.base := by
  induction iov generalizing i start len w stray with
  | nil => rfl
  | cons v iov ih =>
    cases hcall : (u.writing object).call i v.base.length with
    | failed f o => rw [Way.loop, hcall]; rfl
    | moved n fits o =>
      rw [Way.loop_moved hcall]
      exact congrArg (v.base :: ·) (ih none _ _ _ _)

theorem uxReadv_iff :
    AsPlain u.uxRead ((u.readAnswers object iov).head?.bind Answer.offset)
        (u.uxReadv object iov stray).buffers.flatten (u.uxReadv object iov stray) ↔
      Seamless u (u.readAnswers object iov) := by
  refine loop_asPlain_iff u.readAccess object (u.reads_eq object) ?_ id
  intro one b
  rw [u.uxRead_offset, u.reads_eq]

theorem uxWritev_iff :
    AsPlain u.uxWrite ((u.writeAnswers object iov).head?.bind Answer.offset)
        (iov.map Iovec.base).flatten (u.uxWritev object iov stray) ↔
      Seamless u (u.writeAnswers object iov) := by
  rw [uxWritev, writeAnswers]
  by_cases hobj : u.byteioObj
  · rw [if_pos hobj, if_pos hobj]
    refine loop_asPlain_iff u.writeAccess object (u.writes_eq object) ?_ ?_
    · intro one b
      rw [u.uxWrite_offset one b hobj, u.writes_eq]
    · intro h
      rwa [u.loop_buffers_writing] at h
  · rw [if_neg hobj, if_neg hobj]
    refine iff_of_true ⟨rfl, rfl, ?_, fun _ => rfl⟩ ⟨.nil, by simp, by simp, trivial⟩
    intro one b fits hone
    rw [uxWrite, if_neg hobj]

theorem vectored_as_plain_iff :
    (AsPlain u.uxRead ((u.readAnswers object iov).head?.bind Answer.offset)
        (u.uxReadv object iov stray).buffers.flatten (u.uxReadv object iov stray) ↔
      Seamless u (u.readAnswers object iov)) ∧
    (AsPlain u.uxWrite ((u.writeAnswers object iov).head?.bind Answer.offset)
        (iov.map Iovec.base).flatten (u.uxWritev object iov stray) ↔
      Seamless u (u.writeAnswers object iov)) :=
  ⟨u.uxReadv_iff object iov stray, u.uxWritev_iff object iov stray⟩

end Uxio

namespace Sample

def terminal : Uxio where
  curOffset := Dlong.zero
  flags := ⟨false, false, true⟩
  byteioObj := true
  directory := false
  selectState _ := .nothing

def typed : Object ℕ := answering ⟨fun _ _ => .failed .noSuchOperation none, fun i _ => i⟩ 1
  (some Dlong.zero)

def twoBuffers : List (Iovec ℕ) := [⟨[7, 7], by decide⟩, ⟨[7, 7], by decide⟩]

theorem short_read_leaves_gap :
    ¬ AsPlain terminal.uxRead ((terminal.readAnswers typed twoBuffers).head?.bind Answer.offset)
      (terminal.uxReadv typed twoBuffers none).buffers.flatten
      (terminal.uxReadv typed twoBuffers none) := by
  intro h
  have hspots : (terminal.uxReadv typed twoBuffers none).spots = [0, 2] := by decide
  have hrange : (terminal.uxReadv typed twoBuffers none).len = 2 := by decide
  have hbytes := h.bytes
  rw [hspots, hrange] at hbytes
  cases hbytes

end Sample

end MachUS.Ux.Vectored
