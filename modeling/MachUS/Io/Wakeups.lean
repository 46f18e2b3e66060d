import MachUS.Foundation.Transition
import MachUS.Io.ByteStream

namespace MachUS.Io

inductive Cond where
  | get
  | put
  deriving DecidableEq

inductive Wake where
  | signal (c : Cond)
  | broadcast (c : Cond)
  deriving DecidableEq

structure Counts where
  qused : ℕ
  qmax : ℕ
  readStrategy : UInt32
  writeStrategy : UInt32

inductive Verdict where
  | waits
  | returns (code : Code) (num : ℕ) (k : Counts) (wakes : List Wake)

inductive Supply where
  | enough
  | noMemory (moved : ℕ)
  | outOfBlocks (moved : ℕ)
  | notEnoughData

inductive Kind where
  | read
  | write
  | getbytes
  | putbytes
  deriving DecidableEq

def Kind.cond : Kind → Cond
  | .read => .get
  | .write => .put
  | .getbytes => .get
  | .putbytes => .put

structure Op where
  kind : Kind
  mode : UInt32
  num : UInt32

namespace Op

def cond (op : Op) : Cond := op.kind.cond

def minimum (op : Op) : ℕ := Stream.minimum op.mode op.num.toNat

end Op

namespace Counts

variable (k : Counts)

def available : Cond → ℕ
  | .get => k.qused
  | .put => Word.sub k.qmax k.qused

def strategy : Cond → UInt32
  | .get => k.readStrategy
  | .put => k.writeStrategy

def Enabled (c : Cond) : Prop := k.strategy c &&& iosEnabled ≠ 0

instance (c : Cond) : Decidable (k.Enabled c) := inferInstanceAs (Decidable (_ ≠ _))

def moved : Cond → ℕ → Counts
  | .get, n => { k with qused := Word.sub k.qused n }
  | .put, n => { k with qused := Word.add k.qused n }

def wakes : Cond → List Wake
  | .get => .signal .put :: if 0 < k.qused then [.signal .get] else []
  | .put => .signal .get :: if k.qused < k.qmax then [.signal .put] else []

def finish (c : Cond) (code : Code) (num n : ℕ) : Verdict :=
  .returns code num (k.moved c n) ((k.moved c n).wakes c)

def refuses (code : Code) (num : ℕ) : Verdict := .returns code num k []

def transfer (num : ℕ) : Kind → Supply → Option Verdict
  | .read, .enough => some (k.finish .get .success num num)
  | .read, .outOfBlocks n =>
    if n < num then some (.returns .internalError num (k.moved .get n) []) else none
  | .write, .enough => some (k.finish .put .success num num)
  | .write, .noMemory _ => if 0 < num then some (k.refuses .internalError 0) else none
  | .getbytes, .enough => some (k.finish .get .success num num)
  | .getbytes, .noMemory n => if n < num then some (k.finish .get .resourceExhausted n n) else none
  | .getbytes, .outOfBlocks _ => if 0 < num then some (k.refuses .internalError num) else none
  | .putbytes, .enough => some (k.finish .put .success num num)
  | .putbytes, .noMemory n => if n < num then some (k.finish .put .internalError n n) else none
  | .putbytes, .notEnoughData => if 0 < num then some (k.refuses .notEnoughData num) else none
  | _, _ => none

def ready (op : Op) (o : Supply) : Option Verdict :=
  let num := min op.num.toNat (k.available op.cond)
  if op.mode &&& iomProbe ≠ 0 then some (k.refuses .success num)
  else k.transfer num op.kind o

def test (op : Op) (o : Supply) : Option Verdict :=
  if k.available op.cond < op.minimum then
    if k.strategy op.cond &&& iosWaitAllowed = 0 then some (k.refuses .rejected op.num.toNat)
    else if op.mode &&& iomWait ≠ 0 then some .waits
    else some (k.refuses .objectBusy op.num.toNat)
  else k.ready op o

def checked (op : Op) (o : Supply) : Option Verdict :=
  if k.Enabled op.cond then k.test op o else some (k.refuses .rejected op.num.toNat)

def bounded (op : Op) (o : Supply) : Option Verdict :=
  if k.Enabled op.cond then
    if maximumXfer < op.num.toNat then some (k.refuses .invalidSize op.num.toNat)
    else k.test op o
  else some (k.refuses .rejected op.num.toNat)

def ioReadSeq (mode num : UInt32) : Supply → Option Verdict := k.bounded ⟨.read, mode, num⟩

def ioWriteSeq (mode num : UInt32) : Supply → Option Verdict := k.bounded ⟨.write, mode, num⟩

def ioGetbytesSeq (mode num : UInt32) : Supply → Option Verdict := k.checked ⟨.getbytes, mode, num⟩

def ioPutbytesSeq (mode num : UInt32) : Supply → Option Verdict := k.test ⟨.putbytes, mode, num⟩

def enter (op : Op) : Supply → Option Verdict :=
  match op.kind with
  | .read => k.ioReadSeq op.mode op.num
  | .write => k.ioWriteSeq op.mode op.num
  | .getbytes => k.ioGetbytesSeq op.mode op.num
  | .putbytes => k.ioPutbytesSeq op.mode op.num

def resume (op : Op) (interrupted : Bool) (o : Supply) : Option Verdict :=
  if interrupted then some (k.refuses .exceptSoftware op.num.toNat)
  else k.checked op o

end Counts

inductive Request where
  | transfer (op : Op)
  | flush
  | setReadStrategy (strategy : UInt32)
  | setWriteStrategy (strategy : UInt32)

inductive Phase where
  | idle
  | entering (r : Request)
  | inside (r : Request)
  | parking (op : Op)
  | asleep (op : Op)
  | woken (op : Op)
  | resuming (op : Op)
  | signalling (wakes : List Wake)

namespace Phase

def after : List Wake → Phase
  | [] => .idle
  | w :: ws => .signalling (w :: ws)

def Sleeps (c : Cond) : Phase → Prop
  | .asleep op => op.cond = c
  | _ => False

instance (c : Cond) (p : Phase) : Decidable (p.Sleeps c) :=
  match p with
  | .asleep op => inferInstanceAs (Decidable (op.cond = c))
  | .idle | .entering _ | .inside _ | .parking _ | .woken _ | .resuming _ | .signalling _ =>
    .isFalse id

def rouse : Phase → Phase
  | .asleep op => .woken op
  | p => p

end Phase

structure Crowd (T : Type) where
  counts : Counts
  lock : Option T
  phase : T → Phase

namespace Crowd

inductive Event (T : Type) where
  | call (t : T) (r : Request)
  | lock (t : T)
  | act (t : T) (interrupted : Bool) (o : Supply)
  | park (t : T) (interrupted : Bool)
  | wake (t chosen : T)
  | shake (t : T)

variable {T : Type}

def create (qsize : UInt32) (readstrat writestrat : UInt32) : Crowd T :=
  ⟨⟨0, qsize.toNat, readstrat, writestrat⟩, none, fun _ => .idle⟩

variable [DecidableEq T] (x : Crowd T)

def goes (t : T) (p : Phase) : Crowd T := { x with phase := Function.update x.phase t p }

def unlocked : Crowd T := { x with lock := none }

def wakeAll (c : Cond) : Crowd T :=
  { x with phase := fun t => if (x.phase t).Sleeps c then (x.phase t).rouse else x.phase t }

def start (t : T) : Request → Crowd T
  | .transfer op =>
    if Stream.invalidMode op.mode then x
    else if op.kind = .putbytes ∧ ¬x.counts.Enabled .put then x.unlocked
    else x.goes t (.entering (.transfer op))
  | .flush => x.goes t (.entering .flush)
  | .setReadStrategy strategy =>
    if Stream.invalidStrategy strategy then x else x.goes t (.entering (.setReadStrategy strategy))
  | .setWriteStrategy strategy =>
    if Stream.invalidStrategy strategy then x else x.goes t (.entering (.setWriteStrategy strategy))

def settle (t : T) (op : Op) : Verdict → Crowd T
  | .waits => x.goes t (.parking op)
  | .returns _ _ k ws => { x.unlocked.goes t (Phase.after ws) with counts := k }

def ioFlushStream (t : T) : Crowd T :=
  (({ x with counts := { x.counts with qused := 0 } }.wakeAll .put).wakeAll .get).unlocked.goes t .idle

def ioSetReadStrategy (t : T) (strategy : UInt32) : Crowd T :=
  { x.unlocked.goes t (.signalling [.broadcast .get]) with
    counts := { x.counts with readStrategy := strategy } }

def ioSetWriteStrategy (t : T) (strategy : UInt32) : Crowd T :=
  { x.unlocked.goes t (.signalling [.broadcast .put]) with
    counts := { x.counts with writeStrategy := strategy } }

def serve (t : T) (o : Supply) : Request → Option (Crowd T)
  | .transfer op => (x.counts.enter op o).map (x.settle t op)
  | .flush => some (x.ioFlushStream t)
  | .setReadStrategy strategy => some (x.ioSetReadStrategy t strategy)
  | .setWriteStrategy strategy => some (x.ioSetWriteStrategy t strategy)

end Crowd

namespace Crowd

variable {T : Type} [DecidableEq T] [Fintype T] (x : Crowd T)

def send (t chosen : T) (ws : List Wake) : Wake → Option (Crowd T)
  | .signal c =>
    if ∃ u, (x.phase u).Sleeps c then
      if (x.phase chosen).Sleeps c then
        some ((x.goes t (.after ws)).goes chosen (x.phase chosen).rouse)
      else none
    else some (x.goes t (.after ws))
  | .broadcast c => some ((x.goes t (.after ws)).wakeAll c)

def next : Event T → Option (Crowd T)
  | .call t r =>
    match x.phase t with
    | .idle => some (x.start t r)
    | _ => none
  | .lock t =>
    if x.lock = none then
      match x.phase t with
      | .entering r => some { x.goes t (.inside r) with lock := some t }
      | .woken op => some { x.goes t (.resuming op) with lock := some t }
      | _ => none
    else none
  | .act t interrupted o =>
    match x.phase t with
    | .inside r => x.serve t o r
    | .resuming op => (x.counts.resume op interrupted o).map (x.settle t op)
    | _ => none
  | .park t interrupted =>
    match x.phase t with
    | .parking op =>
      some (x.unlocked.goes t (if interrupted then .idle else .asleep op))
    | _ => none
  | .wake t chosen =>
    match x.phase t with
    | .signalling (w :: ws) => x.send t chosen ws w
    | _ => none
  | .shake t =>
    match x.phase t with
    | .asleep op => some (x.goes t (.woken op))
    | _ => none

end Crowd

end MachUS.Io

namespace MachUS.Io

open Option

namespace Kind

def Fails : Kind → Supply → Prop
  | .read, .outOfBlocks _ => True
  | .write, .noMemory _ => True
  | .getbytes, .outOfBlocks _ => True
  | .putbytes, .notEnoughData => True
  | _, _ => False

end Kind

namespace Supply

def Lossless (kind : Kind) (o : Supply) : Prop :=
  ∀ n, kind = .read → o = .outOfBlocks n → n = 0

end Supply

namespace Counts

structure Valid (k : Counts) : Prop where
  bound : k.qmax < 2 ^ 32
  used : k.qused ≤ k.qmax

def Fruitless (k : Counts) (op : Op) (interrupted : Bool) (o : Supply) : Prop :=
  interrupted = true ∨ ¬k.Enabled op.cond ∨ k.available op.cond < op.minimum ∨
    op.mode &&& iomProbe ≠ 0 ∨ op.kind.Fails o

inductive Judged (k : Counts) (op : Op) : Verdict → Prop where
  | waits (h : k.available op.cond < op.minimum) : Judged k op .waits
  | refuses (code : Code) (num : ℕ) : Judged k op (k.refuses code num)
  | finish (code : Code) (num n : ℕ) (h : n ≤ k.available op.cond) :
    Judged k op (k.finish op.cond code num n)

variable {k : Counts} {op : Op} {o : Supply} {v : Verdict}

namespace Valid

section

variable (h : k.Valid)

include h

theorem space : k.available .put = k.qmax - k.qused := Word.sub_of_le h.used h.bound

theorem moved {c : Cond} {n : ℕ} (hn : n ≤ k.available c) : (k.moved c n).Valid := by
  have hbound := h.bound
  have hused := h.used
  cases c with
  | get =>
    change n ≤ k.qused at hn
    refine ⟨hbound, ?_⟩
    change Word.sub k.qused n ≤ k.qmax
    rw [Word.sub_of_le hn (by omega)]
    omega
  | put =>
    rw [h.space] at hn
    refine ⟨hbound, ?_⟩
    change Word.add k.qused n ≤ k.qmax
    rw [Word.add_of_lt (by omega)]
    omega

theorem moved_zero : k.moved .get 0 = k := by
  have hbound := h.bound
  have hused := h.used
  have hsub : Word.sub k.qused 0 = k.qused := Word.sub_of_le (Nat.zero_le _) (by omega)
  rw [Counts.moved, hsub]

theorem wakes {c d : Cond} (hd : 0 < k.available d) : .signal d ∈ k.wakes c := by
  cases c <;> cases d
  · change 0 < k.qused at hd
    simp [Counts.wakes, hd]
  · simp [Counts.wakes]
  · simp [Counts.wakes]
  · rw [h.space] at hd
    have hlt : k.qused < k.qmax := by omega
    simp [Counts.wakes, hlt]

theorem judged_transfer {num : ℕ} (hnum : num ≤ k.available op.cond)
    (ho : o.Lossless op.kind) (hv : k.transfer num op.kind o = some v) :
    k.Judged op v ∧ (¬op.kind.Fails o → ∃ code num n, v = k.finish op.cond code num n) := by
  have hgives {code : Code} {num n : ℕ} (hn : n ≤ k.available op.cond)
      (hv : k.finish op.cond code num n = v) :
      k.Judged op v ∧ (¬op.kind.Fails o → ∃ code num n, v = k.finish op.cond code num n) := by
    subst hv
    exact ⟨.finish _ _ _ hn, fun _ => ⟨_, _, _, rfl⟩⟩
  have hfails {code : Code} {num : ℕ} (hf : op.kind.Fails o) (hv : k.refuses code num = v) :
      k.Judged op v ∧ (¬op.kind.Fails o → ∃ code num n, v = k.finish op.cond code num n) := by
    subst hv
    exact ⟨.refuses _ _, fun hn => absurd hf hn⟩
  obtain ⟨kind, mode, wanted⟩ := op
  cases kind with
  | read =>
    cases o with
    | enough => exact hgives hnum (some.inj hv)
    | outOfBlocks n =>
      obtain rfl := ho n rfl rfl
      simp only [transfer, h.moved_zero] at hv
      split_ifs at hv
      exact hfails trivial (some.inj hv)
    | noMemory n => cases hv
    | notEnoughData => cases hv
  | write =>
    cases o with
    | enough => exact hgives hnum (some.inj hv)
    | noMemory n =>
      simp only [transfer] at hv
      split_ifs at hv
      exact hfails trivial (some.inj hv)
    | outOfBlocks n => cases hv
    | notEnoughData => cases hv
  | getbytes =>
    cases o with
    | enough => exact hgives hnum (some.inj hv)
    | noMemory n =>
      simp only [transfer] at hv
      split_ifs at hv with hn
      exact hgives (hn.le.trans hnum) (some.inj hv)
    | outOfBlocks n =>
      simp only [transfer] at hv
      split_ifs at hv
      exact hfails trivial (some.inj hv)
    | notEnoughData => cases hv
  | putbytes =>
    cases o with
    | enough => exact hgives hnum (some.inj hv)
    | noMemory n =>
      simp only [transfer] at hv
      split_ifs at hv with hn
      exact hgives (hn.le.trans hnum) (some.inj hv)
    | notEnoughData =>
      simp only [transfer] at hv
      split_ifs at hv
      exact hfails trivial (some.inj hv)
    | outOfBlocks n => cases hv

theorem judged_test (ho : o.Lossless op.kind) (hv : k.test op o = some v) :
    k.Judged op v ∧ (k.available op.cond < op.minimum ∨ op.mode &&& iomProbe ≠ 0 ∨
      op.kind.Fails o ∨ ∃ code num n, v = k.finish op.cond code num n) := by
  simp only [test, ready] at hv
  split_ifs at hv with hlt hwait hmode hprobe
  · cases hv
    exact ⟨.refuses _ _, .inl hlt⟩
  · cases hv
    exact ⟨.waits hlt, .inl hlt⟩
  · cases hv
    exact ⟨.refuses _ _, .inl hlt⟩
  · cases hv
    exact ⟨.refuses _ _, .inr (.inl hprobe)⟩
  · obtain ⟨hj, hf⟩ := h.judged_transfer (Nat.min_le_right _ _) ho hv
    by_cases hfails : op.kind.Fails o
    · exact ⟨hj, .inr (.inr (.inl hfails))⟩
    · exact ⟨hj, .inr (.inr (.inr (hf hfails)))⟩

theorem judged_enter (ho : o.Lossless op.kind) (hv : k.enter op o = some v) : k.Judged op v := by
  have hbounded (hv : k.bounded op o = some v) : k.Judged op v := by
    simp only [bounded] at hv
    split_ifs at hv
    · cases hv
      exact .refuses _ _
    · exact (h.judged_test ho hv).1
    · cases hv
      exact .refuses _ _
  obtain ⟨kind, mode, wanted⟩ := op
  cases kind with
  | read => exact hbounded hv
  | write => exact hbounded hv
  | getbytes =>
    change k.checked _ o = some v at hv
    simp only [checked] at hv
    split_ifs at hv
    · exact (h.judged_test ho hv).1
    · cases hv
      exact .refuses _ _
  | putbytes => exact (h.judged_test ho hv).1

theorem judged_resume {i : Bool} (ho : o.Lossless op.kind) (hv : k.resume op i o = some v) :
    k.Judged op v ∧ (k.Fruitless op i o ∨ ∃ code num n, v = k.finish op.cond code num n) := by
  simp only [resume, checked] at hv
  split_ifs at hv with hi he
  · cases hv
    exact ⟨.refuses _ _, .inl (.inl hi)⟩
  · obtain ⟨hj, hf⟩ := h.judged_test ho hv
    refine ⟨hj, ?_⟩
    rcases hf with hf | hf | hf | hf
    · exact .inl (.inr (.inr (.inl hf)))
    · exact .inl (.inr (.inr (.inr (.inl hf))))
    · exact .inl (.inr (.inr (.inr (.inr hf))))
    · exact .inr hf
  · cases hv
    exact ⟨.refuses _ _, .inl (.inr (.inl he))⟩

end

end Valid

end Counts

end MachUS.Io
