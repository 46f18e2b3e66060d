import MachUS.Foundation.Transition
import MachUS.Io.Writes

namespace MachUS.Io

open Stream List

inductive Call where
  | read (mode : UInt32) (num : ℕ)
  | write (mode : UInt32) (buf : List UInt8)

namespace Call

def mode : Call → UInt32
  | read mode _ => mode
  | write mode _ => mode

def enter (s : Stream) (malloc : Malloc) : Call → Except Fault Progress
  | read mode num => s.ioReadSeq mode num
  | write mode buf => s.ioWriteSeq malloc mode buf

def resume (s : Stream) (malloc : Malloc) (interrupted : Bool) : Call → Except Fault Progress
  | read mode num => s.readWoken mode num interrupted
  | write mode buf => s.writeWoken malloc mode buf interrupted

def moved (c : Call) (ret : Return) : ℕ :=
  if ret.code = .success ∧ c.mode &&& iomProbe = 0 then ret.num else 0

def fetched : Call → Return → List UInt8
  | read _ _, ret => ret.buf
  | write _ _, _ => []

def accepted : Call → Return → List UInt8
  | read _ _, _ => []
  | write mode buf, ret => buf.take ((write mode buf).moved ret)

end Call

structure Moves (c : Call) (ret : Return) (q q' : List UInt8) : Prop where
  order : c.fetched ret ++ q' = q ++ c.accepted ret
  count : (c.fetched ret).length + (c.accepted ret).length = c.moved ret

structure Sound (s : Stream) (front back : List Cell) : Prop where
  queue : Queue s front back
  limits : Limits s
  used : s.qused ≤ s.qmax
  free : s.qfree ≤ s.qHwm
  offset : s.writeOffset.value = (s.readOffset.value + s.qused) % 2 ^ 64
  alarms : ∀ a ∈ s.alarms, a = .allocBlock

def Advances (c : Call) (q : List UInt8) (r : Except Fault Progress) : Prop :=
  r = .ok .waits ∨ ∃ ret s' front back, r = .ok (.returns ret s') ∧ Sound s' front back ∧
    Moves c ret q (contents (front ++ back))

namespace Sound

variable {s : Stream} {front back : List Cell}

section

variable (h : Sound s front back)

include h

theorem refuses (c : Call) {code : Code} (num : ℕ) (hcode : code ≠ .success) :
    Advances c (contents (front ++ back)) (pure (s.refuses code num)) := by
  have hmoved : c.moved ⟨code, num, none, []⟩ = 0 := if_neg fun hc => hcode hc.1
  refine Or.inr ⟨_, s, front, back, rfl, h, ?_⟩
  cases c with
  | read mode num => exact ⟨(append_nil _).symm, hmoved.symm⟩
  | write mode buf =>
    have hacc : (Call.write mode buf).accepted ⟨code, num, none, []⟩ = [] := by
      rw [Call.accepted, hmoved, take_zero]
    exact ⟨by rw [hacc, append_nil]; rfl, by rw [hacc, hmoved]; rfl⟩

theorem readReady (mode : UInt32) (num : ℕ) :
    Advances (.read mode num) (contents (front ++ back)) (s.readReady mode num) := by
  have hbound := h.limits.bound
  have hused := h.used
  rw [Stream.readReady]
  by_cases hprobe : mode &&& iomProbe ≠ 0
  · simp only [if_pos hprobe]
    refine Or.inr ⟨_, s, front, back, rfl, h, (append_nil _).symm, ?_⟩
    exact (if_neg fun hc => hprobe hc.2).symm
  · simp only [if_neg hprobe]
    set k := min num s.qused with hk
    obtain ⟨heap, r, w, f, front', back', hloop, hqueue, hf, hc⟩ := Queue.read_loop (2 ^ 32) []
      h.queue h.limits h.free (by omega) (by omega) (min_le_right _ _)
    have hoff := h.offset
    have hadd : (s.readOffset.addLong k).value = (s.readOffset.value + k) % 2 ^ 64 :=
      Dlong.value_addLong _ (by omega)
    have hlen : ((contents (front ++ back)).take k).length = k := by
      rw [length_take, contents_length, ← h.queue.used]
      omega
    rw [hloop, Outcome.ok_bind, nil_append]
    refine Or.inr ⟨_, _, front', back', rfl, ⟨⟨hqueue.linked, hqueue.shape, hqueue.used,
      hqueue.free⟩, ⟨h.limits.size, h.limits.mark, h.limits.bound⟩, ?_, hf, ?_, h.alarms⟩, ?_, ?_⟩
    · exact (Nat.sub_le _ _).trans hused
    · simp only [relink, hadd]
      omega
    · rw [hc]
      exact (take_append_drop _ _).trans (append_nil _).symm
    · refine hlen.trans (if_pos ⟨rfl, not_not.mp hprobe⟩).symm

theorem readWait (mode : UInt32) (num : ℕ) :
    Advances (.read mode num) (contents (front ++ back)) (s.readWait mode num) := by
  rw [Stream.readWait]
  split_ifs
  · exact h.refuses _ num (by decide)
  · exact Or.inl rfl
  · exact h.refuses _ num (by decide)
  · exact h.readReady mode num

theorem writeReady {malloc : Malloc} (hfresh : Fresh s.heap malloc)
    (mode : UInt32) (buf : List UInt8) :
    Advances (.write mode buf) (contents (front ++ back)) (s.writeReady malloc mode buf) := by
  have hbound := h.limits.bound
  have hmark := h.limits.mark
  have hused := h.used
  rw [Stream.writeReady]
  by_cases hprobe : mode &&& iomProbe ≠ 0
  · simp only [if_pos hprobe]
    refine Or.inr ⟨_, s, front, back, rfl, h, ?_, ?_⟩ <;>
      simp [Call.fetched, Call.accepted, Call.moved, Call.mode, hprobe]
  · simp only [if_neg hprobe]
    rw [Word.sub_of_le hused (by omega)]
    set k := min buf.length (s.qmax - s.qused) with hk
    rcases h.queue.writeBlocks h.limits k hfresh (by omega) h.free with
      hfail | ⟨heap, r, w, f, back₁, hblocks, hqueue₁, hkf, hf, hc₁⟩
    · rw [hfail, Outcome.ok_bind]
      refine Or.inr ⟨_, _, front, back, rfl, ⟨⟨h.queue.linked, h.queue.shape, h.queue.used,
        h.queue.free⟩, ⟨h.limits.size, h.limits.mark, h.limits.bound⟩, hused, h.free, h.offset,
        ?_⟩, ?_, ?_⟩
      · intro a ha
        rcases mem_append.mp ha with ha | ha
        · exact h.alarms a ha
        · exact mem_singleton.mp ha
      · simp [Call.fetched, Call.accepted, Call.moved]
      · simp [Call.fetched, Call.accepted, Call.moved]
    · have hlen : (buf.take k).length = k := by
        rw [length_take]
        omega
      obtain ⟨heap', w', front', back', hcopy, hqueue, hc⟩ := hqueue₁.copyToBlks
        (buf.take k) (hlen.trans_le hkf) (show f < 2 ^ 32 by omega)
        (show s.qused + (buf.take k).length < 2 ^ 32 by omega)
      have hoff := h.offset
      have hadd : (s.writeOffset.addLong k).value = (s.writeOffset.value + k) % 2 ^ 64 :=
        Dlong.value_addLong _ (by omega)
      rw [hblocks, Outcome.ok_bind]
      simp only [if_true, hcopy, Outcome.ok_bind]
      rw [hlen] at hqueue
      have hmoved : (Call.write mode buf).moved
          ⟨.success, k, some s.writeOffset, []⟩ = k := if_pos ⟨rfl, not_not.mp hprobe⟩
      refine Or.inr ⟨_, _, front', back', rfl, ⟨⟨hqueue.linked, hqueue.shape, ?_, ?_⟩,
        ⟨h.limits.size, h.limits.mark, h.limits.bound⟩, ?_, ?_, ?_, h.alarms⟩, ?_, ?_⟩
      · rw [hlen]
        exact hqueue.used
      · rw [hlen]
        exact hqueue.free
      · show s.qused + (buf.take k).length ≤ s.qmax
        omega
      · exact (Nat.sub_le _ _).trans hf
      · simp only [relink, hadd, hlen]
        omega
      · rw [hc, hc₁, Call.accepted, hmoved]
        rfl
      · rw [Call.accepted, hmoved, hlen]
        exact Nat.zero_add k

theorem writeWait {malloc : Malloc} (hfresh : Fresh s.heap malloc)
    (mode : UInt32) (buf : List UInt8) :
    Advances (.write mode buf) (contents (front ++ back)) (s.writeWait malloc mode buf) := by
  rw [Stream.writeWait]
  split_ifs
  · exact h.refuses _ buf.length (by decide)
  · exact Or.inl rfl
  · exact h.refuses _ buf.length (by decide)
  · exact h.writeReady hfresh mode buf

theorem enter {malloc : Malloc} (hfresh : Fresh s.heap malloc)
    (c : Call) : Advances c (contents (front ++ back)) (c.enter s malloc) := by
  cases c with
  | read mode num =>
    simp only [Call.enter, ioReadSeq]
    split_ifs
    · exact h.refuses _ num (by decide)
    · exact h.refuses _ num (by decide)
    · exact h.refuses _ num (by decide)
    · exact h.readWait mode num
  | write mode buf =>
    simp only [Call.enter, ioWriteSeq]
    split_ifs
    · exact h.refuses _ buf.length (by decide)
    · exact h.refuses _ buf.length (by decide)
    · exact h.refuses _ buf.length (by decide)
    · exact h.writeWait hfresh mode buf

theorem resume {malloc : Malloc} (hfresh : Fresh s.heap malloc) (interrupted : Bool) (c : Call) :
    Advances c (contents (front ++ back)) (c.resume s malloc interrupted) := by
  cases c with
  | read mode num =>
    simp only [Call.resume, readWoken]
    split_ifs
    · exact h.refuses _ num (by decide)
    · exact h.refuses _ num (by decide)
    · exact h.readWait mode num
  | write mode buf =>
    simp only [Call.resume, writeWoken]
    split_ifs
    · exact h.refuses _ buf.length (by decide)
    · exact h.refuses _ buf.length (by decide)
    · exact h.writeWait hfresh mode buf

end

end Sound

end MachUS.Io

namespace MachUS.Io

open Chain Relation Transition

abbrev Thread := ℕ

structure System where
  stream : Stream
  waiting : Thread → Option Call
  log : List (Call × Return)
  trap : Option Fault

inductive Event where
  | call (t : Thread) (c : Call) (malloc : Malloc)
  | wake (t : Thread) (interrupted : Bool) (malloc : Malloc)
  | flush
  | setReadStrategy (strategy : UInt32)
  | setWriteStrategy (strategy : UInt32)

namespace System

def boot (qsize : ℕ) (readstrat writestrat : UInt32) : System :=
  ⟨Stream.create qsize readstrat writestrat, fun _ => none, [], none⟩

def settle (x : System) (t : Thread) (c : Call) : Except Fault Progress → System
  | .error fault => { x with trap := some fault }
  | .ok .waits => { x with waiting := Function.update x.waiting t (some c) }
  | .ok (.returns ret s) =>
    { x with
      stream := s
      waiting := Function.update x.waiting t none
      log := x.log ++ [(c, ret)] }

def move (x : System) : Event → Option System
  | .call t c malloc =>
    match x.waiting t with
    | none => some (x.settle t c (c.enter x.stream malloc))
    | some _ => none
  | .wake t interrupted malloc =>
    match x.waiting t with
    | none => none
    | some c => some (x.settle t c (c.resume x.stream malloc interrupted))
  | .flush =>
    match x.stream.ioFlushStream with
    | .ok (_, s) => some { x with stream := s, log := [] }
    | .error fault => some { x with trap := some fault }
  | .setReadStrategy strategy =>
    some { x with stream := (x.stream.ioSetReadStrategy strategy).2 }
  | .setWriteStrategy strategy =>
    some { x with stream := (x.stream.ioSetWriteStrategy strategy).2 }

def next (x : System) (e : Event) : Option System := if x.trap = none then x.move e else none

def Grants (x : System) : Event → Prop
  | .call _ _ malloc => Fresh x.stream.heap malloc
  | .wake _ _ malloc => Fresh x.stream.heap malloc
  | _ => True

def fetched (log : List (Call × Return)) : List UInt8 := log.flatMap fun e => e.1.fetched e.2

def accepted (log : List (Call × Return)) : List UInt8 := log.flatMap fun e => e.1.accepted e.2

structure Inv (x : System) : Prop where
  trap : x.trap = none
  sound : ∃ front back, Sound x.stream front back ∧
    fetched x.log ++ contents (front ++ back) = accepted x.log
  counts : ∀ e ∈ x.log, (e.1.fetched e.2).length + (e.1.accepted e.2).length = e.1.moved e.2

theorem boot_inv {qsize : ℕ} (hq : qsize < 2 ^ 30) (rs ws : UInt32) : (boot qsize rs ws).Inv where
  trap := rfl
  sound := ⟨[], [], ⟨queue_nil rfl rfl rfl rfl, ⟨rfl, rfl, hq⟩, Nat.zero_le _, Nat.zero_le _,
    by simp [boot, Stream.create, Dlong.zero, Dlong.value], by simp [boot, Stream.create]⟩, rfl⟩
  counts := by simp [boot]

namespace Inv

variable {x : System}

theorem settle (h : x.Inv) (t : Thread) {c : Call} {r : Except Fault Progress}
    (hr : ∀ front back, Sound x.stream front back → Advances c (contents (front ++ back)) r) :
    (x.settle t c r).Inv := by
  obtain ⟨front, back, hsound, hlog⟩ := h.sound
  rcases hr front back hsound with rfl | ⟨ret, s', front', back', rfl, hsound', hmoves⟩
  · exact ⟨h.trap, ⟨front, back, hsound, hlog⟩, h.counts⟩
  · refine ⟨h.trap, ⟨front', back', hsound', ?_⟩, ?_⟩
    · simp only [System.settle, fetched, accepted, List.flatMap_append, List.flatMap_singleton]
      rw [List.append_assoc, hmoves.order, ← List.append_assoc]
      exact congrArg (· ++ c.accepted ret) hlog
    · intro e he
      rcases List.mem_append.mp he with he | he
      · exact h.counts e he
      · obtain rfl := List.mem_singleton.mp he
        exact hmoves.count

theorem restrategy (h : x.Inv) {s : Stream} (hs : ∃ rs ws, s =
    { x.stream with readStrategy := rs, writeStrategy := ws }) :
    ({ x with stream := s } : System).Inv := by
  obtain ⟨front, back, hsound, hlog⟩ := h.sound
  obtain ⟨rs, ws, rfl⟩ := hs
  exact ⟨h.trap, ⟨front, back, ⟨⟨hsound.queue.linked, hsound.queue.shape, hsound.queue.used,
    hsound.queue.free⟩, ⟨hsound.limits.size, hsound.limits.mark, hsound.limits.bound⟩,
    hsound.used, hsound.free, hsound.offset, hsound.alarms⟩, hlog⟩, h.counts⟩

theorem flush (h : x.Inv) {s : Stream} {code : Code}
    (hs : x.stream.ioFlushStream = .ok (code, s)) : ({ x with stream := s, log := [] } : System).Inv := by
  obtain ⟨front, back, hsound, -⟩ := h.sound
  obtain ⟨heap, hflush⟩ := hsound.queue.flush
  rw [hflush] at hs
  cases Except.ok.inj hs
  have hlt := x.stream.writeOffset.value_lt
  refine ⟨h.trap, ⟨[], [], ⟨queue_nil rfl rfl rfl rfl, ⟨hsound.limits.size, hsound.limits.mark,
    hsound.limits.bound⟩, Nat.zero_le _, Nat.zero_le _, ?_, hsound.alarms⟩, rfl⟩, by simp⟩
  simp only [Stream.relink, Nat.add_zero]
  exact (Nat.mod_eq_of_lt hlt).symm

theorem next (h : x.Inv) {e : Event} {y : System} (he : Grants x e) (hy : x.next e = some y) :
    y.Inv := by
  rw [System.next, if_pos h.trap] at hy
  cases e with
  | call t c malloc =>
    simp only [move] at hy
    split at hy
    · cases hy
      exact h.settle t fun _ _ hs => hs.enter he c
    · cases hy
  | wake t interrupted malloc =>
    simp only [move] at hy
    split at hy
    · cases hy
    · cases hy
      exact h.settle t fun _ _ hs => hs.resume he interrupted _
  | flush =>
    obtain ⟨front, back, hsound, -⟩ := h.sound
    obtain ⟨heap, hflush⟩ := hsound.queue.flush
    simp only [move, hflush] at hy
    cases hy
    exact h.flush hflush
  | setReadStrategy strategy =>
    cases hy
    apply h.restrategy
    rw [Stream.ioSetReadStrategy]
    split_ifs
    · exact ⟨x.stream.readStrategy, x.stream.writeStrategy, rfl⟩
    · exact ⟨strategy, x.stream.writeStrategy, rfl⟩
  | setWriteStrategy strategy =>
    cases hy
    apply h.restrategy
    rw [Stream.ioSetWriteStrategy]
    split_ifs
    · exact ⟨x.stream.readStrategy, x.stream.writeStrategy, rfl⟩
    · exact ⟨x.stream.readStrategy, strategy, rfl⟩

end Inv

theorem run_inv {qsize : ℕ} (hq : qsize < 2 ^ 30) {rs ws : UInt32} {x : System}
    (hrun : ReflTransGen (Under next Grants) (boot qsize rs ws) x) : x.Inv :=
  invariant (fun _ _ _ hx he hy => hx.next he hy) hrun (boot_inv hq rs ws)

end System

structure Represented (s : Stream) : Prop where
  chain : ∃ front back, Along Block.next s.heap s.readblk front s.writeblk ∧
    Along Block.next s.heap s.writeblk back none ∧
    s.qused = used (front ++ back) ∧ s.qfree = room back ∧ ∀ x ∈ back.tail, x.2.cursize = 0
  ends : s.readblk = none ↔ s.writeblk = none
  used : s.qused ≤ s.qmax
  free : s.qfree ≤ s.qHwm
  offset : (s.writeOffset.value : ℤ) - s.readOffset.value ≡ s.qused [ZMOD 2 ^ 64]

theorem Sound.represented {s : Stream} {front back : List Cell} (h : Sound s front back) :
    Represented s where
  chain := by
    have hsh := h.queue.shape
    refine ⟨front, back, h.queue.linked.upTo, h.queue.linked.onward, h.queue.used, h.queue.free,
      fun x hx => ?_⟩
    have hmem : x ∈ front ++ back := List.mem_append_right _ (List.mem_of_mem_tail hx)
    exact (hsh.sized x hmem).cursize_blank (hsh.rest x hx)
  ends := h.queue.linked.read_eq h.queue.shape.held
  used := h.used
  free := h.free
  offset := by
    have hoff := h.offset
    rw [Int.ModEq]
    omega

namespace Sample

def malloc : Malloc := fun i => if i = 0 then some (100, fun _ => 0) else none

def exchange : List Event :=
  [.call 1 (.write 0 [7, 8, 9]) malloc, .call 2 (.read iomTruncate 2) fun _ => none,
    .setReadStrategy 1]

theorem exchange_grants : Admits System.next System.Grants (System.boot 4 3 3) exchange :=
  ⟨fun _ _ _ _ => rfl, fun _ _ => ⟨fun _ _ _ h => (nomatch h), fun _ _ =>
    ⟨trivial, fun _ _ => trivial⟩⟩⟩

theorem exchange_run (test : System → Bool)
    (h : check System.next (System.boot 4 3 3) exchange test = true) :
    ∃ x, ReflTransGen (Under System.next System.Grants) (System.boot 4 3 3) x ∧ test x = true := by
  obtain ⟨x, hx, ht⟩ := exec_of_check h
  exact ⟨x, run_of_exec exchange_grants hx, ht⟩

end Sample

theorem byte_queue_represented (qsize : ℕ) (hq : qsize < 2 ^ 30) (rs ws : UInt32) (x : System)
    (hrun : ReflTransGen (Under System.next System.Grants) (System.boot qsize rs ws) x) :
    Represented x.stream ∧ x.trap = none ∧ ∀ a ∈ x.stream.alarms, a = .allocBlock := by
  have hinv := System.run_inv hq hrun
  obtain ⟨front, back, hsound, -⟩ := hinv.sound
  exact ⟨hsound.represented, hinv.trap, hsound.alarms⟩

theorem byte_queue_represented_exchange : ∃ x : System, x.stream.qused = 1 ∧ x.stream.qfree = 1 ∧
    Represented x.stream ∧ x.trap = none ∧ ∀ a ∈ x.stream.alarms, a = .allocBlock := by
  obtain ⟨x, hrun, htest⟩ := Sample.exchange_run
    (fun x => decide (x.stream.qused = 1) && decide (x.stream.qfree = 1)) (by decide +kernel)
  rw [Bool.and_eq_true, decide_eq_true_eq, decide_eq_true_eq] at htest
  exact ⟨x, htest.1, htest.2, byte_queue_represented 4 (by decide) 3 3 x hrun⟩

theorem byte_stream_fifo (qsize : ℕ) (hq : qsize < 2 ^ 30) (rs ws : UInt32) (x : System)
    (hrun : ReflTransGen (Under System.next System.Grants) (System.boot qsize rs ws) x) :
    (∃ blocks, Along Block.next x.stream.heap x.stream.readblk blocks none ∧
      System.fetched x.log ++ contents blocks = System.accepted x.log) ∧
    ∀ e ∈ x.log, (e.1.fetched e.2).length + (e.1.accepted e.2).length = e.1.moved e.2 := by
  have hinv := System.run_inv hq hrun
  obtain ⟨front, back, hsound, hlog⟩ := hinv.sound
  exact ⟨⟨front ++ back, hsound.queue.linked.upTo.append hsound.queue.linked.onward, hlog⟩,
    hinv.counts⟩

theorem byte_stream_fifo_exchange : ∃ x : System, System.fetched x.log = [7, 8] ∧
    (∃ blocks, Along Block.next x.stream.heap x.stream.readblk blocks none ∧
      System.fetched x.log ++ contents blocks = System.accepted x.log) ∧
    ∀ e ∈ x.log, (e.1.fetched e.2).length + (e.1.accepted e.2).length = e.1.moved e.2 := by
  obtain ⟨x, hrun, htest⟩ := Sample.exchange_run
    (fun x => decide (System.fetched x.log = [7, 8])) (by decide +kernel)
  rw [decide_eq_true_eq] at htest
  exact ⟨x, htest, byte_stream_fifo 4 (by decide) 3 3 x hrun⟩

def System.reported (log : List (Call × Return)) : List UInt8 :=
  log.flatMap fun e =>
    match e with
    | (.write _ buf, ret) => if ret.code = .success then buf.take ret.num else []
    | (.read _ _, _) => []

theorem probe_reports_unmoved : ∃ x : System,
    ReflTransGen (Under System.next System.Grants) (System.boot 4 3 3) x ∧
    ¬∃ blocks, Along Block.next x.stream.heap x.stream.readblk blocks none ∧
      System.fetched x.log ++ contents blocks = System.reported x.log := by
  have h : check System.next (System.boot 4 3 3)
      [.call 1 (.write iomProbe [7]) fun _ => none] (fun x =>
      decide (x.stream.readblk = none) && decide (System.fetched x.log ≠ System.reported x.log)) =
      true := by
    decide +kernel
  obtain ⟨x, hx, ht⟩ := exec_of_check h
  rw [Bool.and_eq_true, decide_eq_true_eq, decide_eq_true_eq] at ht
  have hadmits : Admits System.next System.Grants (System.boot 4 3 3)
      [.call 1 (.write iomProbe [7]) fun _ => none] :=
    ⟨fun _ _ _ hm => (nomatch hm), fun _ _ => trivial⟩
  refine ⟨x, run_of_exec hadmits hx, ?_⟩
  rintro ⟨blocks, hchain, hlog⟩
  obtain rfl := hchain.eq_none.mp ht.1
  rw [contents_nil, List.append_nil] at hlog
  exact ht.2 hlog

end MachUS.Io
