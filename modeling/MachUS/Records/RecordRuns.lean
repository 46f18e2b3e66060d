import MachUS.Foundation.Transition
import MachUS.Records.RecordSteps

namespace MachUS.Records

open Chain Relation Function Transition System RecordStream Option List
open Io (Addr iomProbe)
open Io.Stream (invalidMode)

variable {ι : Type} (ops : RecinfoOps ι)

structure Inv (x : System ι) : Prop where
  sound : ∃ l, Sound ops x l
  holds : ∀ t p, x.waiting t = some p → x.Holds t p
  trap : ∀ fault ∈ x.trap, fault = .noBlock

variable {ops} {x y : System ι} {t : Thread} {l : List (Node ι)}

theorem boot_inv (qsize rs ws : UInt32) (infosize : ℕ) : Inv ops (boot qsize rs ws infosize) where
  sound := by
    refine ⟨[], ⟨rfl, rfl, rfl, Nat.zero_le _, qsize.toNat_lt, ?_⟩, fun _ ha => (nomatch ha),
      [], .nil, rfl⟩
    simp [boot, create, Io.Dlong.zero, Io.Dlong.value]
  holds := fun _ _ hp => nomatch hp
  trap := fun _ hf => nomatch hf

theorem Advances.inv (h : Advances ops t x y) (hx : Inv ops x) : Inv ops y where
  sound := h.sound
  holds u p hp := by
    rcases eq_or_ne u t with rfl | hu
    · exact h.holds p hp
    · have hsame := h.others u hu
      exact hsame.holds (hx.holds u p (hsame.waiting ▸ hp))
  trap := h.trap ▸ hx.trap

def Extends (heap heap' : Heap ι) : Prop := ∀ a, heap a ≠ none → heap' a = heap a

theorem update_extends {heap : Heap ι} {a : Addr} (ha : heap a = none) (r r' : Option (Record ι)) :
    Extends heap (update (update heap a r) a r') := by
  intro b hb
  have hne : b ≠ a := by
    rintro rfl
    exact hb ha
  rw [update_of_ne hne, update_of_ne hne]

inductive Write1Step (s : RecordStream ι) : Except Fault (Write1 ι) → Prop
  | faults : Write1Step s (.error .noBlock)
  | returns (code : Code) (heap' : Heap ι) : Extends s.heap heap' →
      Write1Step s (.ok (.returns code { s with heap := heap' }))
  | putrec (rec : Option Addr) (heap' : Heap ι) : Extends s.heap heap' →
      (∀ a ∈ rec, s.heap a = none ∧ ∃ r : Record ι, heap' a = some r ∧ r.next = none) →
      Write1Step s (.ok (.putrec rec { s with heap := heap' }))

theorem write1Step (ops : RecinfoOps ι) (s : RecordStream ι) (mode : UInt32) (buf : List UInt8)
    (recinfo : Option ι) {malloc : Option Addr} (hfresh : ∀ a ∈ malloc, s.heap a = none) :
    Write1Step s (s.ioWrite1recSeqWithInfo ops mode buf recinfo malloc) := by
  unfold ioWrite1recSeqWithInfo
  split_ifs with hmode hprobe
  · exact .returns _ s.heap fun _ _ => rfl
  · rcases malloc with _ | a
    · exact .returns _ s.heap fun _ _ => rfl
    · have ha := hfresh a rfl
      dsimp only
      split_ifs with hsize
      · exact .returns _ _ (update_extends ha _ _)
      · simp only [fillRecord, ioAllocRecord, load_eq (update_self _ _ _), Outcome.ok_bind]
        by_cases hbuf : 0 < buf.length
        · simp only [if_pos hbuf]
          refine .putrec (some a) _ (update_extends ha _ _) fun b hb => ?_
          cases hb
          exact ⟨ha, _, update_self _ _ _, rfl⟩
        · simp only [if_neg hbuf]
          exact .faults
  · exact .putrec none s.heap (fun _ _ => rfl) fun _ ha => nomatch ha

namespace Sound

section

variable (h : Sound ops x l)

include h

theorem extend {heap' : Heap ι} (hheap : Extends x.stream.heap heap')
    {o : Addr → Option Thread} (howner : ∀ a ∈ keys l, o a = x.owner a) :
    Sound ops { x with stream := { x.stream with heap := heap' }, owner := o } l :=
  h.congr (fun a ha => hheap a fun hnone => h.queue.chain.fresh hnone ha) x.stream.readStrategy
    x.stream.writeStrategy rfl howner rfl rfl

theorem enter {p : Pending ι} (hp : x.Holds t p) (stray : Option Addr)
    (hsome : ¬invalidMode p.mode → ¬p.MovesNothing x.stream) :
    Advances ops t x (x.settle t p (p.enter ops x.stream stray)) :=
  h.settle hp (Pending.enter_attempts h.queue hsome)

theorem write1rec (hidle : x.waiting t = none) (stray : Option Addr)
    {mode : UInt32} {r : Except Fault (Write1 ι)} (hr : Write1Step x.stream r) :
    x.begin ops t stray (Call.proceed mode r) = { x with trap := some .noBlock } ∨
      Advances ops t x (x.begin ops t stray (Call.proceed mode r)) := by
  have hone (rec : Option Addr) (s : RecordStream ι) :
      ¬(Pending.put mode rec 1 true).MovesNothing s := fun hm => Nat.one_ne_zero hm.1
  cases hr with
  | faults => exact Or.inl rfl
  | returns code heap' hext =>
    refine Or.inr ⟨⟨l, h.extend hext fun _ _ => rfl⟩,
      fun u _ => ⟨rfl, fun _ _ ha => ha, fun a hne _ => hext a hne⟩, fun p hp => ?_, rfl⟩
    cases hidle.symm.trans hp
  | putrec rec heap' hext hrec =>
    set x₁ : System ι :=
      { x with stream := { x.stream with heap := heap' } }.assign rec.toList (some t) with hx₁
    have hnew (b : Addr) (hb : x.stream.heap b ≠ none) : b ∉ rec.toList := fun hmem =>
      hb (hrec b (mem_toList.mp hmem)).1
    have hsound : Sound ops x₁ l := h.extend hext fun b hb =>
      if_neg (hnew b fun hnone => h.queue.chain.fresh hnone hb)
    have hlisted : x₁.Listed t rec := by
      cases rec with
      | none => exact ⟨[], rfl, fun _ ha => nomatch ha⟩
      | some a =>
        obtain ⟨-, r, hr, hnext⟩ := hrec a rfl
        exact ⟨[(a, r)], ⟨rfl, hr, hnext⟩, fun b hb => if_pos hb⟩
    have hadv := hsound.enter (p := .put mode rec 1 true) (fun _ => hlisted) stray fun _ => hone _ _
    refine Or.inr ⟨hadv.sound, fun u hu => ?_, hadv.holds, hadv.trap⟩
    have hfirst : Same u x x₁ :=
      ⟨rfl, fun b hb ho => (if_neg (hnew b hb)).trans ho, fun b hb _ => hext b hb⟩
    exact hfirst.trans (hadv.others u hu)

theorem work (hidle : x.waiting t = none) {a : Addr} {o : Option Thread}
    {heap' : Heap ι} (ha : x.owner a = some t ∨ x.stream.heap a = none)
    (hheap : ∀ b ≠ a, heap' b = x.stream.heap b) :
    Advances ops t x { x.assign [a] o with stream := { x.stream with heap := heap' } } := by
  have hkeys (b : Addr) (hb : b ∈ keys l) : b ≠ a := by
    rintro rfl
    rcases ha with ha | ha
    · exact h.notMem_of_owner ha hb
    · exact h.queue.chain.fresh ha hb
  refine ⟨⟨l, h.congr (fun b hb => hheap b (hkeys b hb)) x.stream.readStrategy
    x.stream.writeStrategy rfl (fun b hb => if_neg ?_) rfl rfl⟩, fun u hu => ?_, fun p hp => ?_, rfl⟩
  · exact fun hmem => hkeys b hb (mem_singleton.mp hmem)
  · have hne (b : Addr) (hb : x.stream.heap b ≠ none) (ho : x.owner b = some u) : b ≠ a := by
      rintro rfl
      rcases ha with ha | ha
      · exact hu (some.inj (ho.symm.trans ha))
      · exact hb ha
    refine ⟨rfl, fun b hb ho => (if_neg ?_).trans ho, fun b hb ho => hheap b (hne b hb ho)⟩
    exact fun hmem => hne b hb ho (mem_singleton.mp hmem)
  · cases hidle.symm.trans hp

theorem flush {s : RecordStream ι} {code : Code} (hs : x.stream.ioFlushStream = .ok (code, s)) :
    Sound ops { x with
      stream := s
      delivered := x.delivered ++ replicate x.stream.qused .flushed } [] ∧
    ∀ a ∉ keys l, s.heap a = x.stream.heap a := by
  obtain ⟨s', hflush, hqueue, hframe⟩ := h.queue.flush
  cases Except.ok.inj (hflush.symm.trans hs)
  have hl : l = l ++ [] := (append_nil l).symm
  refine ⟨⟨hqueue, fun _ ha => (nomatch ha), h.delivers hl ?_⟩, hframe⟩
  rw [h.queue.count]
  clear * -
  induction l with
  | nil => exact .nil
  | cons z l ih => exact .cons trivial ih

end

end Sound

theorem Inv.restrategy (hx : Inv ops x) {rs ws : UInt32} :
    Inv ops { x with stream := { x.stream with readStrategy := rs, writeStrategy := ws } } := by
  obtain ⟨l, h⟩ := hx.sound
  refine ⟨⟨l, h.congr (fun _ _ => rfl) rs ws rfl (fun _ _ => rfl) rfl rfl⟩, fun u p hp => ?_, hx.trap⟩
  have hsame : Same u x
      { x with stream := { x.stream with readStrategy := rs, writeStrategy := ws } } :=
    ⟨rfl, fun _ _ ha => ha, fun _ _ _ => rfl⟩
  exact hsame.holds (hx.holds u p hp)

theorem Inv.call (hx : Inv ops x) (hidle : x.waiting t = none) {c : Call ι}
    {malloc stray : Option Addr} (hgrants : x.Grants (.call t c malloc stray))
    (hcounted : x.Counted (.call t c malloc stray)) :
    Inv ops (x.begin ops t stray (c.start ops x.stream malloc)) := by
  obtain ⟨l, h⟩ := hx.sound
  cases c with
  | getrec mode count => exact (h.enter (p := .get mode count) trivial stray hcounted).inv hx
  | putrec mode rec count =>
    refine (h.enter (p := .put mode rec count false) (fun hmode => ?_) stray hcounted).inv hx
    exact hgrants.2 mode rec count rfl (hmode.resolve_right Bool.false_ne_true)
  | read1rec mode len recinfo =>
    exact (h.enter (p := .read mode len recinfo) trivial stray fun _ => not_false).inv hx
  | write1rec mode buf recinfo =>
    rcases h.write1rec hidle stray (write1Step ops x.stream mode buf recinfo hgrants.1)
      with hfault | hadv
    · rw [Call.start, hfault]
      refine ⟨⟨l, h.queue, h.apart, h.order⟩, hx.holds, fun fault hf => ?_⟩
      exact (some.inj hf).symm
    · exact hadv.inv hx

theorem Inv.next (hx : Inv ops x) {e : Event ι} (hgrants : x.Grants e) (hcounted : x.Counted e)
    (hy : x.next ops e = some y) : Inv ops y := by
  obtain ⟨l, h⟩ := hx.sound
  rw [System.next] at hy
  split_ifs at hy with htrap
  cases e with
  | call t c malloc stray =>
    simp only [move] at hy
    split at hy
    next hidle =>
      cases hy
      exact hx.call hidle hgrants hcounted
    next => cases hy
  | wake t interrupted stray =>
    simp only [move] at hy
    split at hy
    next => cases hy
    next p hp =>
      cases hy
      have hattempts : p.Attempts ops x.stream stray (p.resume ops x.stream stray interrupted) :=
        Pending.resume_attempts h.queue fun hint => hcounted hint p hp
      exact (h.settle (hx.holds t p hp) hattempts).inv hx
  | flush =>
    obtain ⟨s, hflush, -, -⟩ := h.queue.flush
    simp only [move, hflush] at hy
    cases hy
    obtain ⟨hsound, hheap⟩ := h.flush hflush
    refine ⟨⟨[], hsound⟩, fun u p hp => ?_, hx.trap⟩
    have hsame : Same u x { x with
        stream := s
        delivered := x.delivered ++ replicate x.stream.qused .flushed } :=
      ⟨rfl, fun _ _ ha => ha, fun a _ ha => hheap a (h.notMem_of_owner ha)⟩
    exact hsame.holds (hx.holds u p hp)
  | setReadStrategy strategy =>
    cases hy
    rw [ioSetReadStrategy]
    split_ifs
    · exact hx
    · exact hx.restrategy
  | setWriteStrategy strategy =>
    cases hy
    rw [ioSetWriteStrategy]
    split_ifs
    · exact hx
    · exact hx.restrategy
  | work t a r =>
    simp only [move] at hy
    split_ifs at hy with hwork
    cases hy
    exact (h.work hwork.1 hwork.2 fun b hb => update_of_ne hb _ _).inv hx
  | give t u a =>
    simp only [move] at hy
    split_ifs at hy with hgive
    cases hy
    exact (h.work hgive.1 (Or.inl hgive.2) fun _ _ => rfl).inv hx

theorem run_inv {qsize rs ws : UInt32} {infosize : ℕ}
    (hrun : ReflTransGen (Under (System.next ops) fun x e => x.Grants e ∧ x.Counted e)
      (boot qsize rs ws infosize) x) : Inv ops x :=
  invariant (fun _ _ _ hx he hy => hx.next he.1 he.2 hy) hrun (boot_inv qsize rs ws infosize)

variable (ops) in
structure Represented (x : System ι) (l : List (Node ι)) : Prop where
  chain : Along Record.next x.stream.heap x.stream.firstRecord l none
  count : l.length = x.stream.qused
  bound : x.stream.qused ≤ x.stream.qmax
  last : x.stream.lastRecord = (keys l).getLast?
  empty : x.stream.qused = 0 → x.stream.firstRecord = none ∧ x.stream.lastRecord = none
  recnum : (x.stream.nextRecnum.value : ℤ) - x.stream.firstRecnum.value ≡ x.stream.qused
    [ZMOD 2 ^ 64]
  apart : ∀ a ∈ keys l, x.owner a = none
  order : ∃ gone, Forall₂ (Delivers ops) x.delivered gone ∧ gone ++ contents l = x.written

theorem Sound.represented (h : Sound ops x l) : Represented ops x l where
  chain := h.queue.chain
  count := h.queue.count.symm
  bound := h.queue.bound
  last := h.queue.last
  empty hzero := by
    obtain rfl := length_eq_zero_iff.mp (h.queue.count.symm.trans hzero)
    exact ⟨h.queue.chain, h.queue.last⟩
  recnum := by
    have hrecnum := h.queue.recnum
    rw [Int.ModEq]
    omega
  apart := h.apart
  order := h.order

theorem record_queue_kept (ops : RecinfoOps ι) (qsize rs ws : UInt32) (infosize : ℕ)
    (x : System ι)
    (hrun : ReflTransGen (Under (System.next ops) fun x e => x.Grants e ∧ x.Counted e)
      (boot qsize rs ws infosize) x) :
    (∃ l, Represented ops x l) ∧ ∀ fault ∈ x.trap, fault = .noBlock := by
  have hinv := run_inv hrun
  obtain ⟨l, h⟩ := hinv.sound
  exact ⟨⟨l, h.represented⟩, hinv.trap⟩

namespace Sample

def plain : RecinfoOps Unit := ⟨(), fun _ _ => (), fun _ => 0⟩

def node (byte : UInt8) (next : Option Addr) : Record Unit := ⟨⟨[[byte]], 0, ()⟩, next⟩

def exchange : List (Event Unit) :=
  [.work 1 9 (some (node 6 none)), .work 1 8 (some (node 5 (some 9))),
    .call 1 (.putrec 0 (some 8) 2) none none, .call 2 (.getrec 0 1) none none]

def Linked (x : System Unit) : Prop :=
  x.stream.heap 8 = some (node 5 (some 9)) ∧ x.stream.heap 9 = some (node 6 none) ∧
    x.owner 8 = some 1 ∧ x.owner 9 = some 1

theorem Linked.listed {x : System Unit} (h : Linked x) : x.Listed 1 (some 8) := by
  obtain ⟨h8, h9, ho8, ho9⟩ := h
  refine ⟨[(8, node 5 (some 9)), (9, node 6 none)], ⟨rfl, h8, rfl, h9, rfl⟩, fun a ha => ?_⟩
  rcases mem_pair.mp ha with rfl | rfl
  · exact ho8
  · exact ho9

theorem exchange_admits : Admits (System.next plain)
    (fun x e => x.Grants e ∧ x.Counted e) (boot 4 3 3 0) exchange := by
  refine ⟨⟨trivial, trivial⟩, fun y hy => ⟨⟨trivial, trivial⟩, fun z hz => ⟨?_, fun w hw => ?_⟩⟩⟩
  · have hlinked : Linked z := by
      cases hy
      cases hz
      exact ⟨rfl, rfl, rfl, rfl⟩
    refine ⟨⟨fun _ ha => (nomatch ha), fun mode rec count hc _ => ?_⟩, fun _ hm => ?_⟩
    · obtain ⟨rfl, rfl, rfl⟩ := Call.putrec.inj hc
      exact hlinked.listed
    · exact absurd hm.1 (by decide)
  · refine ⟨⟨⟨fun _ ha => (nomatch ha), fun _ _ _ hc => (nomatch hc)⟩, fun _ hm => ?_⟩,
      fun _ _ => trivial⟩
    exact absurd hm.1 (by decide)

def zeroCount : List (Event Unit) :=
  [.work 1 8 (some (node 5 none)), .call 1 (.putrec 0 (some 8) 0) none (some 8)]

theorem zeroCount_admits : Admits (System.next plain) Grants (boot 4 3 3 0) zeroCount := by
  refine ⟨trivial, fun y hy => ⟨⟨fun _ ha => (nomatch ha), fun mode rec count hc _ => ?_⟩,
    fun _ _ => trivial⟩⟩
  cases hy
  obtain ⟨rfl, rfl, rfl⟩ := Call.putrec.inj hc
  refine ⟨[(8, node 5 none)], ⟨rfl, rfl, rfl⟩, fun a ha => ?_⟩
  obtain rfl := mem_singleton.mp ha
  rfl

end Sample

theorem record_queue_kept_exchange : ∃ x : System Unit, x.stream.qused = 1 ∧
    x.stream.firstRecord = some 9 ∧ x.owner 8 = some 2 ∧
    (∃ l, Represented Sample.plain x l) ∧ ∀ fault ∈ x.trap, fault = .noBlock := by
  have hrun : check (System.next Sample.plain) (boot 4 3 3 0) Sample.exchange
      (fun x => decide (x.stream.qused = 1 ∧ x.stream.firstRecord = some 9 ∧
        x.owner 8 = some 2)) = true := by
    decide +kernel
  obtain ⟨x, hx, htest⟩ := exec_of_check hrun
  obtain ⟨hused, hfirst, howner⟩ := of_decide_eq_true htest
  exact ⟨x, hused, hfirst, howner, record_queue_kept Sample.plain 4 3 3 0 x
    (run_of_exec Sample.exchange_admits hx)⟩

theorem zero_count_breaks_queue : ∃ x : System Unit,
    ReflTransGen (Under (System.next Sample.plain) Grants)
      (boot 4 3 3 0) x ∧ ¬∃ l, Represented Sample.plain x l := by
  have hrun : check (System.next Sample.plain) (boot 4 3 3 0) Sample.zeroCount
      (fun x => decide (x.stream.qused = 0 ∧ x.stream.firstRecord = some 8)) = true := by
    decide +kernel
  obtain ⟨x, hx, htest⟩ := exec_of_check hrun
  obtain ⟨hused, hfirst⟩ := of_decide_eq_true htest
  refine ⟨x, run_of_exec Sample.zeroCount_admits hx, ?_⟩
  rintro ⟨l, h⟩
  have hempty := (h.empty hused).1
  rw [hfirst] at hempty
  cases hempty

end MachUS.Records
