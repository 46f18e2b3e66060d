import MachUS.Foundation.Transition
import MachUS.Mapped.MfWindows

namespace MachUS

namespace Io.Dlong

def ofValue (n : ℕ) : Dlong :=
  ⟨UInt16.ofNat (n / 2 ^ 48), UInt16.ofNat (n / 2 ^ 32), UInt16.ofNat (n / 2 ^ 16), UInt16.ofNat n⟩

end Io.Dlong

namespace Mapped

open Memory
open Io (Dlong)

structure Client where
  ready : Bool
  clone : Bool
  access : Rights
  objSize : Dlong
  sizeGuess : Dlong
  eofWriteAsAppend : Bool

inductive Call where
  | read (start : Dlong) (num : ℕ)
  | write (mode : IoMode) (start : Dlong) (data : List UInt8)
  | append (mode : IoMode) (data : List UInt8)
  | setSize (size : Dlong)
  | getSize

inductive Message where
  | write (mode : IoMode) (start : Dlong) (data : List UInt8)
  | append (mode : IoMode) (data : List UInt8) (instead : Option Dlong)
  | setSize (size : Dlong)
  | getSize

def Message.request : Message → Request
  | write mode start data => .write mode start data
  | append mode data _ => .append mode data
  | setSize size => .setSize size
  | getSize => .getSize

inductive Phase (K : Type) where
  | idle
  | deciding (k : K) (mode : IoMode) (start : Dlong) (data : List UInt8)
  | entering (k : K) (mode : IoMode) (start : Dlong) (data : List UInt8)
  | sent (k : K) (m : Message)
  | answered (k : K) (m : Message) (r : Reply)

structure Wire where
  executed : Bool
  answer : Except ℕ ℕ
  error : Option ℕ

inductive Action (T K : Type) where
  | start (k : K) (access : Rights) (size : Dlong)
  | fork (k child : K)
  | call (t : T) (k : K) (c : Call)
  | act (t : T) (w : Wire)

structure Users (T K : Type) where
  mgr : MfMem
  client : K → Client
  phase : T → Phase K
  returned : List (T × Reply)

namespace Users

variable {T K : Type}

def boot (size : Dlong) (object : Mem) : Users T K where
  mgr := .startMgr size object
  client := fun _ => ⟨false, false, ⟨false, false, false⟩, .zero, .zero, false⟩
  phase := fun _ => .idle
  returned := []

variable [DecidableEq T] [DecidableEq K] (useEof : Bool) (p : PageSize) (x : Users T K)

def amend (k : K) (f : Client → Client) : Users T K :=
  { x with client := Function.update x.client k (f (x.client k)) }

def goes (t : T) (q : Phase K) : Users T K := { x with phase := Function.update x.phase t q }

def back (t : T) (r : Reply) : Users T K := { x.goes t .idle with returned := (t, r) :: x.returned }

def startUser (k : K) (access : Rights) (size : Dlong) : Users T K :=
  if (x.client k).ready then x
  else
    x.amend k fun c =>
      { c with
        ready := true
        access := access
        objSize := size
        sizeGuess := if c.clone then c.sizeGuess else size
        eofWriteAsAppend := if c.clone then c.eofWriteAsAppend else true }

def fork (k child : K) : Option (Users T K) :=
  if (x.client child).ready then none
  else some (x.amend child fun _ => { x.client k with ready := false, clone := true })

-- The copy of io_read from the client's own window is left out.
def call (t : T) (k : K) : Call → Users T K
  | .read start num =>
    if (x.client k).access.read = false then x.back t (.failed .invalidAccess)
    else if 0 < (start.addLong num).cmp (x.client k).objSize then x.goes t (.sent k .getSize)
    else x
  | .write mode start data =>
    if (x.client k).access.write = false then x.back t (.failed .invalidAccess)
    else x.goes t (.deciding k mode start data)
  | .append mode data =>
    if (x.client k).access.write = false then x.back t (.failed .invalidAccess)
    else x.goes t (.sent k (.append mode data none))
  | .setSize size =>
    if (x.client k).access.write = false then x.back t (.failed .invalidAccess)
    else x.goes t (.sent k (.setSize size))
  | .getSize =>
    if (x.client k).access.read = false ∧ (x.client k).access.getattr = false then
      x.back t (.failed .invalidAccess)
    else x.goes t (.sent k .getSize)

def choose (t : T) (k : K) (mode : IoMode) (start : Dlong) (data : List UInt8) : Users T K :=
  if useEof && (x.client k).eofWriteAsAppend && start.cmp (x.client k).sizeGuess = 0 then
    x.goes t (.entering k mode start data)
  else
    (x.amend k fun c => { c with eofWriteAsAppend := false }).goes t (.sent k (.write mode start data))

def enter (t : T) (k : K) (mode : IoMode) (start : Dlong) (data : List UInt8) : Users T K :=
  if (x.client k).access.write = false then x.back t (.failed .invalidAccess)
  else x.goes t (.sent k (.append mode data (some start)))

def send (t : T) (k : K) (m : Message) (w : Wire) : Option (Users T K) :=
  if w.executed then
    (x.mgr.serve p ⟨m.request, w.answer⟩).map fun y =>
      { x with mgr := y.1 }.goes t (.answered k m (w.error.elim y.2 fun code => .failed (.kernel code)))
  else w.error.map fun code => x.goes t (.answered k m (.failed (.kernel code)))

def guessed (c : Client) (m : Message) (num : ℕ) : Dlong :=
  match m with
  | .write _ start _ =>
    let endSize := start.addLong num
    if useEof && 0 < endSize.cmp c.sizeGuess then endSize else c.sizeGuess
  | .append _ _ _ => if useEof then c.sizeGuess.addLong num else c.sizeGuess
  | .setSize size => size
  | .getSize => c.sizeGuess

def learns (c : Client) (m : Message) (r : Reply) : Client :=
  match r with
  | .moved num _ => { c with sizeGuess := guessed useEof c m num }
  | .done =>
    match m with
    | .setSize size => { c with objSize := size, sizeGuess := guessed useEof c m 0 }
    | _ => c
  | .size s => { c with objSize := .ofValue s }
  | _ => c

def finish (t : T) (k : K) (m : Message) (r : Reply) : Users T K :=
  (x.amend k fun c => learns useEof c m r).back t r

def next : Action T K → Option (Users T K)
  | .start k access size => some (x.startUser k access size)
  | .fork k child => x.fork k child
  | .call t k c =>
    match x.phase t with
    | .idle => if (x.client k).ready then some (x.call t k c) else none
    | _ => none
  | .act t w =>
    match x.phase t with
    | .idle => none
    | .deciding k mode start data => some (x.choose useEof t k mode start data)
    | .entering k mode start data => some (x.enter t k mode start data)
    | .sent k m => x.send p t k m w
    | .answered k m r => some (x.finish useEof t k m r)

end Users

end Mapped

end MachUS

namespace MachUS

open Function Option

namespace Io.Dlong

variable {x y : Dlong} {n : ℕ}

theorem cmpDigits_eq_zero {ds : List (UInt16 × UInt16)} (h : cmpDigits ds = 0) :
    ∀ d ∈ ds, d.1 = d.2 := by
  induction ds with
  | nil => exact fun _ hd => absurd hd List.not_mem_nil
  | cons d ds ih =>
    rw [cmpDigits] at h
    split_ifs at h with hne hless
    · cases h
    · exact List.forall_mem_cons.mpr ⟨not_ne_iff.mp hne, ih h⟩

theorem eq_of_cmp (h : x.cmp y = 0) : x = y := by
  have hdigits : cmpDigits [(x.d0, y.d0), (x.d1, y.d1), (x.d2, y.d2), (x.d3, y.d3)] = 0 := by
    rw [cmp] at h
    split_ifs at h
    · cases h
    · exact h
  have hall := cmpDigits_eq_zero hdigits
  obtain ⟨x0, x1, x2, x3⟩ := x
  obtain ⟨y0, y1, y2, y3⟩ := y
  simp only [List.mem_cons, List.not_mem_nil, or_false, forall_eq_or_imp, forall_eq] at hall
  obtain ⟨rfl, rfl, rfl, rfl⟩ := hall
  rfl

theorem grown_eq (h : x.value + n < 2 ^ 63) (hn : n < 2 ^ 32) :
    (if 0 < (x.addLong n).cmp x then x.addLong n else x) = x.addLong n := by
  rcases Nat.eq_zero_or_pos n with rfl | hpos
  · rw [addLong_zero, ite_self]
  · have hend : (x.addLong n).value = x.value + n := by
      rw [value_addLong x hn, Nat.mod_eq_of_lt (by omega)]
    rw [if_pos ((cmp_pos_iff (by omega) (by omega)).mpr (by omega))]

end Io.Dlong

namespace Mapped

open Relation Transition
open Io (Dlong)

namespace Message

def plain : Message → Message
  | append mode data (some start) => .write mode start data
  | m => m

end Message

namespace Phase

variable {K : Type}

def plain : Phase K → Phase K
  | entering k mode start data => .sent k (.write mode start data)
  | sent k m => .sent k m.plain
  | answered k m r => .answered k m.plain r
  | q => q

def writer : Phase K → Option K
  | deciding k _ _ _ | entering k _ _ _ => some k
  | _ => none

end Phase

namespace Users

variable {T K : Type}

def Met (x : Users T K) : Action T K → Prop
  | .act t w =>
    match x.phase t with
    | .sent _ (.append mode data (some start)) => w.executed = true → mode.probe = true ∨
        x.mgr.objSize = start ∧ start.value + data.length < 2 ^ 63 ∧ data.length < 2 ^ 32
    | _ => True
  | _ => True

structure Alike (c d : Client) : Prop where
  ready : d.ready = c.ready
  clone : d.clone = c.clone
  access : d.access = c.access
  objSize : d.objSize = c.objSize

structure Same (x y : Users T K) : Prop where
  mgr : y.mgr = x.mgr
  client : ∀ k, Alike (x.client k) (y.client k)
  phase : ∀ t, y.phase t = (x.phase t).plain
  returned : y.returned = x.returned

def Authorised (x : Users T K) : Prop := ∀ t k, (x.phase t).writer = some k →
  (x.client k).ready = true ∧ (x.client k).access.write = true

variable {x y x' : Users T K} {p : PageSize} {t : T} {k : K} {f g : Client → Client}
  {q q' : Phase K} {m : Message} {r : Reply} {w : Wire} {c d : Client} {e : Action T K} {u : Bool}

theorem Same.amend [DecidableEq K] (h : Same x y) (hfg : Alike (f (x.client k)) (g (y.client k))) :
    Same (x.amend k f) (y.amend k g) := by
  refine ⟨h.mgr, fun i => ?_, h.phase, h.returned⟩
  change Alike (update x.client k _ i) (update y.client k _ i)
  rcases eq_or_ne i k with rfl | hne
  · rw [update_self, update_self]
    exact hfg
  · rw [update_of_ne hne, update_of_ne hne]
    exact h.client i

theorem Same.goes [DecidableEq T] (h : Same x y) (hq : q' = q.plain) : Same (x.goes t q) (y.goes t q') := by
  refine ⟨h.mgr, h.client, fun v => ?_, h.returned⟩
  change update y.phase t q' v = (update x.phase t q v).plain
  rcases eq_or_ne v t with rfl | hne
  · rw [update_self, update_self, hq]
  · rw [update_of_ne hne, update_of_ne hne]
    exact h.phase v

theorem Alike.learns (h : Alike c d) : Alike (learns u c m r) (learns false d m.plain r) := by
  cases r with
  | moved num data => exact ⟨h.ready, h.clone, h.access, h.objSize⟩
  | done =>
    cases m with
    | append mode data instead => cases instead <;> exact h
    | setSize size => exact ⟨h.ready, h.clone, h.access, rfl⟩
    | write _ _ _ | getSize => exact h
  | size s => exact ⟨h.ready, h.clone, h.access, rfl⟩
  | failed _ | cleaned _ _ => exact h

theorem serve_plain {z : MfMem} {answer : Except ℕ ℕ} (hmet : ∀ mode data start,
      m = .append mode data (some start) → mode.probe = true ∨
        z.objSize = start ∧ start.value + data.length < 2 ^ 63 ∧ data.length < 2 ^ 32) :
    z.serve p ⟨m.plain.request, answer⟩ = z.serve p ⟨m.request, answer⟩ := by
  cases m with
  | append mode data instead =>
    cases instead with
    | none => rfl
    | some start =>
      change z.ioWrite p mode start data answer = z.ioAppend p mode data answer
      rcases hmet mode data start rfl with hprobe | ⟨rfl, hsize, hlength⟩
      · simp only [MfMem.ioWrite, MfMem.ioAppend, MfMem.ioStore, hprobe, if_true]
      · simp only [MfMem.ioWrite, MfMem.ioAppend, Dlong.grown_eq hsize hlength]
  | write _ _ _ | setSize _ | getSize => rfl

theorem Same.back [DecidableEq T] (h : Same x y) : Same (x.back t r) (y.back t r) := by
  have hgoes : Same (x.goes t .idle) (y.goes t .idle) := h.goes rfl
  refine ⟨hgoes.mgr, hgoes.client, hgoes.phase, ?_⟩
  change (t, r) :: y.returned = (t, r) :: x.returned
  rw [h.returned]

theorem Same.start [DecidableEq K] (h : Same x y) {access : Rights} {size : Dlong} :
    Same (x.startUser k access size) (y.startUser k access size) := by
  have hc := h.client k
  simp only [startUser, hc.ready]
  split_ifs
  · exact h
  · exact h.amend ⟨rfl, hc.clone, rfl, rfl⟩

theorem Same.fork [DecidableEq K] (h : Same x y) {child : K} (hx' : x.fork k child = some x') :
    ∃ y', y.fork k child = some y' ∧ Same x' y' := by
  simp only [Users.fork, (h.client child).ready] at hx' ⊢
  split_ifs at hx' ⊢
  cases hx'
  have hc := h.client k
  exact ⟨_, rfl, h.amend ⟨rfl, rfl, hc.access, hc.objSize⟩⟩

theorem Same.call [DecidableEq T] (h : Same x y) {a : Call} : Same (x.call t k a) (y.call t k a) := by
  have hc := h.client k
  cases a with
  | read start num =>
    simp only [Users.call, hc.access, hc.objSize]
    split_ifs
    · exact h.back
    · exact h.goes rfl
    · exact h
  | write mode start data =>
    simp only [Users.call, hc.access]
    split_ifs
    · exact h.back
    · exact h.goes rfl
  | append mode data =>
    simp only [Users.call, hc.access]
    split_ifs
    · exact h.back
    · exact h.goes rfl
  | setSize size =>
    simp only [Users.call, hc.access]
    split_ifs
    · exact h.back
    · exact h.goes rfl
  | getSize =>
    simp only [Users.call, hc.access]
    split_ifs
    · exact h.back
    · exact h.goes rfl

theorem Same.send [DecidableEq T] (h : Same x y) (hmet : w.executed = true → ∀ mode data start,
      m = .append mode data (some start) → mode.probe = true ∨
        x.mgr.objSize = start ∧ start.value + data.length < 2 ^ 63 ∧ data.length < 2 ^ 32)
    (hx' : x.send p t k m w = some x') : ∃ y', y.send p t k m.plain w = some y' ∧ Same x' y' := by
  unfold Users.send at hx' ⊢
  split_ifs at hx' ⊢ with hexecuted
  · obtain ⟨z, hz, rfl⟩ := map_eq_some_iff.mp hx'
    have hserve : y.mgr.serve p ⟨m.plain.request, w.answer⟩ = some z := by
      rw [h.mgr, serve_plain (hmet hexecuted)]
      exact hz
    rw [hserve]
    have hdone : Same { x with mgr := z.1 } { y with mgr := z.1 } := ⟨rfl, h.client, h.phase, h.returned⟩
    exact ⟨_, rfl, hdone.goes rfl⟩
  · obtain ⟨code, hcode, rfl⟩ := map_eq_some_iff.mp hx'
    rw [hcode]
    exact ⟨_, rfl, h.goes rfl⟩

theorem Authorised.keep (h : x.Authorised)
    (hclient : ∀ k, (x.client k).ready = true →
      (x'.client k).ready = true ∧ (x'.client k).access = (x.client k).access)
    (hphase : ∀ t k, (x'.phase t).writer = some k → (x.phase t).writer = some k ∨
      (x.client k).ready = true ∧ (x.client k).access.write = true) : x'.Authorised := by
  intro t k hk
  have hx : (x.client k).ready = true ∧ (x.client k).access.write = true :=
    (hphase t k hk).elim (h t k) id
  obtain ⟨hready, haccess⟩ := hclient k hx.1
  exact ⟨hready, haccess ▸ hx.2⟩

theorem Authorised.amend [DecidableEq K] (h : x.Authorised)
    (hf : (x.client k).ready = true → (f (x.client k)).ready = true ∧
      (f (x.client k)).access = (x.client k).access) : (x.amend k f).Authorised := by
  refine h.keep (fun i hi => ?_) fun _ _ hphase => .inl hphase
  change (update x.client k _ i).ready = true ∧ (update x.client k _ i).access = _
  rcases eq_or_ne i k with rfl | hne
  · rw [update_self]
    exact hf hi
  · rw [update_of_ne hne]
    exact ⟨hi, rfl⟩

theorem Authorised.goes [DecidableEq T] (h : x.Authorised)
    (hq : ∀ k, q.writer = some k → (x.client k).ready = true ∧ (x.client k).access.write = true) :
    (x.goes t q).Authorised := by
  refine h.keep (fun i hi => ⟨hi, rfl⟩) fun v i hi => ?_
  change (update x.phase t q v).writer = _ at hi
  rcases eq_or_ne v t with rfl | hne
  · rw [update_self] at hi
    exact .inr (hq i hi)
  · rw [update_of_ne hne] at hi
    exact .inl hi

theorem Authorised.back [DecidableEq T] (h : x.Authorised) : (x.back t r).Authorised := by
  have hgoes : (x.goes t .idle).Authorised := h.goes fun k hk => by cases hk
  exact hgoes

theorem Authorised.call [DecidableEq T] (h : x.Authorised) (hready : (x.client k).ready = true) {a : Call} :
    (x.call t k a).Authorised := by
  have hsends {m : Message} : (x.goes t (.sent k m)).Authorised := h.goes fun i hi => by cases hi
  cases a with
  | write mode start data =>
    simp only [Users.call]
    split_ifs with haccess
    · exact h.back
    · refine h.goes fun i hi => ?_
      cases hi
      exact ⟨hready, by simpa using haccess⟩
  | read start num =>
    simp only [Users.call]
    split_ifs
    · exact h.back
    · exact hsends
    · exact h
  | append mode data =>
    simp only [Users.call]
    split_ifs
    · exact h.back
    · exact hsends
  | setSize size =>
    simp only [Users.call]
    split_ifs
    · exact h.back
    · exact hsends
  | getSize =>
    simp only [Users.call]
    split_ifs
    · exact h.back
    · exact hsends

theorem boot_authorised {size : Dlong} {object : Memory.Mem} :
    (boot size object : Users T K).Authorised := fun _ _ hk => by cases hk

variable [DecidableEq T] [DecidableEq K]

theorem Same.act (h : Same x y) (ha : x.Authorised) (hmet : Met x (.act t w))
    (hx' : next u p x (.act t w) = some x') :
    ∃ y', (y' = y ∨ Under (next false p) Free y y') ∧ Same x' y' := by
  have hy := h.phase t
  have hmoves (y' : Users T K) (hnext : next false p y (.act t w) = some y') (hsame : Same x' y') :
      ∃ y', (y' = y ∨ Under (next false p) Free y y') ∧ Same x' y' :=
    ⟨y', .inr ⟨_, trivial, hnext⟩, hsame⟩
  cases hp : x.phase t with
  | idle =>
    simp only [next, hp] at hx'
    cases hx'
  | deciding k mode start data =>
    simp only [next, hp] at hx'
    rw [hp] at hy
    cases hx'
    refine hmoves (y.choose false t k mode start data) (by simp only [next, hy]; rfl) ?_
    have hplain : y.choose false t k mode start data =
        (y.amend k fun c => { c with eofWriteAsAppend := false }).goes t
          (.sent k (.write mode start data)) := rfl
    have hleave : Same (x.amend k id) (y.amend k fun c => { c with eofWriteAsAppend := false }) :=
      h.amend ⟨(h.client k).ready, (h.client k).clone, (h.client k).access, (h.client k).objSize⟩
    rw [hplain]
    unfold choose
    split_ifs
    · have hid : x.amend k id = x := by
        unfold Users.amend
        rw [id, update_eq_self]
      rw [hid] at hleave
      exact hleave.goes rfl
    · refine Same.goes (h.amend ?_) rfl
      exact ⟨(h.client k).ready, (h.client k).clone, (h.client k).access, (h.client k).objSize⟩
  | entering k mode start data =>
    simp only [next, hp] at hx'
    cases hx'
    refine ⟨y, .inl rfl, ?_⟩
    have haccess := (ha t k (by rw [hp]; rfl)).2
    unfold enter
    rw [if_neg (by simp [haccess])]
    have hstill : y.goes t (y.phase t) = y := by
      unfold Users.goes
      rw [update_eq_self]
    rw [← hstill]
    refine h.goes ?_
    rw [hy, hp]
    rfl
  | sent k m =>
    simp only [next, hp] at hx'
    rw [hp] at hy
    have hmet' (hexecuted : w.executed = true) (mode data start)
        (hm : m = .append mode data (some start)) : mode.probe = true ∨
          x.mgr.objSize = start ∧ start.value + data.length < 2 ^ 63 ∧ data.length < 2 ^ 32 := by
      subst hm
      simp only [Met, hp] at hmet
      exact hmet hexecuted
    obtain ⟨y', hy', hsame⟩ := h.send hmet' hx'
    refine hmoves _ ?_ hsame
    simp only [next, hy]
    exact hy'
  | answered k m r =>
    simp only [next, hp] at hx'
    rw [hp] at hy
    cases hx'
    refine hmoves (y.finish false t k m.plain r) (by simp only [next, hy]; rfl) ?_
    exact (h.amend (h.client k).learns).back

theorem Same.next (h : Same x y) (ha : x.Authorised) (hmet : Met x e)
    (hx' : next u p x e = some x') : ∃ y', (y' = y ∨ Under (next false p) Free y y') ∧ Same x' y' := by
  cases e with
  | start k access size =>
    cases hx'
    exact ⟨_, .inr ⟨.start k access size, trivial, rfl⟩, h.start⟩
  | fork k child =>
    obtain ⟨y', hy', hsame⟩ := h.fork hx'
    exact ⟨y', .inr ⟨.fork k child, trivial, hy'⟩, hsame⟩
  | call t k a =>
    have hy := h.phase t
    cases hp : x.phase t with
    | idle =>
      simp only [Users.next, hp] at hx'
      split_ifs at hx' with hready
      cases hx'
      rw [hp] at hy
      refine ⟨_, .inr ⟨.call t k a, trivial, ?_⟩, h.call⟩
      simp only [Users.next, hy, Phase.plain, (h.client k).ready, hready, if_true]
    | deciding _ _ _ _ | entering _ _ _ _ | sent _ _ | answered _ _ _ =>
      simp only [Users.next, hp] at hx'
      cases hx'
  | act t w => exact h.act ha hmet hx'

theorem Authorised.next (h : x.Authorised) (hx' : next u p x e = some x') : x'.Authorised := by
  cases e with
  | start k access size =>
    cases hx'
    unfold startUser
    split_ifs with hready
    · exact h
    · exact h.amend fun hyes => (hready hyes).elim
  | fork k child =>
    simp only [Users.next, Users.fork] at hx'
    split_ifs at hx' with hready
    cases hx'
    exact h.amend fun hyes => (hready hyes).elim
  | call t k a =>
    simp only [Users.next] at hx'
    split at hx'
    · split_ifs at hx' with hready
      cases hx'
      exact h.call hready
    · cases hx'
  | act t w =>
    simp only [Users.next] at hx'
    split at hx'
    · cases hx'
    · next k mode start data hp =>
      cases hx'
      unfold choose
      split_ifs
      · refine h.goes fun i hi => ?_
        cases hi
        exact h t k (by rw [hp]; rfl)
      · exact (h.amend fun hyes => ⟨hyes, rfl⟩).goes fun i hi => by cases hi
    · next k mode start data hp =>
      cases hx'
      unfold enter
      split_ifs
      · exact h.back
      · exact h.goes fun i hi => by cases hi
    · next k m hp =>
      unfold Users.send at hx'
      split_ifs at hx'
      · obtain ⟨z, -, rfl⟩ := map_eq_some_iff.mp hx'
        have hz : ({ x with mgr := z.1 } : Users T K).Authorised := h
        exact hz.goes fun i hi => by cases hi
      · obtain ⟨code, -, rfl⟩ := map_eq_some_iff.mp hx'
        exact h.goes fun i hi => by cases hi
    · next k m r hp =>
      cases hx'
      refine (h.amend fun hyes => ?_).back
      unfold learns
      split
      · exact ⟨hyes, rfl⟩
      · split <;> exact ⟨hyes, rfl⟩
      · exact ⟨hyes, rfl⟩
      · exact ⟨hyes, rfl⟩

theorem plain_run {size : Dlong} {object : Memory.Mem}
    (hrun : ReflTransGen (Under (next true p) Met) (boot size object) x) :
    ∃ y, ReflTransGen (Under (next false p) Free) (boot size object) y ∧ Same x y := by
  have hsame : Same (boot size object : Users T K) (boot size object) :=
    ⟨rfl, fun _ => ⟨rfl, rfl, rfl, rfl⟩, fun _ => rfl, rfl⟩
  obtain ⟨y, hy, hR, -⟩ := simulated (R := fun x y => Same x y ∧ x.Authorised)
    (fun _ _ _ _ hR hmet hnext => by
      obtain ⟨y', hy', hsame⟩ := hR.1.next hR.2 hmet hnext
      exact ⟨y', hy', hsame, hR.2.next hnext⟩) ⟨hsame, boot_authorised⟩ hrun
  exact ⟨y, hy, hR⟩

end Users

end Mapped

end MachUS
