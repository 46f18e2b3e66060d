import MachUS.Mapped.MfMem

namespace MachUS

open Nat Prod

namespace Io.Dlong

variable {x y : Dlong} {n : ℕ}

theorem toUInt_of_lt (h : x.value < 2 ^ 32) : x.toUInt = x.value := by
  rw [value] at h ⊢
  rw [toUInt]
  omega

theorem toUInt_ofUInt (h : n < 2 ^ 32) : (ofUInt n).toUInt = n := by
  simp only [ofUInt, toUInt, UInt16.toNat_ofNat']
  omega

theorem subDigit_mod (a b : UInt16) (c : Bool) :
    subDigit a b c % 2 ^ 16 + b.toNat + (if c then 1 else 0) =
      a.toNat + 2 ^ 16 * (if borrows (subDigit a b c) then 1 else 0) := by
  have ha := a.toNat_lt
  have hb := b.toNat_lt
  have hc : (if c then 1 else 0) ≤ 1 := by cases c <;> decide
  rcases lt_or_ge a.toNat (b.toNat + if c then 1 else 0) with hless | hmore
  · have hdigit : subDigit a b c = 2 ^ 32 + a.toNat - b.toNat - (if c then 1 else 0) := by
      rcases lt_or_ge a.toNat b.toNat with hlt | hge
      · rw [subDigit, Word.sub, Word.sub]
        omega
      · rw [subDigit, Word.sub, Word.sub]
        omega
    have hborrow : borrows (subDigit a b c) = true := by
      rw [hdigit, borrows, decide_eq_true_eq]
      omega
    rw [hborrow, if_pos rfl, hdigit]
    omega
  · have hdigit : subDigit a b c = a.toNat - b.toNat - (if c then 1 else 0) := by
      have hinner : Word.sub a.toNat b.toNat = a.toNat - b.toNat := Word.sub_of_le (by omega) (by omega)
      rw [subDigit, hinner, Word.sub_of_le (by omega) (by omega)]
    have hborrow : borrows (subDigit a b c) = false := by
      rw [hdigit, borrows, decide_eq_false_iff_not]
      omega
    rw [hborrow, if_neg Bool.false_ne_true, hdigit]
    omega

theorem toUInt_sub (hx : x.value < 2 ^ 32) (hy : y.value ≤ x.value) :
    (x.sub y).toUInt = x.value - y.value := by
  have hlow : x.value = x.d2.toNat * 2 ^ 16 + x.d3.toNat := by
    rw [value] at hx ⊢
    omega
  have hlow' : y.value = y.d2.toNat * 2 ^ 16 + y.d3.toNat := by
    rw [value] at hy ⊢
    omega
  have h3 := subDigit_mod x.d3 y.d3 false
  have h2 := subDigit_mod x.d2 y.d2 (borrows (subDigit x.d3 y.d3 false))
  rw [if_neg Bool.false_ne_true] at h3
  have hsub : (x.sub y).toUInt = subDigit x.d2 y.d2 (borrows (subDigit x.d3 y.d3 false)) % 2 ^ 16 * 2 ^ 16 +
      subDigit x.d3 y.d3 false % 2 ^ 16 := by
    simp only [sub, toUInt, UInt16.toNat_ofNat']
  rw [hsub, hlow, hlow']
  omega
theorem negative_of_lt (h : x.value < 2 ^ 63) : x.negative = false := by
  rw [value] at h
  rw [negative, decide_eq_false_iff_not]
  omega

def digitsValue : List UInt16 → ℕ
  | [] => 0
  | d :: ds => d.toNat * 2 ^ (16 * ds.length) + digitsValue ds

theorem digitsValue_lt (ds : List UInt16) : digitsValue ds < 2 ^ (16 * ds.length) := by
  induction ds with
  | nil => decide
  | cons d ds ih =>
    have hd := d.toNat_lt
    rw [digitsValue, List.length_cons, mul_add, pow_add, mul_comm (2 ^ (16 * ds.length))]
    have : (d.toNat + 1) * 2 ^ (16 * ds.length) ≤ 2 ^ (16 * 1) * 2 ^ (16 * ds.length) :=
      mul_le_mul_right _ hd
    rw [add_mul] at this
    omega

theorem cmpDigits_eq (ds : List (UInt16 × UInt16)) : cmpDigits ds =
    if digitsValue (ds.map fst) < digitsValue (ds.map snd) then -1
    else if digitsValue (ds.map snd) < digitsValue (ds.map fst) then 1 else 0 := by
  induction ds with
  | nil => rfl
  | cons d ds ih =>
    obtain ⟨a, b⟩ := d
    have hleft := digitsValue_lt (ds.map fst)
    have hright := digitsValue_lt (ds.map snd)
    rw [List.length_map] at hleft hright
    simp only [List.map_cons, digitsValue, List.length_map, cmpDigits]
    set l := digitsValue (ds.map fst)
    set r := digitsValue (ds.map snd)
    set q := 2 ^ (16 * ds.length)
    have hbelow {u v : ℕ} (h : u < v) : u * q + q ≤ v * q := by
      have := mul_le_mul_right q h
      rwa [succ_mul] at this
    rcases lt_trichotomy a.toNat b.toNat with h | h | h
    · have := hbelow h
      rw [if_pos (fun heq => h.ne (congrArg UInt16.toNat heq)), if_neg h.asymm, if_pos (by omega)]
    · obtain rfl := UInt16.toNat_inj.mp h
      rw [if_neg (not_not_intro rfl), ih]
      simp only [add_lt_add_iff_left]
    · have := hbelow h
      rw [if_pos (fun heq => h.ne (congrArg UInt16.toNat heq.symm)), if_pos h, if_neg (by omega),
        if_pos (by omega)]

section

variable (hx : x.value < 2 ^ 63) (hy : y.value < 2 ^ 63)

include hx hy

theorem cmp_of_lt :
    x.cmp y = if x.value < y.value then -1 else if y.value < x.value then 1 else 0 := by
  have hvalue (z : Dlong) : digitsValue [z.d0, z.d1, z.d2, z.d3] = z.value := by
    simp only [digitsValue, value, List.length_cons, List.length_nil]
    omega
  rw [cmp, negative_of_lt hx, negative_of_lt hy, if_neg (not_not_intro rfl), cmpDigits_eq]
  change (if digitsValue [x.d0, x.d1, x.d2, x.d3] < digitsValue [y.d0, y.d1, y.d2, y.d3] then -1
    else if digitsValue [y.d0, y.d1, y.d2, y.d3] < digitsValue [x.d0, x.d1, x.d2, x.d3] then 1
    else 0) = _
  rw [hvalue, hvalue]

theorem cmp_pos_iff : 0 < x.cmp y ↔ y.value < x.value := by
  rw [cmp_of_lt hx hy]
  split_ifs <;> omega

theorem cmp_nonneg_iff : 0 ≤ x.cmp y ↔ y.value ≤ x.value := by
  rw [cmp_of_lt hx hy]
  split_ifs <;> omega

end

end Io.Dlong

namespace Mapped

open Memory

namespace PageSize

variable (p : PageSize) {s n : ℕ}

theorem size_pos : 0 < p.size := Nat.two_pow_pos _

theorem size_le : p.size ≤ 2 ^ 31 := Nat.pow_le_pow_right (by decide) p.small

theorem trunc_le (x : ℕ) : p.trunc x ≤ x := Nat.sub_le _ _

theorem le_round (h : n < 2 ^ 31) : n ≤ p.round n ∧ p.round n < 2 ^ 32 := by
  have hpos := p.size_pos
  have hle := p.size_le
  have hmod := mod_lt (n + (p.size - 1)) hpos
  rw [round, trunc, Word.add_of_lt (by omega)]
  omega

end PageSize

structure ByteArray where
  bytes : Mem
  size : ℕ

namespace ByteArray

variable (a : ByteArray)

def read (mode : IoMode) (start num : ℕ) : ByteArray × Reply :=
  if a.size ≤ start then (a, .failed .invalidOffset)
  else if a.size < start + num ∧ mode.truncate = false then (a, .failed .invalidSize)
  else
    let n := min num (a.size - start)
    (a, .moved n (if mode.probe then [] else Memory.bytes a.bytes start n))

def write (mode : IoMode) (start : ℕ) (data : List UInt8) : ByteArray × Reply :=
  if mode.probe then (a, .moved data.length [])
  else (⟨Memory.store a.bytes start data, max a.size (start + data.length)⟩, .moved data.length [])

inductive Serves (a : ByteArray) : Event → ByteArray → Reply → Prop
  | read {mode start num answer} : Serves a ⟨.read mode start num, answer⟩
      (a.read mode start.value num).1 (a.read mode start.value num).2
  | write {mode start data answer} : Serves a ⟨.write mode start data, answer⟩
      (a.write mode start.value data).1 (a.write mode start.value data).2
  | append {mode data answer} : Serves a ⟨.append mode data, answer⟩
      (a.write mode a.size data).1 (a.write mode a.size data).2
  | setSize {size answer} : Serves a ⟨.setSize size, answer⟩ ⟨a.bytes, size.value⟩ .done
  | getSize {answer} : Serves a ⟨.getSize, answer⟩ a (.size a.size)
  | unmapWindow {answer} : Serves a ⟨.unmapWindow, answer⟩ a .done
  | clean {answer} (dirty : Bool) : Serves a ⟨.clean, answer⟩ a (.cleaned dirty a.size)
  | unmapped {r k} : Serves a ⟨r, .error k⟩ a (.failed (.kernel k))

inductive Runs : ByteArray → List Event → ByteArray → List Reply → Prop
  | nil (b : ByteArray) : Runs b [] b []
  | cons {b c d : ByteArray} {e : Event} {es : List Event} {r : Reply} {rs : List Reply} :
    Serves b e c r → Runs c es d rs → Runs b (e :: es) d (r :: rs)

end ByteArray

end Mapped

end MachUS

namespace MachUS.Mapped

open Memory Option Word List ByteArray
open Io (Dlong)

namespace Space

variable {x : Space} {v w : Window} {a n : ℕ} {data : List UInt8} {rest : List Window}

theorem fetch_of_holds (hlive : x.live = w :: rest) (h : w.Holds a n) :
    x.fetch a n = (x, bytes x.object (w.start + (a - w.addr) : ℕ) n) := by
  rw [fetch, hlive, find?_cons_of_pos (by simpa using h)]

theorem store_of_holds (hlive : x.live = w :: rest) (h : w.Holds a data.length) : x.store a data =
    { x with object := Memory.store x.object (w.start + (a - w.addr) : ℕ) data } := by
  rw [store, hlive, find?_cons_of_pos (by simpa using h)]

theorem deallocate_single (hlive : x.live = [w]) : x.deallocate w.addr w.size =
    { x with live := [], unmapped := w :: x.unmapped } := by
  rw [deallocate, hlive, find?_cons_of_pos (by simp)]
  simp

theorem deallocate_second (hlive : x.live = [v, w]) (hne : v.addr ≠ w.addr) :
    x.deallocate w.addr w.size = { x with live := [v], unmapped := w :: x.unmapped } := by
  have hvw : v ≠ w := fun h => hne (congrArg Window.addr h)
  rw [deallocate, hlive, find?_cons_of_neg (by simp [hne]), find?_cons_of_pos (by simp)]
  simp [hvw]

end Space

namespace MfMem

variable (x : MfMem)

def view : ByteArray := ⟨x.space.object, x.objSize.value⟩

def current : List Window :=
  if x.winvalid then [⟨x.winaddr, x.winsize, x.winstart.toUInt⟩] else []

structure Windowed : Prop where
  live : x.space.live = x.current
  balance : x.space.mapped.Perm (x.space.unmapped ++ x.space.live)
  faulted : x.space.faulted = false

structure Sound : Prop extends Windowed x where
  access : x.access = ⟨true, true, true⟩
  size : x.objSize.value < 2 ^ 31
  bounds : x.winvalid = true → x.winaddr + x.winsize < 2 ^ 32 ∧
    x.winstart.toUInt + x.winsize < 2 ^ 32 ∧ 0 < x.winsize
  cleaning : x.cleaning = false

variable {p : PageSize} {x} {s n a : ℕ}

structure Exposes (x : MfMem) (s n a : ℕ) : Prop where
  window : ∃ w rest, x.space.live = w :: rest ∧ w.Holds a n ∧ w.start + (a - w.addr) = s

theorem winSize_bounds (h : s + n < 2 ^ 31) : s + n ≤ p.trunc s + winSize p s n ∧
    p.trunc s + winSize p s n < 2 ^ 32 ∧ 0 < winSize p s n := by
  obtain ⟨hround, hlt⟩ := p.le_round h
  have htrunc := p.trunc_le s
  have hsub : sub (p.round (s + n)) (p.trunc s) = p.round (s + n) - p.trunc s :=
    sub_of_le (by omega) hlt
  rw [winSize, add_of_lt (by omega), hsub]
  have hdefault : defaultWinSize = 262144 := rfl
  rw [hdefault]
  omega

theorem Sound.within (h : x.Sound) (hvalid : x.winvalid = true) (hsn : s + n < 2 ^ 31) :
    withinWindow x.winstart x.winsize s n = true ↔
      x.winstart.toUInt ≤ s ∧ s + n ≤ x.winstart.toUInt + x.winsize := by
  obtain ⟨-, hend, -⟩ := h.bounds hvalid
  rw [withinWindow, add_of_lt (by omega), add_of_lt (by omega), Bool.and_eq_true,
    decide_eq_true_eq, decide_eq_true_eq]

theorem Sound.exposes (h : x.Sound) (hvalid : x.winvalid = true) (hsn : s + n < 2 ^ 31)
    (hwithin : withinWindow x.winstart x.winsize s n = true) :
    x.Exposes s n (add x.winaddr (sub s x.winstart.toUInt)) := by
  obtain ⟨haddr, hend, -⟩ := h.bounds hvalid
  obtain ⟨hlow, hhigh⟩ := (h.within hvalid hsn).mp hwithin
  rw [sub_of_le hlow (by omega), add_of_lt (by omega)]
  refine ⟨_, [], h.live.trans (if_pos hvalid), ⟨?_, ?_⟩, ?_⟩
  · exact Nat.le_add_right _ _
  · change _ ≤ x.winaddr + x.winsize
    omega
  · change x.winstart.toUInt + (x.winaddr + (s - x.winstart.toUInt) - x.winaddr) = s
    omega

structure Copies (x y : MfMem) : Prop where
  access : y.access = x.access
  cleaning : y.cleaning = x.cleaning
  winvalid : y.winvalid = x.winvalid
  winaddr : y.winaddr = x.winaddr
  winsize : y.winsize = x.winsize
  winstart : y.winstart = x.winstart
  live : y.space.live = x.space.live
  mapped : y.space.mapped = x.space.mapped
  unmapped : y.space.unmapped = x.space.unmapped
  faulted : y.space.faulted = x.space.faulted

variable {y z c : MfMem} {answer : Except ℕ ℕ} {copy : MfMem → ℕ → MfMem × Reply} {r : Reply}

theorem Copies.current (h : Copies x y) : y.current = x.current := by
  rw [MfMem.current, h.winvalid, h.winaddr, h.winsize, h.winstart, MfMem.current]

theorem Sound.copies (h : x.Sound) (hy : Copies x y) (hsize : y.objSize.value < 2 ^ 31) : y.Sound := by
  refine ⟨⟨?_, ?_, ?_⟩, ?_, hsize, ?_, ?_⟩
  · rw [hy.live, hy.current]
    exact h.live
  · rw [hy.mapped, hy.unmapped, hy.live]
    exact h.balance
  · rw [hy.faulted]
    exact h.faulted
  · rw [hy.access]
    exact h.access
  · rw [hy.winvalid, hy.winaddr, hy.winsize, hy.winstart]
    exact h.bounds
  · rw [hy.cleaning]
    exact h.cleaning

theorem stale_eq_none (h : (x.winvalid && (x.stale s n).isNone) = true) :
    x.winvalid = true ∧ withinWindow x.winstart x.winsize s n = true := by
  rw [Bool.and_eq_true] at h
  obtain ⟨hvalid, hnone⟩ := h
  refine ⟨hvalid, ?_⟩
  rw [stale, hvalid] at hnone
  by_contra hout
  rw [Bool.eq_false_iff.mpr hout] at hnone
  cases hnone

theorem stale_of_not (h : ¬ (x.winvalid && (x.stale s n).isNone) = true) :
    x.winvalid = false ∧ x.stale s n = none ∨
      x.winvalid = true ∧ x.stale s n = some (x.winaddr, x.winsize) := by
  cases hvalid : x.winvalid with
  | false => exact .inl ⟨rfl, by rw [stale, hvalid]; rfl⟩
  | true =>
    refine .inr ⟨rfl, ?_⟩
    rw [hvalid] at h
    unfold stale at h ⊢
    rw [hvalid] at h ⊢
    split_ifs at h ⊢ with hout
    · rfl
    · exact (h rfl).elim

theorem Sound.close (h : x.Sound) (hout : ¬ (x.winvalid && (x.stale s n).isNone) = true)
    {l : List Window} (hl : l = [] ∨ ∃ v, l = [v] ∧ ∀ w ∈ x.space.live, v.addr ≠ w.addr)
    (hlive : c.space.live = l ++ x.space.live) (hcurrent : c.current = l)
    (hmapped : c.space.mapped = l ++ x.space.mapped) (hunmapped : c.space.unmapped = x.space.unmapped)
    (hfaulted : c.space.faulted = false) :
    (c.close (x.stale s n)).Windowed ∧ ∃ sp, c.close (x.stale s n) = { c with space := sp } ∧
      sp.object = c.space.object := by
  have hbalance : (l ++ x.space.mapped).Perm (x.space.unmapped ++ (l ++ x.space.live)) := by
    have := (h.balance.append_left l).trans (perm_append_comm_assoc l _ _)
    exact this
  rcases stale_of_not hout with ⟨hvalid, hstale⟩ | ⟨hvalid, hstale⟩
  · have hnone : x.space.live = [] := by
      rw [h.live, current, hvalid]
      rfl
    rw [hstale]
    refine ⟨⟨?_, ?_, hfaulted⟩, c.space, rfl, rfl⟩
    · change c.space.live = c.current
      rw [hlive, hnone, hcurrent, append_nil]
    · change c.space.mapped.Perm (c.space.unmapped ++ c.space.live)
      rw [hmapped, hunmapped, hlive]
      exact hbalance
  · have hone : x.space.live = [⟨x.winaddr, x.winsize, x.winstart.toUInt⟩] := by
      rw [h.live, current, hvalid]
      rfl
    have hdone : c.space.deallocate x.winaddr x.winsize = { c.space with
        live := l, unmapped := ⟨x.winaddr, x.winsize, x.winstart.toUInt⟩ :: c.space.unmapped } := by
      rcases hl with rfl | ⟨v, rfl, hne⟩
      · exact Space.deallocate_single (hlive.trans hone)
      · refine Space.deallocate_second (w := ⟨x.winaddr, x.winsize, x.winstart.toUInt⟩)
          (hlive.trans (congrArg _ hone)) (hne _ ?_)
        rw [hone]
        exact mem_singleton_self _
    have hclose : c.close (x.stale s n) = { c with space := c.space.deallocate x.winaddr x.winsize } := by
      rw [hstale]
      rfl
    rw [hclose, hdone]
    refine ⟨⟨hcurrent.symm, ?_, hfaulted⟩, _, rfl, rfl⟩
    rw [hmapped, hunmapped]
    rw [hone] at hbalance
    refine hbalance.trans ?_
    rw [← append_assoc]
    exact perm_append_comm

theorem Sound.withWindow (h : x.Sound) (hsn : s + n < 2 ^ 31)
    (hy : x.withWindow p s n answer copy = some (y, r)) :
    (∃ k, answer = .error k ∧ r = .failed (.kernel k) ∧ y.Sound ∧ y.view = x.view) ∨
      ∃ z a, z.Exposes s n a ∧ z.view = x.view ∧ z.objSize = x.objSize ∧ r = (copy z a).2 ∧
        (Copies z (copy z a).1 → (copy z a).1.objSize.value < 2 ^ 31 →
          y.Sound ∧ y.view = (copy z a).1.view) := by
  unfold MfMem.withWindow at hy
  simp only at hy
  split_ifs at hy with hin
  · obtain ⟨hvalid, hwithin⟩ := stale_eq_none hin
    obtain ⟨rfl, rfl⟩ := Prod.mk.inj (some.inj hy)
    refine .inr ⟨x, _, h.exposes hvalid hsn hwithin, rfl, rfl, rfl, fun hcopy hsize => ?_⟩
    exact ⟨h.copies hcopy hsize, rfl⟩
  · cases answer with
    | error k =>
      cases some.inj hy
      obtain ⟨hwindowed, sp, hclosed, hobject⟩ := h.close (c := { x with winvalid := false }) hin (.inl rfl)
        rfl rfl rfl rfl h.faulted
      refine .inl ⟨k, rfl, rfl, ?_, ?_⟩
      · refine ⟨hwindowed, ?_, ?_, ?_, ?_⟩
        · rw [hclosed]
          exact h.access
        · rw [hclosed]
          exact h.size
        · rw [hclosed]
          exact fun hfalse => Bool.noConfusion hfalse
        · rw [hclosed]
          exact h.cleaning
      · rw [hclosed, view, hobject]
        rfl
    | ok a =>
      simp only at hy
      split_ifs at hy with hfree
      cases some.inj hy
      obtain ⟨hroom, hbeside⟩ := hfree
      obtain ⟨hend, hbound, hpos⟩ := winSize_bounds (p := p) hsn
      have htrunc := p.trunc_le s
      have hstart : (Dlong.ofUInt (p.trunc s)).toUInt = p.trunc s := Dlong.toUInt_ofUInt (by omega)
      have hnew : (x.install p s n a).current = [⟨a, winSize p s n, p.trunc s⟩] := by
        change [(⟨a, winSize p s n, (Dlong.ofUInt (p.trunc s)).toUInt⟩ : Window)] = _
        rw [hstart]
      refine .inr ⟨x.install p s n a, _, ⟨_, x.space.live, rfl, ⟨?_, ?_⟩, ?_⟩, rfl, rfl, rfl,
        fun hcopy hsize => ?_⟩
      · rw [sub_of_le htrunc (by omega), add_of_lt (by omega)]
        exact Nat.le_add_right _ _
      · rw [sub_of_le htrunc (by omega), add_of_lt (by omega)]
        change _ ≤ a + winSize p s n
        omega
      · rw [sub_of_le htrunc (by omega), add_of_lt (by omega)]
        change p.trunc s + (a + (s - p.trunc s) - a) = s
        omega
      · have hapart : ∀ w ∈ x.space.live, (⟨a, winSize p s n, p.trunc s⟩ : Window).addr ≠ w.addr := by
          intro w hw heq
          change a = w.addr at heq
          have hsize : 0 < w.size := by
            rw [h.live, current] at hw
            split_ifs at hw with hvalid
            · obtain rfl := mem_singleton.mp hw
              exact (h.bounds hvalid).2.2
            · cases hw
          rcases hbeside w hw with hb | hb <;> omega
        obtain ⟨hwindowed, sp, hclosed, hobject⟩ := h.close hin (.inr ⟨_, rfl, hapart⟩) hcopy.live
          (hcopy.current.trans hnew) hcopy.mapped hcopy.unmapped (hcopy.faulted.trans h.faulted)
        refine ⟨⟨hwindowed, ?_, ?_, ?_, ?_⟩, ?_⟩
        · rw [hclosed]
          exact hcopy.access.trans h.access
        · rw [hclosed]
          exact hsize
        · rw [hclosed]
          intro _
          rw [hcopy.winaddr, hcopy.winsize, hcopy.winstart]
          change a + winSize p s n < 2 ^ 32 ∧
            (Dlong.ofUInt (p.trunc s)).toUInt + winSize p s n < 2 ^ 32 ∧ 0 < winSize p s n
          rw [hstart]
          exact ⟨hroom, hbound, hpos⟩
        · rw [hclosed]
          exact hcopy.cleaning.trans h.cleaning
        · rw [hclosed, view, hobject]
          rfl

end MfMem

namespace MfMem

variable {p : PageSize} {x y z : MfMem} {s n a : ℕ} {mode : IoMode} {start size : Dlong}
  {data : List UInt8} {answer : Except ℕ ℕ} {r : Reply} {e : Event} {es : List Event} {rs : List Reply}

def InRange (x : MfMem) (e : Event) : Prop :=
  match e.request with
  | .read _ start num => start.value + num < 2 ^ 31
  | .write _ start data => start.value + data.length < 2 ^ 31
  | .append _ data => x.objSize.value + data.length < 2 ^ 31
  | .setSize size => size.value < 2 ^ 31
  | .getSize | .unmapWindow | .clean => True

def Below (p : PageSize) : MfMem → List Event → Prop
  | _, [] => True
  | x, e :: es => x.InRange e ∧ ∀ y ∈ x.serve p e, Below p y.1 es

instance InRange.decidable (x : MfMem) (e : Event) : Decidable (x.InRange e) := by
  obtain ⟨q, answer⟩ := e
  cases q <;> unfold InRange <;> infer_instance

instance Below.decidable (p : PageSize) : ∀ x es, Decidable (Below p x es)
  | _, [] => isTrue trivial
  | x, e :: es =>
    have (y : MfMem × Reply) : Decidable (Below p y.1 es) := Below.decidable p y.1 es
    inferInstanceAs (Decidable (x.InRange e ∧ ∀ y ∈ x.serve p e, Below p y.1 es))

theorem Exposes.fetch (h : z.Exposes s n a) :
    fetch n z a = (z, .moved n (bytes z.space.object s n)) := by
  obtain ⟨w, rest, hlive, hholds, hs⟩ := h.window
  rw [MfMem.fetch, Space.fetch_of_holds hlive hholds, hs]

theorem Exposes.store (h : z.Exposes s data.length a) : store data size z a =
    ({ z with
        space := { z.space with object := Memory.store z.space.object s data }
        modified := true
        dirty := true
        objSize := size }, .moved data.length []) := by
  obtain ⟨w, rest, hlive, hholds, hs⟩ := h.window
  rw [MfMem.store, Space.store_of_holds hlive hholds, hs]

theorem addLong_of_lt (start : Dlong) (h : start.value + n < 2 ^ 31) :
    (start.addLong n).value = start.value + n := by
  rw [Dlong.value_addLong start (by omega), Nat.mod_eq_of_lt (by omega)]

theorem Sound.read (h : x.Sound) (hrange : start.value + n < 2 ^ 31)
    (hy : x.ioRead p mode start n answer = some (y, r)) :
    y.Sound ∧ x.view.Serves ⟨.read mode start n, answer⟩ y.view r := by
  have hend := addLong_of_lt start hrange
  have hsize := h.size
  have hgteq : 0 ≤ start.cmp x.objSize ↔ x.view.size ≤ start.value :=
    Dlong.cmp_nonneg_iff (by omega) (by omega)
  have hgt : 0 < (start.addLong n).cmp x.objSize ↔ x.view.size < start.value + n := by
    rw [Dlong.cmp_pos_iff (by omega) (by omega), hend]
    rfl
  have hserves {b : ByteArray} {v : Reply} (hb : x.view.read mode start.value n = (b, v)) :
      x.view.Serves ⟨.read mode start n, answer⟩ b v := by
    have hread : x.view.Serves ⟨.read mode start n, answer⟩ (x.view.read mode start.value n).1
        (x.view.read mode start.value n).2 := .read
    rwa [hb] at hread
  have hmoved (hoffset : ¬ x.view.size ≤ start.value) : (if 0 < (start.addLong n).cmp x.objSize then
      (x.objSize.sub start).toUInt else n) = min n (x.view.size - start.value) := by
    have hsub : (x.objSize.sub start).toUInt = x.view.size - start.value :=
      Dlong.toUInt_sub (by omega) (Nat.le_of_lt (Nat.lt_of_not_le hoffset))
    split_ifs <;> omega
  unfold ioRead at hy
  rw [if_neg (by simp [h.access])] at hy
  by_cases hoffset : x.view.size ≤ start.value
  · rw [if_pos (hgteq.mpr hoffset)] at hy
    cases some.inj hy
    exact ⟨h, hserves (by rw [ByteArray.read, if_pos hoffset])⟩
  rw [if_neg (hgteq.not.mpr hoffset), hmoved hoffset] at hy
  simp only [hgt] at hy
  split_ifs at hy with hlong hprobe
  · cases some.inj hy
    exact ⟨h, hserves (by rw [ByteArray.read, if_neg hoffset, if_pos hlong])⟩
  · cases some.inj hy
    exact ⟨h, hserves (by
      rw [ByteArray.read, if_neg hoffset, if_neg hlong]
      simp only [hprobe, if_true])⟩
  · rw [Dlong.toUInt_of_lt (by omega)] at hy
    rcases h.withWindow (by omega) hy with ⟨k, rfl, rfl, hsound, hview⟩ | ⟨z, a, hz, hview, hsame, rfl, hdone⟩
    · rw [hview]
      exact ⟨hsound, .unmapped⟩
    · rw [hz.fetch] at hdone ⊢
      obtain ⟨hsound, hy⟩ := hdone ⟨rfl, rfl, rfl, rfl, rfl, rfl, rfl, rfl, rfl, rfl⟩ (hsame ▸ hsize)
      rw [hy, hview]
      refine ⟨hsound, hserves ?_⟩
      rw [ByteArray.read, if_neg hoffset, if_neg hlong, ← hview]
      simp only [hprobe, view]
      rfl

theorem Sound.store (h : x.Sound) (hrange : s + data.length < 2 ^ 31) (hsize : size.value < 2 ^ 31)
    (hnew : size.value = max x.objSize.value (s + data.length))
    (hy : x.ioStore p mode s data size answer = some (y, r)) :
    y.Sound ∧ ((∃ k, answer = .error k ∧ r = .failed (.kernel k) ∧ y.view = x.view) ∨
      (y.view, r) = x.view.write mode s data) := by
  unfold ioStore at hy
  rw [if_neg (by simp [h.access])] at hy
  split_ifs at hy with hprobe
  · cases some.inj hy
    exact ⟨h, .inr (by rw [write, if_pos hprobe])⟩
  · rcases h.withWindow hrange hy with ⟨k, rfl, rfl, hsound, hview⟩ | ⟨z, a, hz, hview, hsame, rfl, hdone⟩
    · exact ⟨hsound, .inl ⟨k, rfl, rfl, hview⟩⟩
    · rw [hz.store] at hdone ⊢
      obtain ⟨hsound, hy⟩ := hdone ⟨rfl, rfl, rfl, rfl, rfl, rfl, rfl, rfl, rfl, rfl⟩ hsize
      refine ⟨hsound, .inr ?_⟩
      rw [hy, write, if_neg hprobe]
      have hbytes : z.space.object = x.view.bytes := congrArg ByteArray.bytes hview
      simp only [view, hbytes, hnew]

theorem Sound.serve (h : x.Sound) (hrange : x.InRange e) (hy : x.serve p e = some (y, r)) :
    y.Sound ∧ x.view.Serves e y.view r := by
  obtain ⟨q, answer⟩ := e
  have hsize := h.size
  cases q with
  | read mode start n => exact h.read hrange hy
  | write mode start data =>
    have hend := addLong_of_lt start hrange
    have hgt : 0 < (start.addLong data.length).cmp x.objSize ↔
        x.objSize.value < start.value + data.length := by
      change start.value + _ < _ at hrange
      rw [Dlong.cmp_pos_iff (by omega) (by omega), hend]
    have hnew : (if 0 < (start.addLong data.length).cmp x.objSize then start.addLong data.length
        else x.objSize).value = max x.objSize.value (start.value + data.length) := by
      split_ifs with hlonger
      · rw [hend]
        exact (Nat.max_eq_right (hgt.mp hlonger).le).symm
      · exact (Nat.max_eq_left (Nat.le_of_not_lt (hgt.not.mp hlonger))).symm
    change x.ioWrite p mode start data answer = _ at hy
    change start.value + data.length < 2 ^ 31 at hrange
    rw [ioWrite, Dlong.toUInt_of_lt (by omega)] at hy
    obtain ⟨hsound, hresult⟩ := h.store hrange (by omega) hnew hy
    refine ⟨hsound, ?_⟩
    rcases hresult with ⟨k, rfl, rfl, hview⟩ | hresult
    · rw [hview]
      exact .unmapped
    · obtain ⟨hview, rfl⟩ := Prod.mk.inj hresult
      rw [hview]
      exact .write
  | append mode data =>
    change x.objSize.value + data.length < 2 ^ 31 at hrange
    change x.ioAppend p mode data answer = _ at hy
    rw [ioAppend, Dlong.toUInt_of_lt (by omega)] at hy
    have hend := addLong_of_lt x.objSize hrange
    obtain ⟨hsound, hresult⟩ := h.store hrange (by omega) (by omega) hy
    refine ⟨hsound, ?_⟩
    rcases hresult with ⟨k, rfl, rfl, hview⟩ | hresult
    · rw [hview]
      exact .unmapped
    · obtain ⟨hview, rfl⟩ := Prod.mk.inj hresult
      rw [hview]
      exact .append
  | setSize size =>
    change some (x.ioSetSize size) = _ at hy
    rw [ioSetSize, if_neg (by simp [h.access])] at hy
    cases some.inj hy
    exact ⟨⟨⟨h.live, h.balance, h.faulted⟩, h.access, hrange, h.bounds, h.cleaning⟩, .setSize⟩
  | getSize =>
    change some x.ioGetSize = _ at hy
    rw [ioGetSize, if_neg (by simp [h.access])] at hy
    cases some.inj hy
    exact ⟨h, .getSize⟩
  | unmapWindow =>
    cases some.inj hy
    unfold ioUnmapWindow
    split_ifs with hvalid
    · have hone : x.space.live = [⟨x.winaddr, x.winsize, x.winstart.toUInt⟩] :=
        h.live.trans (if_pos hvalid)
      have hdone := Space.deallocate_single hone
      rw [hdone]
      have hbalance := h.balance
      rw [hone] at hbalance
      refine ⟨⟨⟨rfl, ?_, h.faulted⟩, h.access, hsize, fun hfalse => Bool.noConfusion hfalse, h.cleaning⟩,
        .unmapWindow⟩
      rw [append_nil]
      exact hbalance.trans perm_append_comm
    · exact ⟨h, .unmapWindow⟩
  | clean =>
    change some x.ioClean = _ at hy
    rw [ioClean, if_neg (by simp [h.cleaning])] at hy
    cases some.inj hy
    exact ⟨⟨⟨h.live, h.balance, h.faulted⟩, h.access, hsize, h.bounds, rfl⟩, .clean _⟩

theorem Sound.run (h : x.Sound) (hbelow : Below p x es) (hy : run p x es = some (y, rs)) :
    y.Sound ∧ x.view.Runs es y.view rs := by
  induction es generalizing x rs with
  | nil =>
    cases some.inj hy
    exact ⟨h, .nil _⟩
  | cons e es ih =>
    obtain ⟨⟨z, r⟩, hz, hy⟩ := bind_eq_some_iff.mp hy
    obtain ⟨⟨w, vs⟩, hw, hy⟩ := map_eq_some_iff.mp hy
    cases hy
    obtain ⟨hsound, hserves⟩ := h.serve hbelow.1 hz
    obtain ⟨hlast, hruns⟩ := ih hsound (hbelow.2 _ hz) hw
    exact ⟨hlast, .cons hserves hruns⟩

theorem startMgr_sound {object : Mem} (hsize : size.value < 2 ^ 31) : (startMgr size object).Sound :=
  ⟨⟨rfl, .nil, rfl⟩, rfl, hsize, fun hfalse => Bool.noConfusion hfalse, rfl⟩

theorem mapped_file_refines (p : PageSize) {object : Mem} (hsize : size.value < 2 ^ 31)
    (hbelow : Below p (startMgr size object) es) (hrun : run p (startMgr size object) es = some (y, rs)) :
    Runs ⟨object, size.value⟩ es y.view rs ∧ y.Windowed := by
  obtain ⟨hsound, hruns⟩ := (startMgr_sound hsize).run hbelow hrun
  exact ⟨hruns, hsound.toWindowed⟩

def sample : List Event :=
  [⟨.write ⟨false, false⟩ .zero [1, 2, 3], .ok 4096⟩,
    ⟨.read ⟨false, true⟩ (.ofUInt 1) 5, .error 3⟩,
    ⟨.append ⟨false, false⟩ [4], .error 3⟩,
    ⟨.write ⟨false, false⟩ (.ofUInt 500000) [5], .error 3⟩,
    ⟨.write ⟨false, false⟩ (.ofUInt 500000) [6], .ok 1048576⟩,
    ⟨.write ⟨true, false⟩ .zero [7], .error 3⟩,
    ⟨.read ⟨false, false⟩ .zero 4, .ok 4096⟩,
    ⟨.read ⟨false, false⟩ (.ofUInt 500000) 2, .error 3⟩,
    ⟨.setSize (.ofUInt 2), .error 3⟩,
    ⟨.read ⟨false, false⟩ (.ofUInt 2) 1, .error 3⟩,
    ⟨.clean, .error 3⟩, ⟨.unmapWindow, .error 3⟩]

def sampleReplies : List Reply :=
  [.moved 3 [], .moved 2 [2, 3], .moved 1 [], .failed (.kernel 3), .moved 1 [], .moved 1 [],
    .moved 4 [1, 2, 3, 4], .failed .invalidSize, .done, .failed .invalidOffset, .cleaned true 2, .done]

theorem mapped_file_refines_sample : ∃ y, Runs ⟨fun _ => 0, 0⟩ sample y sampleReplies ∧
    y.size = 2 := by
  have hruns : ((run ⟨12, by decide⟩ (startMgr .zero fun _ => 0) sample).map fun z =>
      (z.1.view.size, z.2)) = some (2, sampleReplies) := by
    decide +kernel
  obtain ⟨⟨y, rs⟩, hrun, hz⟩ := map_eq_some_iff.mp hruns
  obtain ⟨hsize, rfl⟩ := Prod.mk.inj hz
  exact ⟨y.view, (mapped_file_refines ⟨12, by decide⟩ (by decide) (by decide +kernel) hrun).1, hsize⟩

theorem probe_writes_nothing : ∃ y, run ⟨12, by decide⟩ (startMgr .zero fun _ => 0)
    [⟨.write ⟨true, false⟩ .zero [1], .ok 4096⟩] = some (y, [.moved 1 []]) ∧
      y.view.bytes 0 ≠ 1 ∧ y.view.size < 1 :=
  ⟨_, rfl, by decide, by decide⟩

end MfMem

end MachUS.Mapped
