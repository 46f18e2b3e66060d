import MachUS.Records.RecordQueue

namespace MachUS.Records

open Chain Function RecordStream System Pending Or
open Io (Addr iomProbe iomTruncate iosEnabled)
open Io.Stream (invalidMode minimum)

variable {ι : Type} (ops : RecinfoOps ι)

namespace Pending

def ready (s : RecordStream ι) (stray : Option Addr) : Pending ι → Except Fault (Progress ι)
  | get mode count => s.getReady mode count stray
  | put mode rec count _ => s.putReady mode rec count stray
  | read mode len recinfo => s.readReady ops mode len recinfo

def wait (s : RecordStream ι) (stray : Option Addr) : Pending ι → Except Fault (Progress ι)
  | get mode count => s.getWait mode count stray
  | put mode rec count _ => s.putWait mode rec count stray
  | read mode len recinfo => s.readWait ops mode len recinfo

def Enabled (s : RecordStream ι) : Pending ι → Prop
  | put _ _ _ _ => s.writeStrategy &&& iosEnabled ≠ 0
  | _ => s.readStrategy &&& iosEnabled ≠ 0

def Ready (s : RecordStream ι) : Pending ι → Prop
  | get mode count => minimum mode count ≤ s.qused
  | put mode _ count _ => minimum mode count ≤ s.qmax - s.qused
  | read _ _ _ => 1 ≤ s.qused

def Nonempty : Pending ι → Prop
  | get mode count => mode &&& iomProbe = 0 → 0 < count
  | put mode _ count _ => mode &&& iomProbe = 0 → 0 < count
  | read _ _ _ => True

def record : Pending ι → Option Addr
  | put _ rec _ _ => rec
  | _ => none

def Refused (s : RecordStream ι) (p : Pending ι) (r : Except Fault (Progress ι)) : Prop :=
  ∃ ret, r = .ok (p.finish (.returns ret s)) ∧ ret.code ≠ .success ∧ ret.record = p.record

def Attempts (s : RecordStream ι) (stray : Option Addr) (p : Pending ι)
    (r : Except Fault (Progress ι)) : Prop :=
  r = .ok .waits ∨ p.Refused s r ∨
    p.Ready s ∧ p.Nonempty ∧ r = (p.ready ops s stray).map p.finish

variable {ops} {s : RecordStream ι} {l : List (Node ι)} {stray : Option Addr} {p : Pending ι}

theorem finish_waits (p : Pending ι) : p.finish .waits = .waits := by
  rcases p with _ | ⟨_, _, _, _ | _⟩ | _ <;> rfl

theorem map_finish (h : ∀ progress, p.finish progress = progress)
    (r : Except Fault (Progress ι)) : r.map p.finish = r := by
  cases r with
  | error fault => rfl
  | ok progress => exact congrArg Except.ok (h progress)

theorem refused {ret : Return ι} (hcode : ret.code ≠ .success) (hrec : ret.record = p.record) :
    Attempts ops s stray p (.ok (p.finish (.returns ret s))) :=
  inr (inl ⟨ret, rfl, hcode, hrec⟩)

theorem waits (p : Pending ι) : Attempts ops s stray p (.ok (p.finish .waits)) :=
  inl (congrArg Except.ok p.finish_waits)

theorem wait_attempts (hq : Queue s l) (henabled : p.Enabled s) (hsome : ¬p.MovesNothing s) :
    Attempts ops s stray p ((p.wait ops s stray).map p.finish) := by
  cases p with
  | get mode count =>
    simp only [wait, getWait]
    split_ifs with hless
    · exact refused (by simp) rfl
    · exact waits _
    · exact refused (by simp) rfl
    · refine inr (inr ⟨Nat.le_of_not_lt hless, fun hprobe => ?_, rfl⟩)
      refine Nat.pos_of_ne_zero fun hcount => ?_
      exact hsome ⟨hcount, hprobe, henabled, Nat.le_of_not_lt hless⟩
  | put mode rec count internal =>
    simp only [wait, putWait]
    split_ifs with hless
    · exact refused (by simp) rfl
    · exact waits _
    · exact refused (by simp) rfl
    · rw [Word.sub_of_le hq.bound hq.word] at hless
      refine inr (inr ⟨Nat.le_of_not_lt hless, fun hprobe => ?_, rfl⟩)
      refine Nat.pos_of_ne_zero fun hcount => ?_
      exact hsome ⟨hcount, hprobe, henabled, Nat.le_of_not_lt hless⟩
  | read mode len recinfo =>
    simp only [wait, readWait]
    split_ifs with hless
    · exact refused (by simp) rfl
    · exact waits _
    · exact refused (by simp) rfl
    · exact inr (inr ⟨Nat.le_of_not_lt hless, trivial, rfl⟩)

theorem enter_attempts (hq : Queue s l) (hsome : ¬invalidMode p.mode → ¬p.MovesNothing s) :
    Attempts ops s stray p (p.enter ops s stray) := by
  cases p with
  | get mode count =>
    simp only [enter, ioGetrecSeq]
    split_ifs with hmode henabled
    · exact refused (by simp) rfl
    · exact refused (by simp) rfl
    · exact wait_attempts (p := .get mode count) hq henabled (hsome hmode)
  | put mode rec count internal =>
    simp only [enter, ioPutrecSeq]
    split_ifs with hmode henabled
    · exact refused (by simp) rfl
    · exact refused (by simp) rfl
    · exact wait_attempts (p := .put mode rec count internal) hq henabled (hsome hmode)
  | read mode len recinfo =>
    simp only [enter, ioRead1recSeqWithInfo]
    split_ifs with hmode henabled
    · exact refused (by simp) rfl
    · exact refused (by simp) rfl
    · exact wait_attempts (p := .read mode len recinfo) hq henabled not_false

theorem resume_attempts (hq : Queue s l) {interrupted : Bool}
    (hsome : interrupted = false → ¬p.MovesNothing s) :
    Attempts ops s stray p (p.resume ops s stray interrupted) := by
  cases p with
  | get mode count =>
    simp only [resume, getWoken]
    split_ifs with hint henabled
    · exact refused (by simp) rfl
    · exact refused (by simp) rfl
    · exact wait_attempts (p := .get mode count) hq henabled (hsome (Bool.not_eq_true _ ▸ hint))
  | put mode rec count internal =>
    simp only [resume, putWoken]
    split_ifs with hint henabled
    · exact refused (by simp) rfl
    · exact refused (by simp) rfl
    · exact wait_attempts (p := .put mode rec count internal) hq henabled
        (hsome (Bool.not_eq_true _ ▸ hint))
  | read mode len recinfo =>
    simp only [resume, readWoken]
    split_ifs with hint henabled
    · exact refused (by simp) rfl
    · exact refused (by simp) rfl
    · exact wait_attempts (p := .read mode len recinfo) hq henabled not_false

theorem minimum_pos {mode : UInt32} {count : ℕ} (h : 0 < count) : 0 < minimum mode count := by
  rw [minimum]
  split_ifs
  · exact Nat.one_pos
  · exact h

end Pending

structure Sound (x : System ι) (l : List (Node ι)) : Prop where
  queue : Queue x.stream l
  apart : ∀ a ∈ keys l, x.owner a = none
  order : ∃ gone, List.Forall₂ (Delivers ops) x.delivered gone ∧ gone ++ contents l = x.written

structure Same (u : Thread) (x y : System ι) : Prop where
  waiting : y.waiting u = x.waiting u
  owner : ∀ a, x.stream.heap a ≠ none → x.owner a = some u → y.owner a = some u
  heap : ∀ a, x.stream.heap a ≠ none → x.owner a = some u → y.stream.heap a = x.stream.heap a

namespace System

def Holds (x : System ι) (t : Thread) : Pending ι → Prop
  | .put mode rec _ internal => mode &&& iomProbe = 0 ∨ internal = true → x.Listed t rec
  | _ => True

end System

namespace Same

variable {u : Thread} {x y z : System ι}

theorem trans (h : Same u x y) (h' : Same u y z) : Same u x z where
  waiting := h'.waiting.trans h.waiting
  owner a hne ha := by
    refine h'.owner a ?_ (h.owner a hne ha)
    rw [h.heap a hne ha]
    exact hne
  heap a hne ha := by
    refine (h'.heap a ?_ (h.owner a hne ha)).trans (h.heap a hne ha)
    rw [h.heap a hne ha]
    exact hne

theorem listed (h : Same u x y) {rec : Option Addr} (hl : x.Listed u rec) : y.Listed u rec := by
  obtain ⟨l, hchain, howner⟩ := hl
  have hne (a : Addr) (ha : a ∈ keys l) : x.stream.heap a ≠ none := fun hnone =>
    hchain.fresh hnone ha
  exact ⟨l, hchain.congr fun a ha => h.heap a (hne a ha) (howner a ha),
    fun a ha => h.owner a (hne a ha) (howner a ha)⟩

theorem holds (h : Same u x y) {p : Pending ι} (hp : x.Holds u p) : y.Holds u p := by
  cases p with
  | get mode count => trivial
  | put mode rec count internal => exact fun hmode => h.listed (hp hmode)
  | read mode len recinfo => trivial

end Same

namespace System

variable {ops} {x : System ι} {t : Thread}

theorem Listed.owner {rec : Option Addr} (h : x.Listed t rec) :
    ∀ a ∈ rec.toList, x.owner a = some t := by
  obtain ⟨l, hchain, howner⟩ := h
  intro a ha
  obtain rfl : rec = some a := Option.mem_toList.mp ha
  cases l with
  | nil => cases hchain
  | cons y l =>
    obtain ⟨hy, -, -⟩ := hchain
    rw [Option.some.inj hy]
    exact howner _ (by simp)

end System

variable {ops} {x y : System ι} {t : Thread} {l : List (Node ι)} {stray : Option Addr}
  {p : Pending ι} {r : Except Fault (Progress ι)}

variable (ops) in
structure Advances (t : Thread) (x y : System ι) : Prop where
  sound : ∃ l, Sound ops y l
  others : ∀ u ≠ t, Same u x y
  holds : ∀ p, y.waiting t = some p → y.Holds t p
  trap : y.trap = x.trap

namespace Sound

theorem notMem_of_owner (h : Sound ops x l) {a : Addr} {u : Thread} (ha : x.owner a = some u) :
    a ∉ keys l := by
  intro hmem
  rw [h.apart a hmem] at ha
  cases ha

theorem congr (h : Sound ops x l) {heap' : Heap ι} (hheap : ∀ a ∈ keys l, heap' a = x.stream.heap a)
    (rs ws : UInt32)
    (hstream : y.stream = { x.stream with heap := heap', readStrategy := rs, writeStrategy := ws })
    (howner : ∀ a ∈ keys l, y.owner a = x.owner a) (hdelivered : y.delivered = x.delivered)
    (hwritten : y.written = x.written) : Sound ops y l where
  queue := hstream ▸ h.queue.congr hheap rs ws
  apart a ha := (howner a ha).trans (h.apart a ha)
  order := by
    rw [hdelivered, hwritten]
    exact h.order

theorem moves (h : Sound ops x l) {m : List (Node ι)} (hsound : Sound ops y m)
    (hwaiting : y.waiting = update x.waiting t none) (htrap : y.trap = x.trap)
    (hsame : ∀ a ∉ keys l, x.owner a ≠ some t →
      y.owner a = x.owner a ∧ y.stream.heap a = x.stream.heap a) : Advances ops t x y where
  sound := ⟨m, hsound⟩
  others u hu := by
    have hother {a : Addr} (ha : x.owner a = some u) :=
      hsame a (h.notMem_of_owner ha) fun ht => hu (Option.some.inj (ha.symm.trans ht))
    refine ⟨?_, fun a _ ha => (hother ha).1.trans ha, fun a _ ha => (hother ha).2⟩
    rw [hwaiting, update_of_ne hu]
  holds p hp := by
    rw [hwaiting, update_self] at hp
    cases hp
  trap := htrap

theorem returned (h : Sound ops x l) :
    Advances ops t x { x with waiting := update x.waiting t none } :=
  h.moves ⟨h.queue, h.apart, h.order⟩ rfl rfl fun _ _ _ => ⟨rfl, rfl⟩

theorem waits (h : Sound ops x l) (hp : x.Holds t p) :
    Advances ops t x (x.settle t p (.ok .waits)) where
  sound := ⟨l, h.queue, h.apart, h.order⟩
  others u hu := ⟨update_of_ne hu _ _, fun _ _ ha => ha, fun _ _ _ => rfl⟩
  holds p' hp' := by
    simp only [settle, update_self] at hp'
    cases hp'
    exact hp
  trap := rfl

theorem released (h : Sound ops x l) {rec : Option Addr} (hrec : x.Listed t rec) {heap' : Heap ι}
    (hheap : ∀ a ∉ rec.toList, heap' a = x.stream.heap a) :
    Advances ops t x ({ x with
      stream := { x.stream with heap := heap' }
      waiting := update x.waiting t none }.assign rec.toList none) := by
  have hnot (a : Addr) (ha : a ∈ keys l) : a ∉ rec.toList := fun hmem =>
    h.notMem_of_owner (hrec.owner a hmem) ha
  have hsound := h.congr (fun a ha => hheap a (hnot a ha)) x.stream.readStrategy
    x.stream.writeStrategy (y := { x with
      stream := { x.stream with heap := heap' }
      waiting := update x.waiting t none }.assign rec.toList none)
    rfl (fun a ha => if_neg (hnot a ha)) rfl rfl
  refine h.moves hsound rfl rfl fun a _ ha => ?_
  have hrest : a ∉ rec.toList := fun hmem => ha (hrec.owner a hmem)
  exact ⟨if_neg hrest, hheap a hrest⟩

theorem refused (h : Sound ops x l) (hp : x.Holds t p) (hr : p.Refused x.stream r) :
    Advances ops t x (x.settle t p r) := by
  obtain ⟨ret, rfl, hcode, hrec⟩ := hr
  rcases p with ⟨mode, count⟩ | ⟨mode, rec, count, internal⟩ | ⟨mode, len, recinfo⟩
  · simp only [finish, settle, account, hcode, false_and, if_false]
    exact h.returned
  · obtain rfl : ret.record = rec := hrec
    cases internal with
    | false =>
      simp only [finish, settle, account, hcode, false_and, if_false, Bool.false_eq_true]
      exact h.returned
    | true =>
      have hlisted : x.Listed t ret.record := hp (inr rfl)
      simp only [finish, ne_eq, hcode, not_false_eq_true, true_and]
      split_ifs with hprobe
      · simp only [settle, account, hcode, false_and, if_false, if_true]
        cases hret : ret.record with
        | none =>
          rw [hret] at hlisted
          exact h.released hlisted fun _ _ => rfl
        | some a =>
          rw [hret] at hlisted
          refine h.released hlisted fun b hb => update_of_ne ?_ _ _
          rintro rfl
          exact hb (by simp)
      · simp only [settle, account, hcode, false_and, if_false, if_true]
        exact h.released hlisted fun _ _ => rfl
  · simp only [finish, settle, account, hcode, false_and, if_false]
    exact h.returned

theorem delivers (h : Sound ops x l) {l₁ l₂ : List (Node ι)} (hl : l = l₁ ++ l₂)
    {deliveries : List (Delivery ι)} (hd : List.Forall₂ (Delivers ops) deliveries (contents l₁)) :
    ∃ gone, List.Forall₂ (Delivers ops) (x.delivered ++ deliveries) gone ∧
      gone ++ contents l₂ = x.written := by
  obtain ⟨gone, hgone, horder⟩ := h.order
  refine ⟨gone ++ contents l₁, List.rel_append hgone hd, ?_⟩
  rw [List.append_assoc, ← contents_append, ← hl]
  exact horder

theorem getReady (h : Sound ops x l) {mode : UInt32} {count : ℕ}
    (hready : minimum mode count ≤ x.stream.qused) (hpos : mode &&& iomProbe = 0 → 0 < count) :
    Advances ops t x (x.settle t (.get mode count) (x.stream.getReady mode count stray)) := by
  by_cases hprobe : mode &&& iomProbe = 0
  · have hmin : 0 < minimum mode count := minimum_pos (hpos hprobe)
    have hcount := h.queue.count
    obtain ⟨l₁, a, r, l₂, rfl, hk⟩ := exists_cut (l := l) (k := min count x.stream.qused)
      (by have := hpos hprobe; omega) (by omega)
    obtain ⟨s', heq, hqueue, hheap, hgot⟩ := h.queue.getReady hprobe hk stray
    have hgather := gather_along hgot
    rw [contents_relink, List.length_append, List.length_singleton] at hgather
    rw [heq]
    simp only [settle, account, hprobe, and_self, if_true, hgather, contents_fst]
    have hl : l₁ ++ (a, r) :: l₂ = l₁ ++ [(a, r)] ++ l₂ := List.append_cons _ _ _
    have hnodup := h.queue.chain.nodup
    rw [hl, keys_append, List.nodup_append] at hnodup
    refine h.moves (m := l₂) ⟨hqueue, fun b hb => ?_, h.delivers hl ?_⟩ rfl rfl fun b hb _ => ?_
    · have hb₁ : b ∉ keys (l₁ ++ [(a, r)]) := fun hmem => hnodup.2.2 b hmem b hb rfl
      refine (if_neg hb₁).trans (h.apart b ?_)
      rw [hl, keys_append]
      exact List.mem_append_right _ hb
    · rw [List.forall₂_map_left_iff, List.forall₂_same]
      exact fun _ _ => rfl
    · rw [hl, keys_append, List.mem_append, not_or] at hb
      refine ⟨if_neg hb.1, ?_⟩
      refine (congrFun hheap b).trans (update_of_ne ?_ _ _)
      rintro rfl
      exact hb.1 (by simp)
  · rw [RecordStream.getReady, if_pos hprobe]
    simp only [settle, account, pure, Except.pure, hprobe, and_false, if_false]
    exact h.returned

theorem putReady (h : Sound ops x l) {mode : UInt32} {rec : Option Addr} {count : ℕ}
    {internal : Bool} (hready : minimum mode count ≤ x.stream.qmax - x.stream.qused)
    (hpos : mode &&& iomProbe = 0 → 0 < count) (hp : x.Holds t (.put mode rec count internal)) :
    Advances ops t x (x.settle t (.put mode rec count internal)
      ((x.stream.putReady mode rec count stray).map (put mode rec count internal).finish)) := by
  by_cases hprobe : mode &&& iomProbe = 0
  · have hmin : 0 < minimum mode count := minimum_pos (hpos hprobe)
    obtain ⟨m, hchain, howner⟩ := hp (inl hprobe)
    have hdisjoint (b : Addr) (hb : b ∈ keys m) : b ∉ keys l := h.notMem_of_owner (howner b hb)
    by_cases hshort : m.length < min count (x.stream.qmax - x.stream.qused)
    · have hwalk := walk_short hchain hshort stray
      apply h.refused hp
      rw [RecordStream.putReady, Word.sub_of_le h.queue.bound h.queue.word]
      simp only [hprobe, ne_eq, not_true, if_false, hwalk, Outcome.ok_bind]
      exact ⟨_, rfl, by simp, rfl⟩
    · obtain ⟨m₁, a, r, m₂, rfl, hk⟩ := exists_cut (l := m)
        (k := min count (x.stream.qmax - x.stream.qused)) (by have := hpos hprobe; omega) (by omega)
      have hm : m₁ ++ (a, r) :: m₂ = m₁ ++ [(a, r)] ++ m₂ := List.append_cons _ _ _
      have hfront (b : Addr) (hb : b ∈ keys (m₁ ++ [(a, r)])) : b ∈ keys (m₁ ++ (a, r) :: m₂) := by
        rw [hm, keys_append]
        exact List.mem_append_left _ hb
      obtain ⟨nxtrec, s', l', heq, hqueue, hcontents, hheap⟩ := h.queue.putReady hchain
        (fun b hb => hdisjoint b (hfront b hb)) hprobe hk stray
      have hgather : gather x.stream.heap (m₁.length + 1) rec = contents (m₁ ++ [(a, r)]) := by
        rw [hm] at hchain
        obtain ⟨q, hfirst, -⟩ := hchain.split
        have := gather_along hfirst
        rwa [List.length_append, List.length_singleton] at this
      have hkeys : keys l' = keys l ++ keys (m₁ ++ [(a, r)]) := by
        rw [← contents_fst, hcontents, List.map_append, contents_fst, contents_fst]
      have hfinish (ret : Return ι) (hret : ret.code = .success) :
          (put mode rec count internal).finish (.returns ret s') = .returns ret s' := by
        cases internal with
        | false => rfl
        | true => exact if_neg fun hc => hc.1 hret
      rw [heq, Except.map, hfinish _ rfl]
      simp only [settle, account, hprobe, and_self, if_true, hgather, contents_fst]
      refine h.moves (m := l') ⟨hqueue, fun b hb => ?_, ?_⟩ rfl rfl fun b hb ht => ?_
      · rw [hkeys, List.mem_append] at hb
        rcases Classical.em (b ∈ keys (m₁ ++ [(a, r)])) with hmem | hmem
        · exact if_pos hmem
        · exact (if_neg hmem).trans (h.apart b (hb.resolve_right hmem))
      · obtain ⟨gone, hgone, horder⟩ := h.order
        refine ⟨gone, hgone, ?_⟩
        rw [hcontents, ← List.append_assoc, horder]
      · have hbm : b ∉ keys (m₁ ++ [(a, r)]) := fun hmem => ht (howner b (hfront b hmem))
        exact ⟨if_neg hbm, hheap b hb hbm⟩
  · rw [RecordStream.putReady, if_pos hprobe]
    have hfinish (ret : Return ι) :
        (put mode rec count internal).finish (.returns ret x.stream) = .returns ret x.stream := by
      cases internal with
      | false => rfl
      | true => exact if_neg fun hc => hprobe hc.2
    simp only [pure, Except.pure, Except.map, hfinish, settle, account, hprobe, and_false, if_false]
    cases internal with
    | false => exact h.returned
    | true => exact h.released (hp (inr rfl)) fun _ _ => rfl

theorem readReady (h : Sound ops x l) {mode : UInt32} {len : ℕ} {recinfo : Option ι}
    (hready : 1 ≤ x.stream.qused) :
    Advances ops t x (x.settle t (.read mode len recinfo)
      (x.stream.readReady ops mode len recinfo)) := by
  have hcount := h.queue.count
  rcases l with _ | ⟨⟨a, r⟩, l⟩
  · rw [hcount] at hready
    exact absurd hready (Nat.not_succ_le_zero 0)
  · obtain ⟨hfirst, hr, -⟩ := h.queue.chain
    rcases hread : r.iorecRead mode len with ⟨code, len', buf⟩
    by_cases hcode : code = .success
    · obtain rfl := hcode
      by_cases hprobe : mode &&& iomProbe = 0
      · obtain ⟨s', heq, hqueue, hheap⟩ :=
          h.queue.readReady ops hprobe hread recinfo
        have hl : (a, r) :: l = [(a, r)] ++ l := rfl
        rw [heq]
        simp only [settle, account, hprobe, and_self, if_true]
        refine h.moves (m := l) ⟨hqueue, fun b hb => h.apart b (List.mem_cons_of_mem _ hb),
          h.delivers hl ?_⟩ rfl rfl fun b hb _ => ⟨rfl, ?_⟩
        · exact .cons ⟨iorecRead_success hprobe hread, rfl⟩ .nil
        · exact (congrFun hheap b).trans (update_of_ne (List.ne_of_not_mem_cons hb) _ _)
      · rw [readReady, hfirst, load_eq hr, Outcome.ok_bind]
        simp only [hread, ne_eq, not_true, if_false, hprobe, not_false_eq_true, if_true,
          settle, account, pure, Except.pure, and_false]
        exact h.returned
    · apply h.refused (p := .read mode len recinfo) trivial
      rw [readReady, hfirst, load_eq hr, Outcome.ok_bind]
      simp only [hread, ne_eq, hcode, not_false_eq_true, if_true]
      exact ⟨_, rfl, hcode, rfl⟩

theorem settle (h : Sound ops x l) (hp : x.Holds t p) (hr : p.Attempts ops x.stream stray r) :
    Advances ops t x (x.settle t p r) := by
  rcases hr with rfl | hrefused | ⟨hready, hnonempty, rfl⟩
  · exact h.waits hp
  · exact h.refused hp hrefused
  · cases p with
    | get mode count =>
      rw [map_finish fun progress => by cases progress <;> rfl]
      exact h.getReady hready hnonempty
    | put mode rec count internal => exact h.putReady hready hnonempty hp
    | read mode len recinfo =>
      rw [map_finish fun progress => by cases progress <;> rfl]
      exact h.readReady hready

end Sound

end MachUS.Records
