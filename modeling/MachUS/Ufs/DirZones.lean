import Mathlib.Data.Int.Notation
import Mathlib.Data.List.Basic

namespace MachUS.Ufs

open Function List

def dirHashSize : ℕ := 1024

def smallNameLen : ℤ := 12

def mediumNameLen : ℤ := 32

inductive ZoneName where
  | ufsHashTable
  | ufsHashEntry
  | dirHashEntry
  | smallName
  | mediumName
  | bigName
  deriving DecidableEq

structure Zone where
  freeElements : List ℕ
  curSize : ℕ
  maxSize : ℕ
  elemSize : ℕ
  allocSize : ℕ
  sized : 0 < elemSize ∧ elemSize ≤ allocSize

namespace Zone

variable (z : Zone)

def add (element : ℕ) : Zone := { z with freeElements := element :: z.freeElements }

def remove : Option (Zone × ℕ) :=
  match z.freeElements with
  | [] => none
  | e :: es => some ({ z with freeElements := es }, e)

def zcram (newmem : ℕ) : Zone :=
  ((range (z.allocSize / z.elemSize)).map fun i => newmem + i * z.elemSize).foldl add
    { z with curSize := z.curSize + z.allocSize }

def Room : Prop := z.curSize + z.allocSize ≤ z.maxSize

instance : Decidable z.Room := inferInstanceAs (Decidable (_ ≤ _))

def zalloc (vmAllocate : Option ℕ) : Option (Zone × ℕ) :=
  match z.remove with
  | some r => some r
  | none => if z.Room then vmAllocate.bind fun newmem => (z.zcram newmem).remove else none

end Zone

structure UfsHashEntry where
  address : ℕ
  name : ℕ
  nameLength : ℤ

structure DirHashEntry where
  address : ℕ
  refCount : ℤ
  hashTable : Option (ℕ × List (List UfsHashEntry))

structure DirZones where
  zone : ZoneName → Zone
  dirHashTable : ℕ → List DirHashEntry
  nextDirectoryIndex : ℕ

def nameZone (length : ℤ) : ZoneName :=
  if length < smallNameLen then .smallName
  else if length < mediumNameLen then .mediumName
  else .bigName

namespace DirZones

variable (m : DirZones)

def add (n : ZoneName) (element : ℕ) : DirZones :=
  { m with zone := update m.zone n ((m.zone n).add element) }

def remove (n : ZoneName) : Option (DirZones × ℕ) :=
  (m.zone n).remove.map fun (z, e) => ({ m with zone := update m.zone n z }, e)

def hashEntryRelease (e : UfsHashEntry) : DirZones :=
  (m.add (nameZone e.nameLength) e.name).add .ufsHashEntry e.address

def directoryRelease (d : DirHashEntry) : DirZones :=
  match d.hashTable with
  | none => m
  | some (address, chains) => (chains.flatten.foldl hashEntryRelease m).add .ufsHashTable address

def sweepBucket (m : DirZones) : List DirHashEntry → List DirHashEntry × DirZones
  | [] => ([], m)
  | d :: ds =>
    if d.refCount = 0 then sweepBucket ((m.directoryRelease d).add .dirHashEntry d.address) ds
    else
      let r := sweepBucket m ds
      (d :: r.1, r.2)

def swept : ℕ := if dirHashSize ≤ m.nextDirectoryIndex + 1 then 0 else m.nextDirectoryIndex + 1

def sweep : DirZones :=
  let r := sweepBucket { m with nextDirectoryIndex := m.swept } (m.dirHashTable m.swept)
  { r.2 with dirHashTable := update r.2.dirHashTable m.swept r.1 }

inductive Progress where
  | sweeping (m : DirZones)
  | got (m : DirZones) (element : ℕ)
  | panicked

def turn (n : ZoneName) (vmAllocate : Option ℕ) : Progress :=
  if (m.zone n).Room then
    match (m.zone n).zalloc vmAllocate with
    | some (z, e) => .got { m with zone := update m.zone n z } e
    | none => .panicked
  else
    match m.sweep.remove n with
    | some (m, e) => .got m e
    | none => .sweeping m.sweep

def dirAlloc (n : ZoneName) (vmAllocate : Option ℕ) : ℕ → Progress
  | 0 =>
    match m.remove n with
    | some (m, e) => .got m e
    | none => .sweeping m
  | k + 1 =>
    match dirAlloc n vmAllocate k with
    | .sweeping m => m.turn n vmAllocate
    | r => r

def addAll (l : List (ZoneName × ℕ)) : DirZones := l.foldl (fun m p => m.add p.1 p.2) m

end DirZones

namespace UfsHashEntry

def elements (e : UfsHashEntry) : List (ZoneName × ℕ) :=
  [(nameZone e.nameLength, e.name), (.ufsHashEntry, e.address)]

end UfsHashEntry

def DirHashEntry.elements (d : DirHashEntry) : List (ZoneName × ℕ) :=
  (match d.hashTable with
    | none => []
    | some (address, chains) =>
      chains.flatten.flatMap UfsHashEntry.elements ++ [(.ufsHashTable, address)]) ++
    [(.dirHashEntry, d.address)]

namespace DirZones

variable {m : DirZones} {n : ZoneName}

theorem addAll_append {k l : List (ZoneName × ℕ)} : m.addAll (k ++ l) = (m.addAll k).addAll l :=
  foldl_append ..

theorem release_eq (d : DirHashEntry) :
    (m.directoryRelease d).add .dirHashEntry d.address = m.addAll d.elements := by
  have hentries (es : List UfsHashEntry) (m : DirZones) :
      es.foldl hashEntryRelease m = m.addAll (es.flatMap UfsHashEntry.elements) := by
    induction es generalizing m with
    | nil => rfl
    | cons e es ih =>
      rw [foldl_cons, ih, flatMap_cons, addAll_append]
      rfl
  unfold directoryRelease DirHashEntry.elements
  cases d.hashTable with
  | none => rfl
  | some t =>
    obtain ⟨address, chains⟩ := t
    simp only [hentries, addAll_append]
    rfl

theorem sweepBucket_eq (ds : List DirHashEntry) : sweepBucket m ds =
    (ds.filter fun d => d.refCount ≠ 0,
      m.addAll ((ds.filter fun d => d.refCount = 0).flatMap DirHashEntry.elements)) := by
  induction ds generalizing m with
  | nil => rfl
  | cons d ds ih =>
    rw [sweepBucket]
    by_cases hd : d.refCount = 0
    · rw [if_pos hd, ih, release_eq, filter_cons_of_neg (by simp [hd]),
        filter_cons_of_pos (by simp [hd]), flatMap_cons, addAll_append]
    · rw [if_neg hd, ih, filter_cons_of_pos (by simp [hd]), filter_cons_of_neg (by simp [hd])]

theorem addAll_frame (l : List (ZoneName × ℕ)) : (m.addAll l).dirHashTable = m.dirHashTable ∧
    (m.addAll l).nextDirectoryIndex = m.nextDirectoryIndex ∧
      (((m.addAll l).zone n).Room ↔ (m.zone n).Room) := by
  induction l generalizing m with
  | nil => exact ⟨rfl, rfl, Iff.rfl⟩
  | cons p l ih =>
    obtain ⟨htable, hnext, hroom⟩ := ih (m := m.add p.1 p.2)
    refine ⟨htable, hnext, hroom.trans ?_⟩
    change (update m.zone p.1 _ n).Room ↔ _
    rcases eq_or_ne n p.1 with rfl | hne
    · rw [update_self]
      exact Iff.rfl
    · rw [update_of_ne hne]

theorem addAll_free (l : List (ZoneName × ℕ)) : ((m.addAll l).zone n).freeElements = [] ↔
    (m.zone n).freeElements = [] ∧ ∀ a, (n, a) ∉ l := by
  induction l generalizing m with
  | nil => simp [addAll]
  | cons p l ih =>
    change ((((m.add p.1 p.2).addAll l).zone n).freeElements = []) ↔ _
    rw [ih]
    change (update m.zone p.1 _ n).freeElements = [] ∧ _ ↔ _
    rcases eq_or_ne n p.1 with rfl | hne
    · rw [update_self]
      refine iff_of_false (fun h => cons_ne_nil _ _ h.1) fun h => h.2 p.2 mem_cons_self
    · rw [update_of_ne hne]
      refine and_congr_right fun _ => forall_congr' fun a => not_congr ⟨mem_cons_of_mem _, fun h => ?_⟩
      exact (mem_cons.mp h).resolve_left fun heq => hne (congrArg Prod.fst heq)

theorem swept_lt : m.swept < dirHashSize := by
  unfold swept
  split_ifs with h
  · decide
  · omega

structure Waits (m : DirZones) (n : ZoneName) : Prop where
  empty : (m.zone n).freeElements = []
  full : ¬ (m.zone n).Room

theorem sweep_table (b : ℕ) : m.sweep.dirHashTable b =
    if b = m.swept then (m.dirHashTable b).filter fun d => d.refCount ≠ 0 else m.dirHashTable b := by
  simp only [sweep, sweepBucket_eq]
  rw [(addAll_frame (n := .bigName) _).1]
  split_ifs with hb
  · rw [hb, update_self]
  · exact update_of_ne hb ..

theorem sweep_next : m.sweep.nextDirectoryIndex = m.swept := by
  simp only [sweep, sweepBucket_eq]
  exact (addAll_frame (n := .bigName) _).2.1

theorem sweep_room : (m.sweep.zone n).Room ↔ (m.zone n).Room := by
  simp only [sweep, sweepBucket_eq]
  exact (addAll_frame _).2.2

theorem sweep_free : (m.sweep.zone n).freeElements = [] ↔ (m.zone n).freeElements = [] ∧
    ∀ d ∈ m.dirHashTable m.swept, d.refCount = 0 → ∀ a, (n, a) ∉ d.elements := by
  simp only [sweep, sweepBucket_eq]
  refine (addAll_free _).trans (and_congr_right fun _ => ?_)
  constructor
  · intro h d hd hzero a ha
    exact h a (mem_flatMap.mpr ⟨d, mem_filter.mpr ⟨hd, decide_eq_true hzero⟩, ha⟩)
  · intro h a ha
    obtain ⟨d, hd, hmem⟩ := mem_flatMap.mp ha
    obtain ⟨hd, hzero⟩ := mem_filter.mp hd
    exact h d hd (of_decide_eq_true hzero) a hmem

theorem remove_eq : m.remove n = none ↔ (m.zone n).freeElements = [] := by
  unfold remove Zone.remove
  cases (m.zone n).freeElements with
  | nil => simp
  | cons e es => simp

variable {vmAllocate : Option ℕ}

theorem turn_of_waits (h : m.Waits n) :
    m.turn n vmAllocate = match m.sweep.remove n with
      | some (m', e) => .got m' e
      | none => .sweeping m.sweep := by
  rw [turn, if_neg h.full]

theorem sweep_waits (h : m.Waits n) (hnone : m.sweep.remove n = none) : m.sweep.Waits n :=
  ⟨remove_eq.mp hnone, fun hroom => h.full (sweep_room.mp hroom)⟩

def Releasable (m : DirZones) (n : ZoneName) (b : ℕ) : Prop :=
  ∃ d ∈ m.dirHashTable b, d.refCount = 0 ∧ ∃ a, (n, a) ∈ d.elements

def turnsTo (m : DirZones) (b : ℕ) : ℕ :=
  if m.nextDirectoryIndex < b then b - m.nextDirectoryIndex
  else dirHashSize + b - min m.nextDirectoryIndex (dirHashSize - 1)

variable {b : ℕ}

theorem turnsTo_pos (hb : b < dirHashSize) : 0 < m.turnsTo b := by
  unfold turnsTo dirHashSize at *
  split_ifs <;> omega

theorem turnsTo_sweep (hb : b < dirHashSize) (hne : b ≠ m.swept) :
    m.sweep.turnsTo b < m.turnsTo b := by
  unfold turnsTo
  rw [sweep_next]
  unfold swept dirHashSize at *
  split_ifs at hne ⊢ <;> omega

theorem turnsTo_le (hb : b < dirHashSize) : m.turnsTo b ≤ dirHashSize := by
  unfold turnsTo dirHashSize at *
  split_ifs <;> omega

theorem turn_toward (vmAllocate : Option ℕ) (h : m.Waits n) (hb : b < dirHashSize)
    (hrel : m.Releasable n b) : (∃ m' e, m.turn n vmAllocate = .got m' e) ∨
      m.turn n vmAllocate = .sweeping m.sweep ∧ m.sweep.Waits n ∧ m.sweep.Releasable n b ∧
        m.sweep.turnsTo b < m.turnsTo b := by
  rw [turn_of_waits h]
  cases hremove : m.sweep.remove n with
  | some r => exact .inl ⟨r.1, r.2, rfl⟩
  | none =>
    obtain ⟨d, hd, hzero, a, ha⟩ := hrel
    have hne : b ≠ m.swept := by
      rintro rfl
      exact (sweep_free.mp (remove_eq.mp hremove)).2 d hd hzero a ha
    refine .inr ⟨rfl, sweep_waits h hremove, ⟨d, ?_, hzero, a, ha⟩, turnsTo_sweep hb hne⟩
    rw [sweep_table, if_neg hne]
    exact hd

theorem dirAlloc_toward (vmAllocate : Option ℕ) (h : m.Waits n) (hb : b < dirHashSize)
    (hrel : m.Releasable n b) (k : ℕ) : (∃ j ≤ k, ∃ m' e, m.dirAlloc n vmAllocate j = .got m' e) ∨
      ∃ m', m.dirAlloc n vmAllocate k = .sweeping m' ∧ m'.Waits n ∧ m'.Releasable n b ∧
        m'.turnsTo b + k ≤ m.turnsTo b := by
  induction k with
  | zero =>
    refine .inr ⟨m, ?_, h, hrel, Nat.le_refl _⟩
    rw [dirAlloc, remove_eq.mpr h.empty]
  | succ k ih =>
    rcases ih with ⟨j, hj, hgot⟩ | ⟨m', hm', hwaits, hrel', hcount⟩
    · exact .inl ⟨j, by omega, hgot⟩
    · have hstep : m.dirAlloc n vmAllocate (k + 1) = m'.turn n vmAllocate := by
        rw [dirAlloc, hm']
      rcases turn_toward vmAllocate hwaits hb hrel' with
        ⟨m'', e, hgot⟩ | ⟨hturn, hwaits', hrel'', hless⟩
      · exact .inl ⟨k + 1, Nat.le_refl _, m'', e, hstep.trans hgot⟩
      · exact .inr ⟨m'.sweep, hstep.trans hturn, hwaits', hrel'', by omega⟩

theorem dirAlloc_of_releasable (vmAllocate : Option ℕ) (h : m.Waits n) (hb : b < dirHashSize)
    (hrel : m.Releasable n b) : ∃ k ≤ dirHashSize, ∃ m' e, m.dirAlloc n vmAllocate k = .got m' e := by
  have hle := turnsTo_le (m := m) hb
  rcases dirAlloc_toward vmAllocate h hb hrel dirHashSize with
    hgot | ⟨m', -, -, -, hcount⟩
  · exact hgot
  · have hpos := turnsTo_pos (m := m') hb
    omega

theorem zcram_remove (z : Zone) (newmem : ℕ) : ∃ r, (z.zcram newmem).remove = some r := by
  have hfold (l : List ℕ) (y : Zone) : (l.foldl Zone.add y).freeElements = l.reverse ++ y.freeElements := by
    induction l generalizing y with
    | nil => rfl
    | cons e l ih =>
      rw [foldl_cons, ih, reverse_cons, append_assoc]
      rfl
  have hpos : 0 < z.allocSize / z.elemSize := Nat.div_pos z.sized.2 z.sized.1
  have hne : (z.zcram newmem).freeElements ≠ [] := by
    rw [Zone.zcram, hfold]
    refine append_ne_nil_of_left_ne_nil (fun h => ?_) _
    have hlength := congrArg length h
    simp only [length_reverse, length_map, length_range, length_nil] at hlength
    omega
  unfold Zone.remove
  cases hfree : (z.zcram newmem).freeElements with
  | nil => exact absurd hfree hne
  | cons e es => exact ⟨_, rfl⟩

structure Stuck (m : DirZones) (n : ZoneName) : Prop where
  waits : m.Waits n
  held : ∀ b < dirHashSize, ¬ m.Releasable n b

theorem Stuck.turn (vmAllocate : Option ℕ) (h : m.Stuck n) :
    m.turn n vmAllocate = .sweeping m.sweep ∧ m.sweep.Stuck n := by
  have hnone : m.sweep.remove n = none := by
    refine remove_eq.mpr (sweep_free.mpr ⟨h.waits.empty, fun d hd hzero a ha => ?_⟩)
    exact h.held m.swept swept_lt ⟨d, hd, hzero, a, ha⟩
  refine ⟨?_, sweep_waits h.waits hnone, fun b hb ⟨d, hd, hzero, ha⟩ => ?_⟩
  · rw [turn_of_waits h.waits, hnone]
  · refine h.held b hb ⟨d, ?_, hzero, ha⟩
    rw [sweep_table] at hd
    split_ifs at hd
    · exact mem_of_mem_filter hd
    · exact hd

theorem Stuck.forever (vmAllocate : Option ℕ) (h : m.Stuck n) (k : ℕ) :
    ∃ m', m.dirAlloc n vmAllocate k = .sweeping m' ∧ m'.Stuck n := by
  induction k with
  | zero =>
    refine ⟨m, ?_, h⟩
    rw [dirAlloc, remove_eq.mpr h.waits.empty]
  | succ k ih =>
    obtain ⟨m', hm', hstuck⟩ := ih
    obtain ⟨hturn, hstuck'⟩ := hstuck.turn vmAllocate
    refine ⟨m'.sweep, ?_, hstuck'⟩
    rw [dirAlloc, hm']
    exact hturn

def Available (m : DirZones) (n : ZoneName) (vmAllocate : Option ℕ) : Prop :=
  (m.zone n).freeElements ≠ [] ∨ (m.zone n).Room ∧ vmAllocate ≠ none ∨
    ¬ (m.zone n).Room ∧ ∃ b < dirHashSize, m.Releasable n b

theorem got_iff : (∃ k m' e, m.dirAlloc n vmAllocate k = .got m' e) ↔ m.Available n vmAllocate := by
  by_cases hfree : (m.zone n).freeElements = []
  · have hnone : m.remove n = none := remove_eq.mpr hfree
    by_cases hroom : (m.zone n).Room
    · cases hgrant : vmAllocate with
      | none =>
        have hpanic (k : ℕ) : ∀ m' e, m.dirAlloc n none k ≠ .got m' e := by
          have hturn : m.turn n none = .panicked := by
            have hzone : (m.zone n).remove = none := by
              simpa only [remove, Option.map_eq_none_iff] using hnone
            simp only [turn, if_pos hroom, Zone.zalloc, hzone, Option.bind_none]
          have hafter (k : ℕ) : m.dirAlloc n none (k + 1) = .panicked := by
            induction k with
            | zero => rw [dirAlloc, dirAlloc, hnone, ← hturn]
            | succ k ih => rw [dirAlloc, ih]
          intro m' e h
          cases k with
          | zero =>
            rw [dirAlloc, hnone] at h
            cases h
          | succ k =>
            rw [hafter] at h
            cases h
        refine iff_of_false (fun ⟨k, m', e, h⟩ => hpanic k m' e h) ?_
        rintro (h | ⟨-, h⟩ | ⟨h, -⟩)
        · exact h hfree
        · exact h rfl
        · exact h hroom
      | some newmem =>
        refine iff_of_true ?_ (.inr (.inl ⟨hroom, Option.some_ne_none _⟩))
        have hzone : (m.zone n).remove = none := by
          simpa only [remove, Option.map_eq_none_iff] using hnone
        obtain ⟨r, hr⟩ := zcram_remove (m.zone n) newmem
        refine ⟨1, { m with zone := update m.zone n r.1 }, r.2, ?_⟩
        rw [dirAlloc, dirAlloc, hnone]
        simp only [turn, if_pos hroom, Zone.zalloc, hzone, Option.bind_some, hr]
    · by_cases hrel : ∃ b < dirHashSize, m.Releasable n b
      · refine iff_of_true ?_ (.inr (.inr ⟨hroom, hrel⟩))
        obtain ⟨b, hb, hrel⟩ := hrel
        obtain ⟨k, -, hgot⟩ :=
          dirAlloc_of_releasable vmAllocate ⟨hfree, hroom⟩ hb hrel
        exact ⟨k, hgot⟩
      · have hstuck : m.Stuck n := ⟨⟨hfree, hroom⟩, fun b hb h => hrel ⟨b, hb, h⟩⟩
        refine iff_of_false (fun ⟨k, m', e, h⟩ => ?_) ?_
        · obtain ⟨m'', hm'', -⟩ := hstuck.forever vmAllocate k
          rw [hm''] at h
          cases h
        · rintro (h | ⟨h, -⟩ | ⟨-, h⟩)
          · exact h hfree
          · exact hroom h
          · exact hrel h
  · refine iff_of_true ?_ (.inl hfree)
    cases hremove : m.remove n with
    | none => exact absurd (remove_eq.mp hremove) hfree
    | some r =>
      refine ⟨0, r.1, r.2, ?_⟩
      rw [dirAlloc, hremove]

def Keeps (m m' : DirZones) : Prop := ∀ b,
  (m'.dirHashTable b).filter (fun d => d.refCount ≠ 0) =
    (m.dirHashTable b).filter fun d => d.refCount ≠ 0

def Progress.cache : Progress → Option DirZones
  | sweeping m => some m
  | got m _ => some m
  | panicked => none

theorem sweep_keeps : m.Keeps m.sweep := by
  intro b
  rw [sweep_table]
  split_ifs
  · rw [filter_filter]
    simp only [Bool.and_self]
  · rfl

variable {m' : DirZones}

theorem remove_table {e : ℕ} (h : m.remove n = some (m', e)) :
    m'.dirHashTable = m.dirHashTable := by
  obtain ⟨r, -, heq⟩ := Option.map_eq_some_iff.mp h
  cases heq
  rfl

theorem turn_keeps (h : m' ∈ (m.turn n vmAllocate).cache) : m.Keeps m' := by
  unfold turn at h
  split_ifs at h
  · cases hz : (m.zone n).zalloc vmAllocate with
    | none =>
      rw [hz] at h
      cases h
    | some r =>
      rw [hz] at h
      cases h
      exact fun _ => rfl
  · cases hremove : m.sweep.remove n with
    | none =>
      rw [hremove] at h
      cases h
      exact sweep_keeps
    | some r =>
      rw [hremove] at h
      cases h
      intro b
      rw [remove_table hremove]
      exact sweep_keeps b

theorem dirAlloc_keeps (k : ℕ) (h : m' ∈ (m.dirAlloc n vmAllocate k).cache) : m.Keeps m' := by
  induction k generalizing m' with
  | zero =>
    rw [dirAlloc] at h
    cases hremove : m.remove n with
    | none =>
      rw [hremove] at h
      cases h
      exact fun _ => rfl
    | some r =>
      rw [hremove] at h
      cases h
      intro b
      rw [remove_table hremove]
  | succ k ih =>
    rw [dirAlloc] at h
    cases hr : m.dirAlloc n vmAllocate k with
    | sweeping x =>
      rw [hr] at h
      have hx := @ih x (by rw [hr]; rfl)
      exact fun b => (turn_keeps h b).trans (hx b)
    | got x e =>
      rw [hr] at h
      exact ih (by rw [hr]; exact h)
    | panicked =>
      rw [hr] at h
      cases h

theorem dirAlloc_terminates_iff (m : DirZones) (n : ZoneName) (vmAllocate : Option ℕ) :
    ((∃ k m' e, m.dirAlloc n vmAllocate k = .got m' e) ∧
      ∀ k, ∀ m' ∈ (m.dirAlloc n vmAllocate k).cache, m.Keeps m') ↔ m.Available n vmAllocate :=
  ⟨fun h => got_iff.mp h.1, fun h => ⟨got_iff.mpr h, fun k _ => dirAlloc_keeps k⟩⟩

def scanning : DirZones where
  zone n := ⟨[], 262144, 262144, if n = .ufsHashEntry then 28 else 12, 65536, by split <;> decide⟩
  dirHashTable b :=
    if b = 5 then
      [⟨1, 1, some (2, [(range 9360).map fun i => ⟨65536 + 28 * i, 524288 + 12 * i, 5⟩])⟩]
    else []
  nextDirectoryIndex := 0

theorem scan_never_ends :
    ¬ ∃ k m' e, scanning.dirAlloc .ufsHashEntry (some 4096) k = .got m' e := by
  have hstuck : scanning.Stuck .ufsHashEntry := by
    refine ⟨⟨rfl, by decide⟩, fun b _ ⟨d, hd, hzero, _⟩ => ?_⟩
    simp only [scanning] at hd
    split_ifs at hd
    · obtain rfl := mem_singleton.mp hd
      cases hzero
    · cases hd
  rintro ⟨k, m', e, h⟩
  obtain ⟨m'', hm'', -⟩ := hstuck.forever (some 4096) k
  rw [hm''] at h
  cases h

end DirZones

end MachUS.Ufs
