import MachUS.Auth.LineFormat
import Mathlib.Data.List.TakeWhile

namespace MachUS.Auth

open Text List Nat Groups GroupRecord Function

structure LoadableRecord (r : GroupRecord) : Prop extends CleanRecord r where
  hashed : 0 ≤ hashName 32 r.groupName.bytes
  range : r.groupId.toNat < groupIdMax

theorem linePrefix_length (r : GroupRecord) : (linePrefix r).length ≤ 346 := by
  have hname := r.groupName.fits
  have hfull := r.fullName.fits
  have hid := formatId_length r.groupId
  have howner := formatId_length r.ownerId
  simp [linePrefix]
  omega

theorem ids_length {ids : List GroupId} (hlen : ids.length ≤ membersMax)
    (h : ∀ id ∈ ids, (formatId id).length < memIdSize) : (idsText ids).length ≤ 160 := by
  have := idsText_length h
  simp only [membersMax, memIdSize] at hlen this
  omega

namespace CleanRecord

variable {r : GroupRecord}

section

variable (h : CleanRecord r)

include h

theorem lineBody_length : (lineBody r).length + 1 < inputLineMax - 1 := by
  have hprefix := linePrefix_length r
  have hmemberships := ids_length h.memberships.1 h.memberships.2
  have hmembers := ids_length h.members.1 h.members.2
  have hword : r.passWord.bytes.length = 16 := r.passWord.size
  have hmiddle : (middleText r).length ≤ 160 := by
    rw [middleText]
    split_ifs
    · omega
    · exact hmembers
  simp [lineBody, inputLineMax]
  omega

theorem mem_middleText {c : UInt8} (hc : c ∈ middleText r) : c ≠ 0 ∧ c ≠ newline := by
  rw [middleText] at hc
  split_ifs at hc with ht
  · obtain ⟨-, h0, hnl⟩ := h.primary ht
    exact ⟨fun he => h0 (he ▸ hc), fun he => hnl (he ▸ hc)⟩
  · exact ⟨(idsText_mem hc).1, (idsText_mem hc).2.2⟩

theorem mem_lineBody {c : UInt8} (hc : c ∈ lineBody r) : c ≠ 0 ∧ c ≠ newline := by
  have hcolon : colon ≠ 0 ∧ colon ≠ newline := by decide
  have hletter : typeLetter r.groupType ≠ 0 ∧ typeLetter r.groupType ≠ newline := by
    rw [typeLetter]
    split_ifs <;> decide
  simp only [lineBody, linePrefix, mem_append, mem_cons, not_mem_nil, or_false] at hc
  rcases hc with (hc | rfl | hc | rfl | rfl | rfl | hc | rfl | hc | rfl) | hc | rfl | hc | rfl
  · exact ⟨fun he => r.groupName.terminated (he ▸ hc), fun he => h.groupName.newline (he ▸ hc)⟩
  · exact hcolon
  · exact ⟨(formatId_mem hc).1, (formatId_mem hc).2.2.2⟩
  · exact hcolon
  · exact hletter
  · exact hcolon
  · exact ⟨fun he => r.fullName.terminated (he ▸ hc), fun he => h.fullName.newline (he ▸ hc)⟩
  · exact hcolon
  · exact ⟨(formatId_mem hc).1, (formatId_mem hc).2.2.2⟩
  · exact hcolon
  · exact h.mem_middleText hc
  · exact hcolon
  · exact ⟨(idsText_mem hc).1, (idsText_mem hc).2.2⟩
  · exact hcolon

theorem newline_notMem : newline ∉ lineBody r :=
  fun hc => (h.mem_lineBody hc).2 rfl

theorem outputLine_eq_ok : outputLine r = .ok (lineBody r ++ [newline]) := by
  have hmiddle : middleField r = .ok (middleText r) := by
    rw [middleField, middleText]
    split_ifs
    · rfl
    · exact memIds_eq_ok h.members.2
  have hline : linePrefix r ++ (middleText r ++ colon :: (idsText r.memberships ++
      [colon, newline])) = lineBody r ++ [newline] := by
    simp [lineBody]
  have hlen := h.lineBody_length
  rw [outputLine, hmiddle, Outcome.ok_bind, memIds_eq_ok h.memberships.2, Outcome.ok_bind]
  simp only [hline]
  rw [if_pos]
  simp only [inputLineMax, length_append, length_singleton] at hlen ⊢
  omega

theorem fputs_line : fputs (lineBody r ++ [newline]) = lineBody r ++ [newline] := by
  rw [fputs, takeWhile_eq_self_iff]
  intro c hc
  rcases mem_append.mp hc with hc | hc
  · simpa using (h.mem_lineBody hc).1
  · rw [mem_singleton.mp hc]
    decide

theorem head?_lineBody (rest : Bytes) : (lineBody r ++ rest).head? ≠ some hash := by
  have hcomment := h.comment
  rw [lineBody, linePrefix]
  cases hb : r.groupName.bytes with
  | nil => simp [colon, hash]
  | cons c cs => simpa [hb] using hcomment

end

end CleanRecord

def recordLines (rs : List GroupRecord) : Bytes :=
  (rs.map fun r => lineBody r ++ [newline]).flatten

theorem Groups.saveRecords_eq_ok {g : Groups} (hg : g.Coherent)
    (hclean : ∀ a r, g.heap a = some r → CleanRecord r) (ids : List GroupId) :
    g.saveRecords ids = .ok (recordLines (ids.filterMap g.recordOf)) := by
  induction ids with
  | nil => rfl
  | cons id ids ih =>
    rw [saveRecords]
    cases hm : g.groupIdMap id with
    | none =>
      have hnone : g.recordOf id = none := by
        rw [recordOf, hm]
        rfl
      rw [filterMap_cons_none hnone]
      exact ih
    | some a =>
      obtain ⟨r, hr, -⟩ := hg.mapped id a hm
      have hsome : g.recordOf id = some r := by
        rw [recordOf, hm]
        exact hr
      have hr' := hclean a r hr
      rw [filterMap_cons_some hsome]
      simp only [deref_eq_ok.mpr hr, Outcome.ok_bind, hr'.outputLine_eq_ok, ih, hr'.fputs_line]
      rfl

theorem fgets_line {x : Bytes} {n : ℕ} (hx : newline ∉ x) (hlen : x.length < n) (file : Bytes) :
    fgets n (x ++ newline :: file) = (x ++ [newline], file) := by
  induction x generalizing n with
  | nil =>
    obtain ⟨n, rfl⟩ := exists_eq_succ_of_ne_zero (ne_of_gt hlen)
    simp [fgets]
  | cons c x ih =>
    obtain ⟨n, rfl⟩ := exists_eq_succ_of_ne_zero (ne_of_gt (zero_lt_of_lt hlen))
    have hc : c ≠ newline := by
      rintro rfl
      simp at hx
    rw [cons_append, fgets, if_neg hc, ih (fun h => hx (by simp [h])) (by simpa using hlen)]
    rfl

namespace Loading

variable {k : Kernel} {l : Loading} {file : Bytes} {fuel : ℕ}

theorem lines_line {x : Bytes} {l' : Loading} (hx : newline ∉ x)
    (hlen : x.length < inputLineMax - 1) (hline : l.line k (x ++ [newline]) = .ok (true, l')) :
    lines k (fuel + 1) l (x ++ newline :: file) = lines k fuel l' file := by
  rw [lines, if_neg (by simp), fgets_line hx hlen, hline]
  rfl

theorem line_comment {x : Bytes} (hx : x.head? = some hash) :
    l.line k (x ++ [newline]) =
      .ok (true, { l with buffer := fillBuffer l.buffer (x ++ [newline]) }) := by
  have hhead : (fillBuffer l.buffer (x ++ [newline])).head? = some hash := by
    cases x with
    | nil => cases hx
    | cons c x => simpa [fillBuffer] using hx
  rw [line, if_pos hhead]

theorem line_record {r : GroupRecord} (h : LoadableRecord r) {a : Addr}
    (ha : k.record l.allocated = some a) (hfree : l.groups.heap a = none) :
    l.line k (lineBody r ++ [newline]) =
      .ok (true, ⟨fillBuffer l.buffer (lineBody r ++ [newline]), l.allocated + 1,
        l.groups.mapRecord a (saved r)⟩) := by
  have hfill : fillBuffer l.buffer (lineBody r ++ [newline]) =
      lineBody r ++ (newline :: 0 :: l.buffer.drop ((lineBody r ++ [newline]).length + 1)) := by
    simp [fillBuffer]
  have hhead : (fillBuffer l.buffer (lineBody r ++ [newline])).head? ≠ some hash := by
    rw [hfill]
    exact h.head?_lineBody _
  have hread : readRecord (fillBuffer l.buffer (lineBody r ++ [newline])) = .ok (saved r) := by
    rw [hfill]
    exact readRecord_eq_ok h.toCleanRecord _
  have hslot : l.groups.idSlot (saved r).groupId = .ok (l.groups.groupIdMap r.groupId) :=
    idSlot_eq_ok.mpr ⟨h.range, rfl⟩
  rw [line, if_neg hhead, ha]
  simp only [hfree, Option.isSome_none, Bool.false_eq_true, if_false, hread, Outcome.ok_bind, hslot]

theorem lines_comments {cs : List Bytes}
    (h : ∀ c ∈ cs, c.head? = some hash ∧ newline ∉ c ∧ c.length < inputLineMax - 1) :
    ∃ buffer, lines k (cs.length + fuel) l ((cs.map (· ++ [newline])).flatten ++ file) =
      lines k fuel { l with buffer := buffer } file := by
  induction cs generalizing l with
  | nil => exact ⟨l.buffer, by simp⟩
  | cons c cs ih =>
    obtain ⟨hhead, hc, hlen⟩ := h c (by simp)
    obtain ⟨buffer, hrest⟩ := ih (l := { l with buffer := fillBuffer l.buffer (c ++ [newline]) })
      fun x hx => h x (by simp [hx])
    refine ⟨buffer, ?_⟩
    rw [← hrest, length_cons, add_right_comm]
    simp only [map_cons, flatten_cons, append_assoc, cons_append, nil_append]
    exact lines_line hc hlen (line_comment hhead)

structure Holds (f : ℕ → Addr) (l : Loading) (rs : List GroupRecord) : Prop where
  allocated : l.allocated = rs.length
  heap : ∀ i, l.groups.heap (f i) = rs[i]?.map saved
  groupIdMap : ∀ id a, l.groups.groupIdMap id = some a ↔
    ∃ i r, rs[i]? = some r ∧ r.groupId = id ∧ a = f i
  names : l.groups.names = NameTable.init

theorem Holds.append {f : ℕ → Addr} (hf : Injective f) {rs : List GroupRecord}
    {r : GroupRecord} (h : l.Holds f rs) (hr : r.groupId ∉ rs.map groupId)
    (buffer : Bytes) :
    Holds f ⟨buffer, l.allocated + 1, l.groups.mapRecord (f l.allocated) (saved r)⟩
      (rs ++ [r]) where
  allocated := by simp [h.allocated]
  heap := by
    intro i
    rw [h.allocated]
    simp only [mapRecord, setRecord]
    by_cases hi : i = rs.length
    · subst hi
      simp
    · rw [update_of_ne (fun he => hi (hf he)), h.heap i]
      rcases lt_or_gt_of_ne hi with hlt | hgt
      · rw [List.getElem?_append_left hlt]
      · rw [getElem?_eq_none (by omega), getElem?_eq_none (by simp; omega)]
  groupIdMap := by
    intro id a
    rw [h.allocated]
    simp only [mapRecord, saved]
    by_cases hid : id = r.groupId
    · subst hid
      rw [update_self]
      constructor
      · intro ha
        exact ⟨rs.length, r, by simp, rfl, (Option.some.inj ha).symm⟩
      · rintro ⟨i, x, hx, hxid, rfl⟩
        rcases lt_trichotomy i rs.length with hlt | rfl | hgt
        · rw [List.getElem?_append_left hlt] at hx
          exact absurd (mem_map.mpr ⟨x, mem_of_getElem? hx, hxid⟩) hr
        · rfl
        · rw [getElem?_eq_none (by simp; omega)] at hx
          cases hx
    · rw [update_of_ne hid, h.groupIdMap id a]
      constructor
      · rintro ⟨i, x, hx, hxid, ha⟩
        have hlt := (List.getElem?_eq_some_iff.mp hx).1
        exact ⟨i, x, (List.getElem?_append_left hlt).trans hx, hxid, ha⟩
      · rintro ⟨i, x, hx, hxid, ha⟩
        refine ⟨i, x, ?_, hxid, ha⟩
        rcases lt_trichotomy i rs.length with hlt | rfl | hgt
        · rwa [List.getElem?_append_left hlt] at hx
        · simp only [getElem?_concat_length] at hx
          exact absurd ((congrArg groupId (Option.some.inj hx)).trans hxid).symm hid
        · rw [getElem?_eq_none (by simp; omega)] at hx
          cases hx
  names := h.names

theorem lines_records {f : ℕ → Addr} (hf : Injective f)
    (hk : ∀ i, k.record i = some (f i)) {rs done : List GroupRecord} (h : l.Holds f done)
    (hrs : ∀ r ∈ rs, LoadableRecord r) (hids : ((done ++ rs).map groupId).Nodup)
    (hfuel : rs.length < fuel) :
    ∃ l', lines k fuel l (recordLines rs) = .ok (true, l') ∧ l'.Holds f (done ++ rs) := by
  induction rs generalizing done l fuel with
  | nil =>
    obtain ⟨fuel, rfl⟩ := exists_eq_succ_of_ne_zero (ne_of_gt hfuel)
    exact ⟨l, rfl, by simpa using h⟩
  | cons r rs ih =>
    obtain ⟨fuel, rfl⟩ := exists_eq_succ_of_ne_zero (ne_of_gt (zero_lt_of_lt hfuel))
    have hr := hrs r (by simp)
    have hfree : l.groups.heap (f l.allocated) = none := by
      rw [h.heap, h.allocated, getElem?_eq_none (le_refl _)]
      rfl
    have hnew : r.groupId ∉ done.map groupId := by
      rw [map_append, nodup_append] at hids
      exact fun hmem => hids.2.2 _ hmem _ (by simp) rfl
    have hlen : (lineBody r).length < inputLineMax - 1 := by
      have := hr.lineBody_length
      omega
    obtain ⟨l', hl', hdone⟩ := ih (h.append hf hnew (fillBuffer l.buffer (lineBody r ++ [newline])))
      (fun x hx => hrs x (by simp [hx])) (by simpa using hids) (by simpa using hfuel)
    refine ⟨l', ?_, by simpa using hdone⟩
    rw [← hl', recordLines, map_cons, flatten_cons, append_assoc]
    exact lines_line hr.newline_notMem hlen (line_record hr (hk _) hfree)

theorem Holds.recordOf_iff {f : ℕ → Addr} {rs : List GroupRecord} (h : l.Holds f rs)
    {id : GroupId} {x : GroupRecord} :
    l.groups.recordOf id = some x ↔ ∃ r ∈ rs, r.groupId = id ∧ saved r = x := by
  rw [recordOf, Option.bind_eq_some_iff]
  constructor
  · rintro ⟨a, ha, hx⟩
    obtain ⟨i, r, hr, hid, rfl⟩ := (h.groupIdMap id a).mp ha
    rw [h.heap, hr] at hx
    exact ⟨r, mem_of_getElem? hr, hid, Option.some.inj hx⟩
  · rintro ⟨r, hr, hid, rfl⟩
    obtain ⟨i, hi⟩ := getElem?_of_mem hr
    refine ⟨f i, (h.groupIdMap id _).mpr ⟨i, r, hi, hid, rfl⟩, ?_⟩
    rw [h.heap, hi]
    rfl

end Loading

def databaseText (rs : List GroupRecord) : Bytes :=
  (headerLines.map (· ++ [newline])).flatten ++ recordLines rs

theorem headerLines_comment : ∀ c ∈ headerLines,
    c.head? = some hash ∧ newline ∉ c ∧ c.length < inputLineMax - 1 := by
  decide +kernel

theorem flatten_length (xs : List Bytes) :
    xs.length ≤ ((xs.map (· ++ [newline])).flatten).length := by
  induction xs with
  | nil => simp
  | cons x xs ih =>
    simp only [map_cons, flatten_cons, length_append, length_cons, length_nil]
    omega

theorem databaseText_length (rs : List GroupRecord) :
    headerLines.length + rs.length ≤ (databaseText rs).length := by
  have hheader := flatten_length headerLines
  have hrecords := flatten_length (rs.map lineBody)
  rw [map_map, length_map] at hrecords
  rw [databaseText, length_append]
  exact Nat.add_le_add hheader hrecords

theorem Loading.lines_database {k : Kernel} {f : ℕ → Addr} (hf : Injective f)
    (hk : ∀ i, k.record i = some (f i)) {rs : List GroupRecord}
    (hrs : ∀ r ∈ rs, LoadableRecord r) (hids : (rs.map groupId).Nodup)
    (buffer : Bytes) :
    ∃ l, lines k ((databaseText rs).length + 1) ⟨buffer, 0, empty⟩ (databaseText rs) =
      .ok (true, l) ∧ l.Holds f rs := by
  obtain ⟨fuel, hfuel⟩ := Nat.exists_eq_add_of_le (databaseText_length rs)
  obtain ⟨buffer', hcomments⟩ := @lines_comments k ⟨buffer, 0, empty⟩
    (recordLines rs) (rs.length + fuel + 1) _ headerLines_comment
  have hinit : Holds f ⟨buffer', 0, empty⟩ [] :=
    ⟨rfl, fun _ => rfl, fun id a => by simp [empty], rfl⟩
  obtain ⟨l, hlines, hl⟩ := lines_records hf hk hinit hrs hids
    (by omega : rs.length < rs.length + fuel + 1)
  refine ⟨l, ?_, hl⟩
  rw [hfuel, ← hlines, ← hcomments, databaseText, add_assoc, add_assoc, add_assoc]

end MachUS.Auth

namespace MachUS.Auth

open Text Option Outcome

theorem hashIndex_eq_ok {size : ℕ} {name : Bytes} (h : 0 ≤ hashName size name) :
    hashIndex size name = .ok (hashName size name).toNat := by
  rw [hashIndex, if_neg (not_lt.mpr h)]

namespace Groups

def size (g : Groups) : ℕ := allIds.countP fun id => (g.groupIdMap id).isSome

structure Filling (g : Groups) (n : ℕ) : Prop where
  length : g.names.slots.length = 32
  limit : g.names.limit = 25
  numEntries : g.names.numEntries = n
  free : g.names.slots.count none + n = 32

theorem Filling.init {g : Groups} (h : g.names = NameTable.init) : g.Filling 0 := by
  refine ⟨?_, ?_, ?_, ?_⟩ <;>
  · rw [h]
    decide

theorem count_none_set {slots : List (Option Addr)} {i : ℕ} (a : Addr) (hi : i < slots.length)
    (h : slots.getD i none = none) :
    (slots.set i (some a)).count none + 1 = slots.count none := by
  rw [List.getD_eq_getElem _ _ hi] at h
  have hpos : 0 < slots.count none := List.count_pos_iff.mpr (h ▸ List.getElem_mem hi)
  rw [List.count_set hi, h]
  simp
  omega

theorem Filling.enterName {k : Kernel} {g : Groups} {n : ℕ} {a : Addr} {r : GroupRecord}
    (h : g.Filling n) (hn : n < 25) (hr : g.heap a = some r)
    (hname : 0 ≤ hashName 32 r.groupName.bytes) :
    ∃ g', g.enterName k a = .ok g' ∧ g'.Filling (n + 1) ∧ g.SameRecords g' := by
  have hgrow : g.countEntry.growIfOver k = .ok g.countEntry := by
    rw [growIfOver, if_neg]
    simp only [countEntry, h.limit, h.numEntries]
    omega
  have hindex : hashIndex g.countEntry.names.slots.length r.groupName.bytes =
      .ok (hashName 32 r.groupName.bytes).toNat := by
    rw [show g.countEntry.names.slots = g.names.slots from rfl, h.length]
    exact hashIndex_eq_ok hname
  have hnone : none ∈ g.names.slots := by
    have hfree := h.free
    exact List.count_pos_iff.mp (by omega)
  have hlt : (hashName 32 r.groupName.bytes).toNat < g.names.slots.length := by
    rw [h.length]
    exact hashIndex_lt (by decide) (hashIndex_eq_ok hname)
  obtain ⟨i, hi⟩ := emptySlot_isSome hlt hnone
  obtain ⟨hi', hslot⟩ := emptyFrom_spec hi hlt
  refine ⟨g.countEntry.setEntry i (some a), ?_, ⟨?_, h.limit, ?_, ?_⟩, ⟨rfl, rfl⟩⟩
  · rw [Groups.enterName, enterNameFrom, hgrow, ok_bind,
      deref_eq_ok.mpr (show g.countEntry.heap a = some r from hr), ok_bind, hindex,
      ok_bind, show g.countEntry.names.slots = g.names.slots from rfl, hi]
  · simpa [setEntry, countEntry] using h.length
  · simp [setEntry, countEntry, h.numEntries]
  · have hcount := count_none_set a hi' hslot
    have hfree := h.free
    simp only [setEntry, countEntry]
    omega

theorem Filling.enterNames {k : Kernel} {ids : List GroupId} {g : Groups} {n : ℕ}
    (h : g.Filling n)
    (hids : n + ids.countP (fun id => (g.groupIdMap id).isSome) ≤ 25)
    (hnames : ∀ id a, g.groupIdMap id = some a →
      ∃ r, g.heap a = some r ∧ 0 ≤ hashName 32 r.groupName.bytes) :
    ∃ g', Groups.enterNames k ids g = .ok g' ∧ g.SameRecords g' := by
  induction ids generalizing g n with
  | nil => exact ⟨g, rfl, .refl g⟩
  | cons id ids ih =>
    rw [Groups.enterNames]
    cases hm : g.groupIdMap id with
    | none =>
      rw [List.countP_cons_of_neg (by simp [hm])] at hids
      exact ih h hids hnames
    | some a =>
      rw [List.countP_cons_of_pos (by simp [hm])] at hids
      obtain ⟨r, hr, hname⟩ := hnames id a hm
      obtain ⟨g₁, hg₁, hfill, hsame⟩ := h.enterName (k := k) (by omega) hr hname
      obtain ⟨g', hg', hsame'⟩ := ih hfill (by rw [hsame.groupIdMap]; omega) (by
        rw [hsame.groupIdMap, hsame.heap]
        exact hnames)
      refine ⟨g', ?_, hsame.trans hsame'⟩
      simp only [hg₁, ok_bind]
      exact hg'

end Groups

def Kernel.Grants (k : Kernel) : Prop :=
  ∃ f : ℕ → Addr, Function.Injective f ∧ ∀ i, k.record i = some (f i)

def Groups.RoundTrips (g : Groups) : Prop :=
  ∀ (k : Kernel) (buffer : Bytes), k.Grants → ∃ file g', g.saveDatabase = .ok file ∧
    readDatabase k buffer file = .ok (true, g') ∧
    ∀ id, (g'.recordOf id).map saved = (g.recordOf id).map saved

theorem mem_allIds {id : GroupId} : id ∈ allIds ↔ id.toNat < groupIdMax := by
  rw [allIds, List.mem_map]
  constructor
  · rintro ⟨n, hn, rfl⟩
    rw [UInt32.toNat_ofNat']
    exact lt_of_le_of_lt (Nat.mod_le _ _) (List.mem_range.mp hn)
  · intro h
    exact ⟨id.toNat, List.mem_range.mpr h, UInt32.ofNat_toNat⟩

theorem allIds_nodup : allIds.Nodup := by
  rw [allIds, List.nodup_map_iff_inj_on List.nodup_range]
  intro m hm n hn h
  rw [List.mem_range] at hm hn
  have hmn := congrArg UInt32.toNat h
  simp only [groupIdMax] at hm hn
  rw [UInt32.toNat_ofNat', UInt32.toNat_ofNat'] at hmn
  omega

namespace Groups

variable {g : Groups}

def records (g : Groups) : List GroupRecord := allIds.filterMap g.recordOf

theorem isSome_groupIdMap {id : GroupId}
    (h : ∀ a, g.groupIdMap id = some a → (g.heap a).isSome = true) :
    (g.groupIdMap id).isSome = (g.recordOf id).isSome := by
  rw [recordOf]
  cases hm : g.groupIdMap id with
  | none => rfl
  | some a => exact (h a hm).symm

theorem Coherent.recordOf_iff (h : g.Coherent) {id : GroupId} {r : GroupRecord} :
    g.recordOf id = some r ↔ r ∈ g.records ∧ r.groupId = id := by
  have hself {id : GroupId} {r : GroupRecord} (hr : g.recordOf id = some r) :
      r.groupId = id ∧ id ∈ allIds := by
    obtain ⟨a, ha, hr⟩ := bind_eq_some_iff.mp hr
    obtain ⟨r', hr', hid⟩ := h.mapped id a ha
    cases hr'.symm.trans hr
    exact ⟨hid, mem_allIds.mpr (h.range id a ha)⟩
  constructor
  · intro hr
    exact ⟨List.mem_filterMap.mpr ⟨id, (hself hr).2, hr⟩, (hself hr).1⟩
  · rintro ⟨hr, rfl⟩
    obtain ⟨id, -, hid⟩ := List.mem_filterMap.mp hr
    rwa [(hself hid).1]

theorem Coherent.records_nodup (h : g.Coherent) : (g.records.map GroupRecord.groupId).Nodup := by
  have hself : ∀ ids : List GroupId, (ids.filterMap g.recordOf).map GroupRecord.groupId =
      ids.filter fun id => (g.recordOf id).isSome := by
    intro ids
    induction ids with
    | nil => rfl
    | cons id ids ih =>
      cases hr : g.recordOf id with
      | none => rw [List.filterMap_cons_none hr, ih, List.filter_cons_of_neg (by simp [hr])]
      | some r =>
        rw [List.filterMap_cons_some hr, List.map_cons, ih,
          List.filter_cons_of_pos (by simp [hr]), (h.recordOf_iff.mp hr).2]
  rw [records, hself]
  exact allIds_nodup.filter _

theorem roundTrips (hg : g.Coherent) (hload : ∀ a r, g.heap a = some r → LoadableRecord r)
    (hsize : g.size ≤ 25) : g.RoundTrips := by
  rintro k buffer ⟨f, hf, hk⟩
  have hmem {r : GroupRecord} (hr : r ∈ g.records) : LoadableRecord r := by
    obtain ⟨a, -, hr⟩ := bind_eq_some_iff.mp (hg.recordOf_iff.mpr ⟨hr, rfl⟩)
    exact hload a r hr
  have hsave : g.saveDatabase = .ok (databaseText g.records) := by
    rw [saveDatabase, saveRecords_eq_ok hg fun a r hr => (hload a r hr).toCleanRecord]
    rfl
  obtain ⟨l, hlines, hl⟩ := Loading.lines_database hf hk (fun r hr => hmem hr) hg.records_nodup
    buffer
  have hrecord (id : GroupId) : l.groups.recordOf id = (g.recordOf id).map saved := by
    apply ext
    intro x
    rw [hl.recordOf_iff, map_eq_some_iff]
    simp only [hg.recordOf_iff, and_assoc]
  have hmap (id : GroupId) : (l.groups.groupIdMap id).isSome = (g.groupIdMap id).isSome := by
    have hleft : (l.groups.groupIdMap id).isSome = (l.groups.recordOf id).isSome := by
      refine isSome_groupIdMap fun a ha => ?_
      obtain ⟨i, r, hr, -, rfl⟩ := (hl.groupIdMap id a).mp ha
      rw [hl.heap, hr]
      rfl
    have hright : (g.groupIdMap id).isSome = (g.recordOf id).isSome := by
      refine isSome_groupIdMap fun a ha => ?_
      obtain ⟨r, hr, -⟩ := hg.mapped id a ha
      rw [hr]
      rfl
    rw [hleft, hright, hrecord, isSome_map]
  obtain ⟨g', hg', hsame⟩ := @Filling.enterNames k allIds _ _ (Filling.init hl.names)
    (by simpa [hmap, size] using hsize) fun id a ha => by
      obtain ⟨i, r, hr, -, rfl⟩ := (hl.groupIdMap id a).mp ha
      refine ⟨saved r, ?_, (hmem (List.mem_of_getElem? hr)).hashed⟩
      rw [hl.heap, hr]
      rfl
  refine ⟨databaseText g.records, g', hsave, ?_, fun id => ?_⟩
  · rw [readDatabase, hlines, ok_bind]
    simp only [hg', ok_bind]
  · rw [recordOf, hsame.groupIdMap, hsame.heap]
    refine (congrArg (Option.map saved) (hrecord id)).trans ?_
    rw [Option.map_map]
    rfl

end Groups

end MachUS.Auth
