import MachUS.Auth.GroupStore

namespace MachUS.Auth

open Text Outcome List

def inputLineMax : ℕ := 1024

def memIdSize : ℕ := 10

def fieldSize : ℕ := 64

def ascii (s : String) : Bytes := s.toList.map Char.toUInt8

def colon : UInt8 := 58

def comma : UInt8 := 44

def newline : UInt8 := 10

def hash : UInt8 := 35

def letterP : UInt8 := 80

def letterS : UInt8 := 83

def primaryUsage : String :=
  "<user-name>:<group-id>:P:<full-name>:<owner-id>:<encry-password>:<membership-list>"

def secondaryUsage : String :=
  "<group-name>:<group-id>:S:<full-name>:<owner-id>:<member-list>:<membership-list>"

def headerLines : List Bytes :=
  [ascii "#", ascii "# Database format:",
    ascii "#     Primary groups:   " ++ ascii primaryUsage,
    ascii "#     Secondary groups: " ++ ascii secondaryUsage, ascii "#"]

def formatId (id : GroupId) : Bytes := formatInt id.toInt32.toInt

def memId (id : GroupId) : Outcome Bytes :=
  if (formatId id).length < memIdSize then .ok (formatId id) else .error .stringOverrun

def memIds : List GroupId → Outcome Bytes
  | [] => .ok []
  | id :: ids => do
    let first ← memId id
    let rest ← memIds ids
    .ok (if ids = [] then first else first ++ comma :: rest)

def typeLetter (t : GroupType) : UInt8 := if t = asPrimary then letterP else letterS

def linePrefix (r : GroupRecord) : Bytes :=
  r.groupName.bytes ++ colon :: (formatId r.groupId ++ colon :: typeLetter r.groupType :: colon ::
    (r.fullName.bytes ++ colon :: (formatId r.ownerId ++ [colon])))

def middleField (r : GroupRecord) : Outcome Bytes :=
  if r.groupType = asPrimary then .ok r.passWord.bytes else memIds r.members

def outputLine (r : GroupRecord) : Outcome Bytes := do
  let middle ← middleField r
  let memberships ← memIds r.memberships
  let line := linePrefix r ++ (middle ++ colon :: (memberships ++ [colon, newline]))
  if line.length < inputLineMax then .ok line else .error .stringOverrun

def fputs (line : Bytes) : Bytes := line.takeWhile (· ≠ 0)

def Groups.saveRecords (g : Groups) : List GroupId → Outcome Bytes
  | [] => .ok []
  | id :: ids =>
    match g.groupIdMap id with
    | none => g.saveRecords ids
    | some a => do
      let r ← g.deref a
      let line ← outputLine r
      let rest ← g.saveRecords ids
      .ok (fputs line ++ rest)

def allIds : List GroupId := (range groupIdMax).map UInt32.ofNat

def Groups.saveDatabase (g : Groups) : Outcome Bytes := do
  let records ← g.saveRecords allIds
  .ok ((headerLines.map (· ++ [newline])).flatten ++ records)

def fgets : ℕ → Bytes → Bytes × Bytes
  | 0, file => ([], file)
  | _ + 1, [] => ([], [])
  | n + 1, c :: file =>
    if c = newline then ([c], file)
    else
      let (line, rest) := fgets n file
      (c :: line, rest)

-- A pointer into input_line is the rest of the buffer; the bytes behind the line are stale.
def fillBuffer (buffer line : Bytes) : Bytes := line ++ 0 :: buffer.drop (line.length + 1)

def scan (stops : List UInt8) : Bytes → Outcome (Bytes × Bytes)
  | [] => .error .strayRead
  | c :: cp =>
    if c = 0 ∨ c ∈ stops then .ok ([], c :: cp)
    else do
      let (field, rest) ← scan stops cp
      .ok (c :: field, rest)

def advance : Bytes → Outcome Bytes
  | [] => .error .strayRead
  | _ :: cp => .ok cp

def scanString (size : ℕ) (cp : Bytes) : Outcome (CString size × Bytes) := do
  let (field, rest) ← scan [colon] cp
  let rest ← advance rest
  match CString.ofBytes? size field with
  | some c => .ok (c, rest)
  | none => .error .stringOverrun

def scanId (stops : List UInt8) (cp : Bytes) : Outcome (GroupId × Bytes) := do
  let (field, rest) ← scan stops cp
  if field.length < fieldSize then .ok (UInt32.ofInt (atoi field), rest)
  else .error .stringOverrun

def scanIds : ℕ → List GroupId → Bytes → Outcome (List GroupId × Bytes)
  | 0, _, _ => .error .strayRead
  | _ + 1, _, [] => .error .strayRead
  | fuel + 1, ids, c :: cp =>
    if c = 0 ∨ c = colon then .ok (ids, c :: cp)
    else do
      let (id, rest) ← scanId [colon, comma] (c :: cp)
      if ids.length < membersMax then
        match rest with
        | [] => .error .strayRead
        | d :: rest => scanIds fuel (ids ++ [id]) (if d = comma then rest else d :: rest)
      else .error .memberOverrun

def takePassWord (cp : Bytes) : Outcome (PassWord × Bytes) :=
  if h : passWordSize ≤ cp.length then
    .ok (⟨cp.take passWordSize, by simp [h]⟩, cp.drop passWordSize)
  else .error .strayRead

def readRecord (cp : Bytes) : Outcome GroupRecord := do
  let (groupName, cp) ← scanString 64 cp
  let (groupId, cp) ← scanId [colon] cp
  let cp ← advance cp
  match cp with
  | [] => .error .strayRead
  | c :: cp => do
    let groupType := if c = letterP then asPrimary else asSecondary
    let cp ← advance cp
    let (fullName, cp) ← scanString 256 cp
    let (ownerId, cp) ← scanId [colon] cp
    let cp ← advance cp
    if groupType = asPrimary then do
      let (passWord, cp) ← takePassWord cp
      let cp ← advance cp
      let (memberships, _) ← scanIds (cp.length + 1) [] cp
      .ok { groupName := groupName, groupId := groupId, groupType := groupType,
            fullName := fullName, ownerId := ownerId, passWord := passWord, trMemberships := [],
            members := [], memberships := memberships }
    else do
      let (members, cp) ← scanIds (cp.length + 1) [] cp
      let cp ← advance cp
      let (memberships, _) ← scanIds (cp.length + 1) [] cp
      .ok { groupName := groupName, groupId := groupId, groupType := groupType,
            fullName := fullName, ownerId := ownerId, passWord := PassWord.zero,
            trMemberships := [], members := members, memberships := memberships }

def Groups.empty : Groups := ⟨fun _ => none, fun _ => none, NameTable.init⟩

structure Loading where
  buffer : Bytes
  allocated : ℕ
  groups : Groups

def Loading.line (k : Kernel) (l : Loading) (line : Bytes) : Outcome (Bool × Loading) :=
  let buffer := fillBuffer l.buffer line
  if buffer.head? = some hash then .ok (true, { l with buffer := buffer })
  else
    match k.record l.allocated with
    | none => .ok (false, { l with buffer := buffer })
    | some a =>
      if (l.groups.heap a).isSome then .error .addressInUse
      else do
        let r ← readRecord buffer
        let _ ← l.groups.idSlot r.groupId
        .ok (true, ⟨buffer, l.allocated + 1, l.groups.mapRecord a r⟩)

def Loading.lines (k : Kernel) : ℕ → Loading → Bytes → Outcome (Bool × Loading)
  | 0, _, _ => .error .endlessRecursion
  | fuel + 1, l, file =>
    if file = [] then .ok (true, l)
    else do
      match ← l.line k (fgets (inputLineMax - 1) file).1 with
      | (false, l) => .ok (false, l)
      | (true, l) => Loading.lines k fuel l (fgets (inputLineMax - 1) file).2

def Groups.enterNames (k : Kernel) : List GroupId → Groups → Outcome Groups
  | [], g => .ok g
  | id :: ids, g =>
    match g.groupIdMap id with
    | none => enterNames k ids g
    | some a => do
      let g ← g.enterName k a
      enterNames k ids g

def readDatabase (k : Kernel) (buffer file : Bytes) : Outcome (Bool × Groups) := do
  match ← Loading.lines k (file.length + 1) ⟨buffer, 0, Groups.empty⟩ file with
  | (false, l) => .ok (false, l.groups)
  | (true, l) => do
    let g ← l.groups.enterNames k allIds
    .ok (true, g)

def saved (r : GroupRecord) : GroupRecord := { r with trMemberships := [] }

structure CleanText (b : Bytes) : Prop where
  colon : colon ∉ b
  newline : newline ∉ b

structure CleanRecord (r : GroupRecord) : Prop where
  groupName : CleanText r.groupName.bytes
  comment : r.groupName.bytes.head? ≠ some hash
  fullName : CleanText r.fullName.bytes
  groupType : r.groupType = asPrimary ∨ r.groupType = asSecondary
  primary : r.groupType = asPrimary →
    r.members = [] ∧ (0 : UInt8) ∉ r.passWord.bytes ∧ newline ∉ r.passWord.bytes
  secondary : r.groupType ≠ asPrimary → r.passWord = PassWord.zero
  members : r.members.length ≤ membersMax ∧ ∀ id ∈ r.members, (formatId id).length < memIdSize
  memberships : r.memberships.length ≤ membersMax ∧
    ∀ id ∈ r.memberships, (formatId id).length < memIdSize

def idsText : List GroupId → Bytes
  | [] => []
  | id :: ids => if ids = [] then formatId id else formatId id ++ comma :: idsText ids

def middleText (r : GroupRecord) : Bytes :=
  if r.groupType = asPrimary then r.passWord.bytes else idsText r.members

def lineBody (r : GroupRecord) : Bytes :=
  linePrefix r ++ (middleText r ++ colon :: (idsText r.memberships ++ [colon]))

theorem formatId_mem {id : GroupId} {c : UInt8} (h : c ∈ formatId id) :
    c ≠ 0 ∧ c ≠ colon ∧ c ≠ comma ∧ c ≠ newline := by
  rcases formatInt_mem h with rfl | hd
  · decide
  · rw [isDigit_iff] at hd
    refine ⟨?_, ?_, ?_, ?_⟩ <;>
    · rintro rfl
      revert hd
      decide

theorem formatId_length (id : GroupId) : (formatId id).length ≤ 11 := by
  refine formatInt_length (d := 9) ?_
  have h1 := id.toInt32.toInt_lt
  have h2 := id.toInt32.le_toInt
  omega

theorem ofInt_atoi_formatId (id : GroupId) : UInt32.ofInt (atoi (formatId id)) = id := by
  have h : id.toInt32.toInt = (id.toNat : ℤ).bmod (2 ^ 32) :=
    BitVec.toInt_eq_toNat_bmod id.toBitVec
  have hlt := id.toNat_lt
  rw [formatId, atoi_formatInt]
  apply UInt32.toNat_inj.mp
  rw [UInt32.ofInt, UInt32.toNat_ofNat', h, show ((2 : ℤ) ^ 32) = ((2 ^ 32 : ℕ) : ℤ) from rfl,
    Int.bmod_emod]
  omega

theorem idsText_mem {ids : List GroupId} {c : UInt8} (h : c ∈ idsText ids) :
    c ≠ 0 ∧ c ≠ colon ∧ c ≠ newline := by
  induction ids with
  | nil => cases h
  | cons id ids ih =>
    rw [idsText] at h
    split_ifs at h
    · exact ⟨(formatId_mem h).1, (formatId_mem h).2.1, (formatId_mem h).2.2.2⟩
    · rcases mem_append.mp h with h | h
      · exact ⟨(formatId_mem h).1, (formatId_mem h).2.1, (formatId_mem h).2.2.2⟩
      · rcases mem_cons.mp h with rfl | h
        · decide
        · exact ih h

theorem idsText_length {ids : List GroupId} (h : ∀ id ∈ ids, (formatId id).length < memIdSize) :
    (idsText ids).length ≤ memIdSize * ids.length := by
  induction ids with
  | nil => simp [idsText]
  | cons id ids ih =>
    have hid := h id (by simp)
    have hids := ih fun x hx => h x (by simp [hx])
    rw [idsText]
    simp only [memIdSize] at hid hids ⊢
    split_ifs
    · simp
      omega
    · simp
      omega

theorem memIds_eq_ok {ids : List GroupId} (h : ∀ id ∈ ids, (formatId id).length < memIdSize) :
    memIds ids = .ok (idsText ids) := by
  induction ids with
  | nil => rfl
  | cons id ids ih =>
    rw [memIds, memId, if_pos (h id (by simp)), ok_bind,
      ih fun x hx => h x (by simp [hx]), ok_bind, idsText]

theorem scan_eq_ok {stops : List UInt8} {x rest : Bytes} {c : UInt8}
    (hx : ∀ d ∈ x, d ≠ 0 ∧ d ∉ stops) (hc : c = 0 ∨ c ∈ stops) :
    scan stops (x ++ c :: rest) = .ok (x, c :: rest) := by
  induction x with
  | nil => exact if_pos hc
  | cons d x ih =>
    obtain ⟨h0, hs⟩ := hx d (by simp)
    rw [cons_append, scan, if_neg (by simp [h0, hs]), ih fun e he => hx e (by simp [he])]
    rfl

theorem scanString_eq_ok {size : ℕ} (c : CString size) (h : colon ∉ c.bytes) (rest : Bytes) :
    scanString size (c.bytes ++ colon :: rest) = .ok (c, rest) := by
  have hx : ∀ d ∈ c.bytes, d ≠ 0 ∧ d ∉ [colon] := by
    intro d hd
    refine ⟨fun h0 => c.terminated (h0 ▸ hd), fun hmem => h ?_⟩
    rwa [mem_singleton.mp hmem] at hd
  rw [scanString, scan_eq_ok hx (Or.inr (by simp))]
  simp [advance, CString.ofBytes?_self]

theorem scanId_eq_ok (id : GroupId) {stops : List UInt8} {c : UInt8} (rest : Bytes)
    (hstops : ∀ d ∈ stops, d = colon ∨ d = comma) (hc : c ∈ stops) :
    scanId stops (formatId id ++ c :: rest) = .ok (id, c :: rest) := by
  have hx : ∀ d ∈ formatId id, d ≠ 0 ∧ d ∉ stops := by
    intro d hd
    obtain ⟨h0, h1, h2, -⟩ := formatId_mem hd
    exact ⟨h0, fun hmem => (hstops d hmem).elim h1 h2⟩
  have hlen : (formatId id).length < fieldSize := lt_of_le_of_lt (formatId_length id) (by decide)
  rw [scanId, scan_eq_ok hx (Or.inr hc)]
  simp [hlen, ofInt_atoi_formatId]

theorem scanIds_eq_ok {ids acc : List GroupId} {fuel : ℕ} (rest : Bytes)
    (hlen : acc.length + ids.length ≤ membersMax) (hfuel : ids.length < fuel) :
    scanIds fuel acc (idsText ids ++ colon :: rest) = .ok (acc ++ ids, colon :: rest) := by
  induction ids generalizing acc fuel with
  | nil =>
    obtain ⟨fuel, rfl⟩ := Nat.exists_eq_succ_of_ne_zero (Nat.ne_of_gt hfuel)
    simp [idsText, scanIds]
  | cons id ids ih =>
    obtain ⟨fuel, rfl⟩ := Nat.exists_eq_succ_of_ne_zero (Nat.ne_of_gt (Nat.zero_lt_of_lt hfuel))
    obtain ⟨c, cs, hcs⟩ := exists_cons_of_ne_nil (formatInt_ne_nil id.toInt32.toInt)
    have hc := @formatId_mem id c (by rw [formatId, hcs]; simp)
    have hacc : acc.length < membersMax := by
      simp at hlen
      omega
    have hstep (d : UInt8) (hd : d = colon ∨ d = comma) (rest : Bytes) :
        scanIds (fuel + 1) acc (formatId id ++ d :: rest) =
          scanIds fuel (acc ++ [id]) (if d = comma then rest else d :: rest) := by
      have hscan := @scanId_eq_ok id [colon, comma] d rest (by simp) (by simpa using hd)
      rw [formatId, hcs, cons_append] at hscan ⊢
      rw [scanIds, if_neg (by simp [hc.1, hc.2.1]), hscan, ok_bind]
      simp only [hacc, if_true]
    by_cases hids : ids = []
    · subst hids
      rw [idsText, if_pos rfl, hstep colon (Or.inl rfl), if_neg (by decide)]
      have := @ih (acc ++ [id]) fuel (by simpa using hlen) (by simpa using hfuel)
      simpa [idsText] using this
    · rw [idsText, if_neg hids, append_assoc, cons_append, hstep comma (Or.inr rfl), if_pos rfl]
      have := @ih (acc ++ [id]) fuel (by simp at hlen ⊢; omega) (by simpa using hfuel)
      simpa using this

theorem takePassWord_eq_ok (w : PassWord) (rest : Bytes) :
    takePassWord (w.bytes ++ rest) = .ok (w, rest) := by
  have hlen : passWordSize ≤ (w.bytes ++ rest).length := by
    simp [w.size]
  rw [takePassWord, dif_pos hlen]
  cases w
  simp_all

theorem idsText_fuel (ids : List GroupId) : ids.length ≤ (idsText ids).length := by
  induction ids with
  | nil => simp
  | cons id ids ih =>
    have hpos : 0 < (formatId id).length := length_pos_iff.mpr (formatInt_ne_nil _)
    rw [idsText]
    split_ifs with hids
    · subst hids
      exact hpos
    · simp
      omega

theorem readRecord_eq_ok {r : GroupRecord} (h : CleanRecord r) (rest : Bytes) :
    readRecord (lineBody r ++ rest) = .ok (saved r) := by
  have hids (ids : List GroupId) (tail : Bytes) (hlen : ids.length ≤ membersMax) :
      scanIds ((idsText ids ++ colon :: tail).length + 1) [] (idsText ids ++ colon :: tail) =
        .ok (ids, colon :: tail) := by
    have := idsText_fuel ids
    exact @scanIds_eq_ok ids [] _ tail (by simpa using hlen) (by simp; omega)
  have hid (id : GroupId) (tail : Bytes) :
      scanId [colon] (formatId id ++ colon :: tail) = .ok (id, colon :: tail) :=
    scanId_eq_ok id tail (by simp) (by simp)
  rw [readRecord, lineBody, linePrefix]
  simp only [append_assoc, cons_append, nil_append]
  rw [scanString_eq_ok _ h.groupName.colon, ok_bind]
  simp only [hid, ok_bind, advance]
  rw [scanString_eq_ok _ h.fullName.colon, ok_bind]
  simp only [hid, ok_bind]
  rcases h.groupType with ht | ht
  · have hletter : typeLetter r.groupType = letterP := by simp [typeLetter, ht]
    obtain ⟨hm, -⟩ := h.primary ht
    rw [middleText, if_pos ht, hletter]
    simp only [if_true, takePassWord_eq_ok, ok_bind, hids r.memberships _ h.memberships.1]
    cases r
    simp_all [saved]
  · have hne : r.groupType ≠ asPrimary := by
      rw [ht]
      decide
    have hletter : typeLetter r.groupType = letterS := by simp [typeLetter, hne]
    have hsec : (if letterS = letterP then asPrimary else asSecondary) = asSecondary := by decide
    have hsp : ¬asSecondary = asPrimary := by decide
    have hword := h.secondary hne
    rw [middleText, if_neg hne, hletter]
    simp only [hsec, hsp, if_false, hids r.members _ h.members.1, ok_bind,
      hids r.memberships _ h.memberships.1]
    cases r
    simp_all [saved]

end MachUS.Auth
