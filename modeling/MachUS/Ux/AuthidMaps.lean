import MachUS.Foundation.Text
import MachUS.Hash.FirstMatch
import MachUS.Ux.Protections
import Mathlib.Data.List.TakeWhile

namespace MachUS.Ux.Prot

open Hash Hash.Sample Outcome Text List Except

def fsAccessDefaultTableSize : UInt32 := 64

def colon : UInt8 := 58

def newline : UInt8 := 10

structure IdTables where
  byAuthid : HashTable
  byId : HashTable
  errorCount : ℕ

namespace IdTables

def init (b : Blocks) : Hash.Outcome IdTables := do
  let byAuthid ← hashInit b none none fsAccessDefaultTableSize
  let byId ← hashInit b none none fsAccessDefaultTableSize
  .ok ⟨byAuthid, byId, 0⟩

def atoiId (str : Bytes) : Id := .ofInt 32 (atoi str)

def storedId (id : Id) : Id := if id = 0 then zeroId else id

def hashKey (id : Id) : HashKey := .ofBitVec id

def enter (m : Malloc) (x : IdTables) (authid id : Id) : Hash.Outcome IdTables := do
  let (entered, byAuthid) ← x.byAuthid.hashEnter m (hashKey authid) (.ofBitVec (storedId id))
  let (entered', byId) ← x.byId.hashEnter m (hashKey (storedId id)) (.ofBitVec authid)
  .ok ⟨byAuthid, byId, x.errorCount + (if entered then 0 else 1) + if entered' then 0 else 1⟩

def enterField (m : Malloc) (x : IdTables) (authid : Id) (str : Bytes) : Hash.Outcome IdTables :=
  if str = [] then .ok x else x.enter m authid (atoiId str)

def look (ht : HashTable) : IdTable := fun id =>
  match ht.hashLookup (hashKey id) with
  | .ok value => value.toBitVec
  | .error _ => 0

end IdTables

open IdTables

-- The fields that sscanf stores for "%[^:]:%[^:]:%[^:]: \n", each in an array of 100 characters.
def sscanf : ℕ → Bytes → Hash.Outcome (List Bytes)
  | 0, _ => .ok []
  | n + 1, cp =>
    let field := cp.takeWhile (· ≠ colon)
    if field = [] then .ok []
    else if 100 ≤ field.length then .error .address
    else
      match cp.drop field.length with
      | [] => .ok [field]
      | _ :: rest => do
        let fields ← sscanf n rest
        .ok (field :: fields)

structure AuthidMap where
  uids : IdTables
  gids : IdTables

-- ERR_SUCCESS is true, and US_INVALID_ARGS false.
def mapLines (m : Malloc) : List Bytes → AuthidMap → Hash.Outcome (Bool × AuthidMap)
  | [], x => .ok (x.uids.errorCount + x.gids.errorCount = 0, x)
  | cp :: cps, x =>
    if cp.head? = some 35 then mapLines m cps x
    else do
      let fields ← sscanf 3 cp
      if fields.getD 0 [] = [] ∧ 0 < fields.length then .ok (false, x)
      else
        let authid := atoiId (fields.getD 0 [])
        let uids ← x.uids.enterField m authid (fields.getD 1 [])
        let gids ← x.gids.enterField m authid (fields.getD 2 [])
        mapLines m cps ⟨uids, gids⟩

def nextLines : Bytes → List Bytes
  | [] => []
  | c :: cp => if c = newline then cp :: nextLines cp else nextLines cp

def fsSetAuthidMap (b : Blocks) (m : Malloc) (data : Bytes) : Hash.Outcome (Bool × AuthidMap) := do
  let uids ← IdTables.init b
  let gids ← IdTables.init b
  match data.getLast? with
  | none => .error .address
  | some last =>
    if last ≠ newline then .ok (false, ⟨uids, gids⟩)
    else
      let text := data.dropLast.takeWhile (· ≠ 0)
      mapLines m (text :: nextLines text) ⟨uids, gids⟩

def AuthidMap.access (x : AuthidMap) (privAuthid rootAuthid : Id) : FsAccess where
  authidToUid := some (look x.uids.byAuthid)
  authidToGid := some (look x.gids.byAuthid)
  uidToAuthid := some (look x.uids.byId)
  gidToAuthid := some (look x.gids.byId)
  privAuthid := privAuthid
  rootAuthid := rootAuthid

namespace IdTables

variable {x y : IdTables} {es : List (Id × Id)} {m : Malloc} {b : Blocks} {ht : HashTable}
  {kvs : Pairs}

structure Kept (x : IdTables) (es : List (Id × Id)) : Prop where
  byAuthid : Filed x.byAuthid 64 (es.map fun e => (hashKey e.1, .ofBitVec (storedId e.2)))
  byId : Filed x.byId 64 (es.map fun e => (hashKey (storedId e.2), .ofBitVec e.1))
  plain : (x.byAuthid.hashfun = none ∧ x.byAuthid.hashcompare = none) ∧
    x.byId.hashfun = none ∧ x.byId.hashcompare = none
  counted : x.errorCount = 0 → (es.map Prod.fst).Nodup

theorem takes_eq {i : ℕ} {key : HashKey} (hcompare : ht.hashcompare = none)
    (hindex : ht.index key = .ok (i : ℤ)) : ht.takes i key = fun x => decide (x.1 = key) := by
  funext x
  rw [HashTable.takes, HashTable.compare, hcompare]
  by_cases hkey : x.1 = key
  · simp [hkey, hindex]
  · simp [hkey]

theorem filed_init (h : hashInit b none none fsAccessDefaultTableSize = .ok ht) :
    ht.hashfun = none ∧ ht.hashcompare = none ∧ Filed ht 64 [] := by
  obtain ⟨hfun, hcompare, -, hfiled⟩ := Filed.init (fun ht (hc : _ = none) a b c hab hbc => by
    simp only [HashTable.compare, hc, decide_eq_true_eq] at hab hbc ⊢
    exact hab.trans hbc) h
  exact ⟨hfun, hcompare, hfiled⟩

theorem kept_init (h : init b = .ok x) : x.Kept [] := by
  obtain ⟨t₁, h₁, h⟩ := bind_eq_ok.mp h
  obtain ⟨t₂, h₂, h⟩ := bind_eq_ok.mp h
  cases h
  obtain ⟨hfun₁, hcmp₁, hfiled₁⟩ := filed_init h₁
  obtain ⟨hfun₂, hcmp₂, hfiled₂⟩ := filed_init h₂
  exact ⟨hfiled₁, hfiled₂, ⟨⟨hfun₁, hcmp₁⟩, hfun₂, hcmp₂⟩, fun _ => nodup_nil⟩

theorem look_eq (h : Filed ht 64 kvs) (hfun : ht.hashfun = none) (hcompare : ht.hashcompare = none)
    (id : Id) : look ht id =
      (((kvs.find? fun x => x.1 = hashKey id).map Prod.snd).getD 0).toBitVec := by
  obtain ⟨full, hrows, -⟩ := h.rows
  obtain ⟨i, hi, hindex⟩ := hrows.sized.index_mem_iff.mpr
    (show Hashed ht.hashfun 64 (hashKey id) from ⟨by decide, by simp [hfun]⟩)
  rw [look, h.hashLookup_eq hi hindex, takes_eq hcompare hindex]

variable {authid id : Id}

theorem Kept.enter (h : x.Kept es) (henter : x.enter m authid id = .ok y) :
    y.Kept (es ++ [(authid, id)]) := by
  obtain ⟨⟨entered, t₁⟩, h₁, henter⟩ := bind_eq_ok.mp henter
  obtain ⟨⟨entered', t₂⟩, h₂, henter⟩ := bind_eq_ok.mp henter
  cases henter
  obtain ⟨i, -, hindex, hentered, ⟨_, rfl⟩, hfiled₁⟩ := h.byAuthid.hashEnter_ok h₁
  obtain ⟨_, -, -, -, ⟨_, rfl⟩, hfiled₂⟩ := h.byId.hashEnter_ok h₂
  refine ⟨by rw [map_append]; exact hfiled₁, by rw [map_append]; exact hfiled₂, h.plain,
    fun hcount => ?_⟩
  rw [takes_eq h.plain.1.2 hindex] at hentered
  obtain ⟨hold, hnew⟩ : x.errorCount = 0 ∧ entered = true := by
    split_ifs at hcount with hone htwo
    exact ⟨hcount, hone⟩
  rw [hnew, eq_comm, Option.isNone_iff_eq_none, find?_eq_none] at hentered
  rw [map_append, nodup_append]
  refine ⟨h.counted hold, nodup_singleton _, ?_⟩
  rintro a ha _ hb rfl
  obtain rfl := mem_singleton.mp hb
  obtain ⟨e, he, rfl⟩ := mem_map.mp ha
  exact hentered _ (mem_map.mpr ⟨e, he, rfl⟩) (by simp)

theorem hashKey_inj {i j : Id} : hashKey i = hashKey j ↔ i = j :=
  ⟨fun h => congrArg Int32.toBitVec h, congrArg hashKey⟩

theorem storedId_ne_zero (id : Id) : storedId id ≠ 0 := by
  rw [storedId]
  split_ifs with hzero
  · decide
  · exact hzero

theorem storedId_eq_iff {i j : Id} (hi : i ≠ 0) (hminus : i ≠ zeroId) : storedId j = i ↔ j = i := by
  rw [storedId]
  split_ifs with hzero
  · exact iff_of_false hminus.symm fun h => hi (h ▸ hzero)
  · exact Iff.rfl

theorem Kept.look_byAuthid (h : x.Kept es) (authid : Id) : look x.byAuthid authid =
    ((es.find? fun e => e.1 = authid).map fun e => storedId e.2).getD 0 := by
  rw [look_eq h.byAuthid h.plain.1.1 h.plain.1.2, find?_map]
  simp only [Function.comp_def, hashKey_inj]
  cases es.find? fun e => decide (e.1 = authid) with
  | none => rfl
  | some e => rfl

theorem Kept.look_byId (h : x.Kept es) (id : Id) : look x.byId id =
    ((es.find? fun e => storedId e.2 = id).map Prod.fst).getD 0 := by
  rw [look_eq h.byId h.plain.2.1 h.plain.2.2, find?_map]
  simp only [Function.comp_def, hashKey_inj]
  cases es.find? fun e => decide (storedId e.2 = id) with
  | none => rfl
  | some e => rfl

theorem find?_of_nodup {α β : Type} [DecidableEq β] {f : α → β} {l : List α} {e : α}
    (hnodup : (l.map f).Nodup) (he : e ∈ l) : (l.find? fun e' => f e' = f e) = some e := by
  cases hfind : l.find? fun e' => decide (f e' = f e) with
  | none => exact absurd (decide_eq_true rfl) (find?_eq_none.mp hfind e he)
  | some e' =>
    have hsame : f e' = f e :=
      of_decide_eq_true (find?_some (p := fun e' => decide (f e' = f e)) hfind)
    rw [inj_on_of_nodup_map hnodup (mem_of_find?_eq_some hfind) he hsame]

def Recovered (other authid id : Id) : Prop :=
  id ≠ zeroId ∧ if id = 0 then other = authid
    else authid ≠ zeroId ∧ (authid = 0 → other = 0)

instance (other authid id : Id) : Decidable (Recovered other authid id) :=
  inferInstanceAs (Decidable (_ ∧ ite _ _ _))

theorem Kept.mapped_authid (h : x.Kept es) (hauthids : (es.map Prod.fst).Nodup)
    (he : (authid, id) ∈ es) (other : Id) :
    mapped (some (look x.byAuthid)) authid other = id ↔ id ≠ zeroId := by
  have hlook : look x.byAuthid authid = storedId id := by
    rw [h.look_byAuthid, find?_of_nodup hauthids he]
    rfl
  rw [mapped, hlook, if_pos (storedId_ne_zero id), storedId]
  by_cases hzero : id = 0
  · rw [hzero]
    decide
  · rw [if_neg hzero]
    split_ifs with hminus
    · exact iff_of_false (fun h => hzero h.symm) (not_not.mpr hminus)
    · exact iff_of_true rfl hminus

theorem Kept.mapped_id (h : x.Kept es) (hids : (es.map Prod.snd).Nodup)
    (he : (authid, id) ∈ es) (hminus : id ≠ zeroId) (other : Id) :
    mapped (some (look x.byId)) id other = authid ↔
      if id = 0 then other = authid else authid ≠ zeroId ∧ (authid = 0 → other = 0) := by
  rw [mapped, h.look_byId]
  by_cases hzero : id = 0
  · have hnone : es.find? (fun e => storedId e.2 = id) = none :=
      find?_eq_none.mpr fun e _ he =>
        storedId_ne_zero e.2 ((of_decide_eq_true he).trans hzero)
    rw [hnone, if_pos hzero]
    rfl
  · have hfind : es.find? (fun e => storedId e.2 = id) = some (authid, id) := by
      simp only [storedId_eq_iff hzero hminus]
      exact find?_of_nodup hids he
    rw [hfind, if_neg hzero, Option.map_some, Option.getD_some]
    by_cases hauthid : authid = 0
    · rw [if_neg (not_not.mpr hauthid), hauthid]
      have hminus' : (0 : Id) ≠ zeroId := by decide
      exact ⟨fun h => ⟨hminus', fun _ => h⟩, fun h => h.2 rfl⟩
    · rw [if_pos hauthid]
      split_ifs with hminus'
      · exact iff_of_false (Ne.symm hauthid) fun h => h.1 hminus'
      · exact iff_of_true rfl ⟨hminus', fun h => absurd h hauthid⟩

theorem Kept.recovered_iff (h : x.Kept es) (hauthids : (es.map Prod.fst).Nodup)
    (hids : (es.map Prod.snd).Nodup) (he : (authid, id) ∈ es) (other other' : Id) :
    (mapped (some (look x.byAuthid)) authid other = id ∧
        mapped (some (look x.byId)) id other' = authid) ↔ Recovered other' authid id := by
  rw [h.mapped_authid hauthids he]
  exact and_congr_right fun hminus => h.mapped_id hids he hminus other'

end IdTables

def readAccepted {α : Type} (data : Bytes) (f : AuthidMap → α) : Option α :=
  match fsSetAuthidMap blocks malloc data with
  | .ok (true, x) => some (f x)
  | _ => none

theorem of_readAccepted {α : Type} (data : Bytes) (f : AuthidMap → α) (v : α)
    (h : readAccepted data f = some v) :
    ∃ x, fsSetAuthidMap blocks malloc data = .ok (true, x) ∧ f x = v := by
  rw [readAccepted] at h
  split at h
  · next x hset => exact ⟨x, hset, Option.some.inj h⟩
  · cases h

/-- A line authid:uid:gid of the map. -/
structure MapLine where
  authid : Id
  uid : Id
  gid : Id

namespace MapLine

variable {b : Blocks} {m : Malloc} {x y : AuthidMap} {l first : MapLine} {lines : List MapLine}

def body (l : MapLine) : Bytes :=
  formatInt l.authid.toInt ++ colon :: (formatInt l.uid.toInt ++ colon :: formatInt l.gid.toInt)

def text (l : MapLine) (lines : List MapLine) : Bytes :=
  l.body ++ lines.flatMap fun l => newline :: l.body

structure Returned (a : FsAccess) (l : MapLine) : Prop where
  uid : a.fsAuthidToUid l.authid = l.uid ∧ a.fsUidToAuthid l.uid = l.authid
  gid : a.fsAuthidToGid l.authid = l.gid ∧ a.fsGidToAuthid l.gid = l.authid
  inverse : a.fsUidToAuthid (a.fsAuthidToUid l.authid) = l.authid ∧
    a.fsAuthidToUid (a.fsUidToAuthid l.uid) = l.uid ∧
    a.fsGidToAuthid (a.fsAuthidToGid l.authid) = l.authid ∧
    a.fsAuthidToGid (a.fsGidToAuthid l.gid) = l.gid

def Recoverable (privAuthid rootAuthid : Id) (l : MapLine) : Prop :=
  Recovered (if l.uid = 0 then rootAuthid else l.uid + userAuthid) l.authid l.uid ∧
    Recovered (if l.gid = 1 ∨ l.gid = 0 then privAuthid else l.gid + groupAuthid) l.authid l.gid

instance (privAuthid rootAuthid : Id) : Decidable (l.Recoverable privAuthid rootAuthid) :=
  inferInstanceAs (Decidable (_ ∧ _))

theorem formatInt_ne {c : UInt8} (hc : isDigit c = false) (hminus : c ≠ 45) (z : ℤ) :
    c ∉ formatInt z := by
  intro h
  rcases formatInt_mem h with rfl | hdigit
  · exact hminus rfl
  · exact Bool.false_ne_true (hc.symm.trans hdigit)

theorem short (z : Id) : (formatInt z.toInt).length ≤ 11 := by
  refine formatInt_length (d := 9) ?_
  have := z.toInt_lt
  have := z.le_toInt
  omega

theorem takeWhile_field {f : Bytes} (hf : colon ∉ f) (rest : Bytes) :
    (f ++ colon :: rest).takeWhile (· ≠ colon) = f := by
  rw [takeWhile_append_of_pos]
  · simp
  · exact fun c hc => decide_eq_true fun h => hf (h ▸ hc)

theorem sscanf_field {f rest : Bytes} {fields : List Bytes} {n : ℕ} (hf : colon ∉ f) (hne : f ≠ [])
    (hshort : f.length < 100) (hrest : sscanf n rest = .ok fields) :
    sscanf (n + 1) (f ++ colon :: rest) = .ok (f :: fields) := by
  rw [sscanf, takeWhile_field hf, if_neg hne, if_neg (Nat.not_le.mpr hshort), drop_left]
  simp only [hrest, Outcome.ok_bind]

theorem sscanf_last {f : Bytes} (hf : colon ∉ f) (hne : f ≠ []) (hshort : f.length < 100) :
    sscanf 1 f = .ok [f] := by
  have htake : f.takeWhile (· ≠ colon) = f :=
    takeWhile_eq_self_iff.mpr fun c hc => decide_eq_true fun h => hf (h ▸ hc)
  rw [sscanf, htake, if_neg hne, if_neg (Nat.not_le.mpr hshort), drop_length]

theorem colon_notMem (z : Id) : colon ∉ formatInt z.toInt := formatInt_ne rfl (by decide) _

theorem atoiId_append (z : Id) {rest : Bytes} (h : ∀ c ∈ rest.head?, isDigit c = false) :
    atoiId (formatInt z.toInt ++ rest) = z := by
  rw [atoiId, atoi_formatInt_append _ h, BitVec.ofInt_toInt]

theorem text_eq (l : MapLine) (lines : List MapLine) :
    text l lines = formatInt l.authid.toInt ++ colon :: (formatInt l.uid.toInt ++ colon ::
      (formatInt l.gid.toInt ++ lines.flatMap fun l => newline :: l.body)) := by
  simp [text, body]

theorem sscanf_gid (l : MapLine) (lines : List MapLine) : ∃ gidStr, gidStr ≠ [] ∧
    atoiId gidStr = l.gid ∧
      sscanf 1 (formatInt l.gid.toInt ++ lines.flatMap fun l => newline :: l.body) = .ok [gidStr] := by
  have hgid := short l.gid
  cases lines with
  | nil =>
    refine ⟨formatInt l.gid.toInt ++ [], by simp [formatInt_ne_nil], atoiId_append _ (by simp), ?_⟩
    rw [flatMap_nil, append_nil]
    exact sscanf_last (colon_notMem _) (formatInt_ne_nil _) (by omega)
  | cons l' lines =>
    have hauthid := short l'.authid
    refine ⟨formatInt l.gid.toInt ++ newline :: formatInt l'.authid.toInt, by simp,
      atoiId_append _ (by simp; decide), ?_⟩
    rw [flatMap_cons, body, cons_append, append_assoc, cons_append, ← cons_append, ← append_assoc]
    refine sscanf_field ?_ (by simp) (by simp; omega) rfl
    rw [mem_append, mem_cons]
    rintro (h | h | h)
    · exact colon_notMem _ h
    · cases h
    · exact colon_notMem _ h

theorem sscanf_text (l : MapLine) (lines : List MapLine) : ∃ gidStr, gidStr ≠ [] ∧
    atoiId gidStr = l.gid ∧ sscanf 3 (text l lines) =
      .ok [formatInt l.authid.toInt, formatInt l.uid.toInt, gidStr] := by
  obtain ⟨gidStr, hne, hgid, hscan⟩ := sscanf_gid l lines
  have hauthid := short l.authid
  have huid := short l.uid
  refine ⟨gidStr, hne, hgid, ?_⟩
  rw [text_eq]
  refine sscanf_field (colon_notMem _) (formatInt_ne_nil _) (by omega) ?_
  exact sscanf_field (colon_notMem _) (formatInt_ne_nil _) (by omega) hscan

theorem nextLines_append {f : Bytes} (hf : newline ∉ f) (rest : Bytes) :
    nextLines (f ++ rest) = nextLines rest := by
  induction f with
  | nil => rfl
  | cons c f ih =>
    obtain ⟨hc, hf⟩ := not_or.mp (mt mem_cons.mpr hf)
    rw [cons_append, nextLines, if_neg fun h => hc h.symm, ih hf]

theorem nextLines_text (l : MapLine) (lines : List MapLine) : nextLines (text l lines) =
    nextLines (lines.flatMap fun l => newline :: l.body) := by
  have hnum (z : Id) : newline ∉ formatInt z.toInt := formatInt_ne rfl (by decide) _
  have hcolon (rest : Bytes) : nextLines (colon :: rest) = nextLines rest := by
    rw [nextLines, if_neg (by decide)]
  rw [text_eq, nextLines_append (hnum _), hcolon, nextLines_append (hnum _), hcolon,
    nextLines_append (hnum _)]

variable {code : Bool}

theorem mapLines_line {eu eg : List (Id × Id)} {cps : List Bytes}
    (hu : x.uids.Kept eu) (hg : x.gids.Kept eg)
    (h : mapLines m (text l lines :: cps) x = .ok (code, y)) :
    ∃ x', mapLines m cps x' = .ok (code, y) ∧ x'.uids.Kept (eu ++ [(l.authid, l.uid)]) ∧ x'.gids.Kept (eg ++ [(l.authid, l.gid)]) := by
  obtain ⟨gidStr, hne, hgid, hscan⟩ := sscanf_text l lines
  have hplain : ¬(text l lines).head? = some 35 := by
    intro hcomment
    rw [text_eq, head?_append_of_ne_nil _ (formatInt_ne_nil _)] at hcomment
    exact formatInt_ne rfl (by decide) _ (mem_of_head? hcomment)
  have hid (z : Id) : atoiId (formatInt z.toInt) = z := by
    rw [atoiId, atoi_formatInt, BitVec.ofInt_toInt]
  rw [mapLines, if_neg hplain, hscan, Outcome.ok_bind, if_neg fun h => formatInt_ne_nil _ h.1] at h
  obtain ⟨uids, hu', h⟩ := bind_eq_ok.mp h
  obtain ⟨gids, hg', h⟩ := bind_eq_ok.mp h
  simp only [getD_cons_zero, getD_cons_succ, enterField, formatInt_ne_nil, hne, hid, hgid,
    if_false] at hu' hg'
  exact ⟨_, h, hu.enter hu', hg.enter hg'⟩

theorem mapLines_text {eu eg : List (Id × Id)} (hu : x.uids.Kept eu) (hg : x.gids.Kept eg)
    (h : mapLines m (text l lines :: nextLines (text l lines)) x = .ok (code, y)) :
    y.uids.Kept (eu ++ (l :: lines).map fun l => (l.authid, l.uid)) ∧
      y.gids.Kept (eg ++ (l :: lines).map fun l => (l.authid, l.gid)) := by
  rw [nextLines_text] at h
  induction lines generalizing l x eu eg with
  | nil =>
    obtain ⟨x', h, hu', hg'⟩ := mapLines_line hu hg h
    cases ok.inj h
    exact ⟨hu', hg'⟩
  | cons l' lines ih =>
    obtain ⟨x', h, hu', hg'⟩ := mapLines_line hu hg h
    rw [flatMap_cons, cons_append, nextLines, if_pos rfl, ← text, nextLines_text] at h
    have hrest := ih hu' hg' h
    rw [append_assoc, append_assoc] at hrest
    exact hrest

theorem zero_notMem (l : MapLine) (lines : List MapLine) : ∀ c ∈ text l lines, c ≠ 0 := by
  rintro c hc rfl
  have hbody (l : MapLine) : (0 : UInt8) ∉ l.body := by
    have hnum (z : Id) : (0 : UInt8) ∉ formatInt z.toInt := formatInt_ne rfl (by decide) _
    simp [body, hnum, colon]
  rcases mem_append.mp hc with hc | hc
  · exact hbody l hc
  · obtain ⟨l', -, hc⟩ := mem_flatMap.mp hc
    exact hbody l' ((mem_cons.mp hc).resolve_left (by decide))

theorem kept_of_set (h : fsSetAuthidMap b m (text l lines ++ [newline]) = .ok (code, x)) :
    x.uids.Kept ((l :: lines).map fun l => (l.authid, l.uid)) ∧
      x.gids.Kept ((l :: lines).map fun l => (l.authid, l.gid)) := by
  obtain ⟨uids, hu, h⟩ := bind_eq_ok.mp h
  obtain ⟨gids, hg, h⟩ := bind_eq_ok.mp h
  have htext : (text l lines).takeWhile (· ≠ 0) = text l lines :=
    takeWhile_eq_self_iff.mpr fun c hc => decide_eq_true (zero_notMem l lines c hc)
  simp only [getLast?_concat, ne_eq, not_true_eq_false, if_false, dropLast_concat, htext] at h
  exact mapLines_text (kept_init hu) (kept_init hg) h

end MapLine

inductive Principal where
  | user (uid : Id)
  | group (gid : Id)
  deriving DecidableEq

namespace Principal

variable {b : Blocks} {m : Malloc} {x y : AuthidMap}

def SameKind : Principal → Principal → Prop
  | user _, user _ => True
  | group _, group _ => True
  | _, _ => False

def Special : Principal → Prop
  | user uid => uid = 0
  | group gid => gid = 1 ∨ gid = 0

def authid (a : FsAccess) : Principal → Id
  | user uid => a.fsUidToAuthid uid
  | group gid => a.fsGidToAuthid gid

def lookedUp (x : AuthidMap) : Principal → Id
  | user uid => look x.uids.byId uid
  | group gid => look x.gids.byId gid

def listed (x : AuthidMap) (p : Principal) : Option Id :=
  if p.lookedUp x = 0 then none else some (if p.lookedUp x = zeroId then 0 else p.lookedUp x)

def unlisted (privAuthid rootAuthid : Id) : Principal → Id
  | user uid => if uid = 0 then rootAuthid else uid + userAuthid
  | group gid => if gid = 1 ∨ gid = 0 then privAuthid else gid + groupAuthid

theorem authid_eq (privAuthid rootAuthid : Id) (p : Principal) :
    p.authid (x.access privAuthid rootAuthid) =
      (p.listed x).getD (p.unlisted privAuthid rootAuthid) := by
  have hmapped (ht : HashTable) (key other : Id) : mapped (some (look ht)) key other =
      (if look ht key = 0 then none else
        some (if look ht key = zeroId then 0 else look ht key)).getD other := by
    rw [mapped]
    by_cases hzero : look ht key = 0
    · rw [if_neg (not_not.mpr hzero), if_pos hzero, Option.getD_none]
    · rw [if_pos hzero, if_neg hzero, Option.getD_some]
  cases p with
  | user uid => exact hmapped _ _ _
  | group gid => exact hmapped _ _ _

theorem mapLines_kept {cps : List Bytes} {code : Bool} (hu : ∃ eu, x.uids.Kept eu)
    (hg : ∃ eg, x.gids.Kept eg) (h : mapLines m cps x = .ok (code, y)) :
    (∃ eu, y.uids.Kept eu) ∧ (∃ eg, y.gids.Kept eg) ∧
      (code = true → y.uids.errorCount = 0 ∧ y.gids.errorCount = 0) := by
  induction cps generalizing x with
  | nil =>
    cases ok.inj h
    exact ⟨hu, hg, fun hcode => Nat.add_eq_zero_iff.mp (of_decide_eq_true hcode)⟩
  | cons cp cps ih =>
    have hfield {t t' : IdTables} {authid : Id} {str : Bytes} (ht : ∃ es, t.Kept es)
        (h : t.enterField m authid str = .ok t') : ∃ es, t'.Kept es := by
      rw [enterField] at h
      split_ifs at h
      · rwa [← ok.inj h]
      · obtain ⟨es, ht⟩ := ht
        exact ⟨_, ht.enter h⟩
    rw [mapLines] at h
    split_ifs at h
    · exact ih hu hg h
    · obtain ⟨fields, -, h⟩ := bind_eq_ok.mp h
      split_ifs at h
      · cases ok.inj h
        exact ⟨hu, hg, by simp⟩
      · obtain ⟨uids, hu', h⟩ := bind_eq_ok.mp h
        obtain ⟨gids, hg', h⟩ := bind_eq_ok.mp h
        exact ih (hfield hu hu') (hfield hg hg') h

variable {data : Bytes}

theorem accepted (h : fsSetAuthidMap b m data = .ok (true, x)) :
    (∃ eu, x.uids.Kept eu ∧ x.uids.errorCount = 0) ∧
      ∃ eg, x.gids.Kept eg ∧ x.gids.errorCount = 0 := by
  obtain ⟨uids, hu, h⟩ := bind_eq_ok.mp h
  obtain ⟨gids, hg, h⟩ := bind_eq_ok.mp h
  cases hlast : data.getLast? with
  | none =>
    rw [hlast] at h
    cases h
  | some last =>
    simp only [hlast] at h
    split_ifs at h
    · cases h
    · obtain ⟨⟨eu, hu'⟩, ⟨eg, hg'⟩, hcount⟩ := mapLines_kept ⟨_, kept_init hu⟩ ⟨_, kept_init hg⟩ h
      exact ⟨⟨eu, hu', (hcount rfl).1⟩, eg, hg', (hcount rfl).2⟩

theorem look_inj {t : IdTables} (h : ∃ es, t.Kept es ∧ t.errorCount = 0) {i j : Id}
    (hi : look t.byId i ≠ 0) (hij : look t.byId i = look t.byId j) : i = j := by
  obtain ⟨es, h, hcount⟩ := h
  have hfound {k : Id} (hk : look t.byId k ≠ 0) :
      ∃ e ∈ es, e.1 = look t.byId k ∧ storedId e.2 = k := by
    rw [h.look_byId] at hk ⊢
    cases hfind : es.find? fun e => decide (storedId e.2 = k) with
    | none =>
      rw [hfind] at hk
      exact absurd rfl hk
    | some e =>
      have hstored := find?_some (p := fun e : Id × Id => decide (storedId e.2 = k)) hfind
      exact ⟨e, mem_of_find?_eq_some hfind, rfl, of_decide_eq_true hstored⟩
  obtain ⟨e, he, hauthid, rfl⟩ := hfound hi
  obtain ⟨f, hf, hauthid', rfl⟩ := hfound (hij ▸ hi)
  rw [inj_on_of_nodup_map (h.counted hcount) he hf (hauthid.trans (hij.trans hauthid'.symm))]

variable {p q : Principal}

theorem lookedUp_inj (h : fsSetAuthidMap b m data = .ok (true, x))
    (hkind : p.SameKind q) (hp : p.lookedUp x ≠ 0) (hpq : p.lookedUp x = q.lookedUp x) : p = q := by
  obtain ⟨hu, hg⟩ := accepted h
  cases p with
  | user uid =>
    cases q with
    | user uid' => rw [look_inj hu hp hpq]
    | group => exact hkind.elim
  | group gid =>
    cases q with
    | user => exact hkind.elim
    | group gid' => rw [look_inj hg hp hpq]

theorem listed_isSome : (p.listed x).isSome = true ↔ p.lookedUp x ≠ 0 := by
  rw [listed]
  by_cases hzero : p.lookedUp x = 0
  · rw [if_pos hzero]
    exact iff_of_false Bool.false_ne_true (not_not.mpr hzero)
  · rw [if_neg hzero]
    exact iff_of_true rfl hzero

theorem listed_inj (hp : p.lookedUp x ≠ 0) (hq : q.lookedUp x ≠ 0)
    (h : p.listed x = q.listed x) : p.lookedUp x = q.lookedUp x := by
  rw [listed, listed, if_neg hp, if_neg hq] at h
  have hvalue := Option.some.inj h
  split_ifs at hvalue with hpm hqm
  · exact hpm.trans hqm.symm
  · exact absurd hvalue.symm hq
  · exact absurd hvalue hp
  · exact hvalue

theorem unlisted_inj {privAuthid rootAuthid : Id} (hkind : p.SameKind q)
    (hp : ¬p.Special) (hq : ¬q.Special)
    (h : p.unlisted privAuthid rootAuthid = q.unlisted privAuthid rootAuthid) : p = q := by
  cases p with
  | user uid =>
    cases q with
    | user uid' =>
      change ¬uid = 0 at hp
      change ¬uid' = 0 at hq
      rw [unlisted, unlisted, if_neg hp, if_neg hq] at h
      rw [add_right_cancel h]
    | group => exact hkind.elim
  | group gid =>
    cases q with
    | user => exact hkind.elim
    | group gid' =>
      change ¬(gid = 1 ∨ gid = 0) at hp
      change ¬(gid' = 1 ∨ gid' = 0) at hq
      rw [unlisted, unlisted, if_neg hp, if_neg hq] at h
      rw [add_right_cancel h]

theorem principals_separated (privAuthid rootAuthid : Id)
    (h : fsSetAuthidMap b m data = .ok (true, x)) (p q : Principal) :
    p.authid (x.access privAuthid rootAuthid) =
        (p.listed x).getD (p.unlisted privAuthid rootAuthid) ∧ (p.SameKind q → p ≠ q →
        (p.listed x).isSome = true ∧ (q.listed x).isSome = true ∨
          p.listed x = none ∧ q.listed x = none ∧ ¬p.Special ∧ ¬q.Special →
        p.authid (x.access privAuthid rootAuthid) ≠ q.authid (x.access privAuthid rootAuthid)) := by
  refine ⟨authid_eq privAuthid rootAuthid p, fun hkind hne hboth hsame => hne ?_⟩
  rw [authid_eq, authid_eq] at hsame
  rcases hboth with ⟨hp, hq⟩ | ⟨hp, hq, hplain, hplain'⟩
  · obtain ⟨v, hv⟩ := Option.isSome_iff_exists.mp hp
    obtain ⟨w, hw⟩ := Option.isSome_iff_exists.mp hq
    rw [hv, hw] at hsame
    have hp := listed_isSome.mp hp
    have hlisted : p.listed x = q.listed x := hv.trans ((congrArg some hsame).trans hw.symm)
    exact lookedUp_inj h hkind hp (listed_inj hp (listed_isSome.mp hq) hlisted)
  · rw [hp, hq] at hsame
    exact unlisted_inj hkind hplain hplain' hsame

def sampleData : Bytes := MapLine.text ⟨40, 100, 20⟩ [⟨41, 101, 21⟩] ++ [newline]

theorem two_users_separated : ∃ x, fsSetAuthidMap blocks malloc sampleData = .ok (true, x) ∧
    (user 100).authid (x.access 1 10) ≠ (user 101).authid (x.access 1 10) := by
  obtain ⟨x, hset, hlisted⟩ := of_readAccepted sampleData
    (fun x => ((user 100).listed x, (user 101).listed x)) (some 40, some 41) (by decide +kernel)
  obtain ⟨hfirst, hsecond⟩ := Prod.mk.inj hlisted
  have hboth : ((user 100).listed x).isSome = true ∧ ((user 101).listed x).isSome = true :=
    ⟨by rw [hfirst]; rfl, by rw [hsecond]; rfl⟩
  exact ⟨x, hset,
    (principals_separated 1 10 hset (user 100) (user 101)).2 trivial (by decide) (.inl hboth)⟩

theorem shared_authids : ∃ x, fsSetAuthidMap blocks malloc sampleData = .ok (true, x) ∧
    [user 100, group 20, user (-960), user 1500, group 500, group 0].map
      (authid (x.access 1 10)) = [40, 40, 40, 2500, 2500, 1] :=
  of_readAccepted _ _ _ (by decide +kernel)

end Principal

end MachUS.Ux.Prot
