import MachUS.Foundation.DoublyLinked
import Mathlib.Data.List.AList

namespace MachUS.Hash

abbrev HashKey := Int32

abbrev HashValue := UInt32

abbrev Addr := ℕ

inductive Trap where
  | address
  | divideByZero
  | endlessLoop
  deriving DecidableEq

abbrev Outcome := Except Trap

inductive EntryRef where
  | table (index : ℤ)
  | node (a : Addr)
  deriving DecidableEq

structure HashEntry where
  key : HashKey
  value : HashValue
  next : Option EntryRef
  prev : Option EntryRef
  deriving DecidableEq

abbrev Entries := AList fun _ : EntryRef => HashEntry

namespace Entries

def deref (h : Entries) (r : EntryRef) : Outcome HashEntry :=
  match h.lookup r with
  | some e => .ok e
  | none => .error .address

def write (h : Entries) (r : EntryRef) (f : HashEntry → HashEntry) : Outcome Entries := do
  let e ← h.deref r
  .ok (h.insert r (f e))

def seek (h : Entries) (same : HashKey → Bool) : ℕ → EntryRef → Outcome (EntryRef × Bool)
  | 0, _ => .error .endlessLoop
  | fuel + 1, entry => do
    match (← h.deref entry).next with
    | none => .ok (entry, false)
    | some next =>
      if same (← h.deref next).key then .ok (next, true) else h.seek same fuel next

def append (h : Entries) (entry : EntryRef) (a : Addr) (junk : HashEntry) (key : HashKey)
    (value : HashValue) : Outcome Entries := do
  let h ← Entries.write (h.insert (.node a) junk) entry fun e => { e with next := some (.node a) }
  let h ← h.write (.node a) fun e => { e with prev := some entry }
  let h ← h.write (.node a) fun e => { e with next := none }
  h.write (.node a) fun e => { e with key := key, value := value }

def relink (h : Entries) (p : Option EntryRef) (f : HashEntry → HashEntry) : Outcome Entries :=
  match p with
  | none => .ok h
  | some r => h.write r f

def unlink (h : Entries) (entry : EntryRef) : Outcome Entries := do
  let e ← h.deref entry
  let h ← h.relink e.prev fun p => { p with next := e.next }
  let e ← h.deref entry
  let h ← h.relink e.next fun n => { n with prev := e.prev }
  .ok (h.erase entry)

def values (h : Entries) : ℕ → Option EntryRef → Outcome (List HashValue)
  | _, none => .ok []
  | 0, some _ => .error .endlessLoop
  | fuel + 1, some entry => do
    let e ← h.deref entry
    .ok (e.value :: (← h.values fuel e.next))

end Entries

structure HashTable where
  hashfun : Option (HashKey → Int32)
  hashcompare : Option (HashKey → HashKey → Bool)
  length : Int32
  entries : Entries

structure Blocks where
  table : Bool
  headers : Option (ℕ → HashEntry)

structure Malloc where
  entry : Entries → Option (Addr × HashEntry)
  fresh : ∀ h a e, entry h = some (a, e) → EntryRef.node a ∉ h

def hashInvalid : HashKey := -1

-- size * sizeof(struct hash_entry), in the 32 bits of a size_t.
def tableBytes (size : UInt32) : UInt32 := size * 16

def allocated (size : UInt32) (junk : ℕ → HashEntry) : Entries :=
  (List.range ((tableBytes size).toNat / 16)).foldl (fun h (i : ℕ) => h.insert (.table i) (junk i)) ∅

def clearHeader (h : Entries) (i : ℕ) : Outcome Entries := do
  let h ← h.write (.table i) fun e => { e with next := none }
  h.write (.table i) fun e => { e with key := hashInvalid }

def clearHeaders (h : Entries) : List ℕ → Outcome Entries
  | [] => .ok h
  | i :: is => do
    let h ← clearHeader h i
    clearHeaders h is

def hashInit (b : Blocks) (hashfun : Option (HashKey → Int32))
    (comparefun : Option (HashKey → HashKey → Bool)) (size : UInt32) : Outcome HashTable := do
  if b.table then
    let h ← clearHeaders ((b.headers.map (allocated size)).getD ∅) (List.range size.toNat)
    .ok { hashfun := hashfun, hashcompare := comparefun, length := (size - 1).toInt32, entries := h }
  else .error .address

namespace HashTable

def index (ht : HashTable) (key : HashKey) : Outcome ℤ :=
  match ht.hashfun with
  | none => .ok (key &&& ht.length).toInt
  | some hashFunction =>
    if ht.length + 1 = 0 then .error .divideByZero
    else .ok ((hashFunction key).toInt.tmod (ht.length + 1).toInt)

def compare (ht : HashTable) (key' key : HashKey) : Bool :=
  match ht.hashcompare with
  | none => decide (key' = key)
  | some compare => compare key' key

def find (ht : HashTable) (key : HashKey) : Outcome (EntryRef × Bool) := do
  let index ← ht.index key
  ht.entries.seek (fun key' => ht.compare key' key) (ht.entries.keys.length + 1) (.table index)

def hashEnter (m : Malloc) (ht : HashTable) (key : HashKey) (value : HashValue) :
    Outcome (Bool × HashTable) := do
  let (entry, found) ← ht.find key
  if found then .ok (false, ht)
  else
    match m.entry ht.entries with
    | none => .error .address
    | some (a, junk) =>
      let h ← ht.entries.append entry a junk key value
      .ok (true, { ht with entries := h })

def hashLookup (ht : HashTable) (key : HashKey) : Outcome HashValue := do
  let (entry, found) ← ht.find key
  if found then .ok (← ht.entries.deref entry).value else .ok 0

def hashRemove (ht : HashTable) (key : HashKey) : Outcome (Bool × HashTable) := do
  let (entry, found) ← ht.find key
  if found then
    let h ← ht.entries.unlink entry
    .ok (true, { ht with entries := h })
  else .ok (false, ht)

def applyFrom (ht : HashTable) : List ℕ → Outcome (List HashValue)
  | [] => .ok []
  | i :: is => do
    let e ← ht.entries.deref (.table i)
    let vs ← ht.entries.values ht.entries.keys.length e.next
    .ok (vs ++ (← ht.applyFrom is))

def hashApply (ht : HashTable) : Outcome (List HashValue) :=
  ht.applyFrom (List.range (ht.length + 1).toInt.toNat)

end HashTable

def accessTableTableSize : UInt32 := 128

def accessTableHash (id : HashKey) : Int32 := id ^^^ (accessTableTableSize - 1).toInt32

def accessTableCompare (id1 id2 : HashKey) : Bool := decide (id1 = id2)

end MachUS.Hash
