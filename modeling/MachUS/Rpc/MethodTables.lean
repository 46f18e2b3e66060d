import MachUS.Hash.FirstMatch
import MachUS.Rpc.MethodInfo

namespace MachUS.Rpc

open Hash Hash.Sample Text Option List

def methodInfoObjHashSize : UInt32 := 1024

-- char is signed.
def cStrHash (str : Bytes) : Int32 := str.foldl (fun ret c => ret + c.toInt8.toInt32) 0

def cStrCmp : Bytes → Bytes → Bool
  | [], _ => true
  | _ :: _, [] => false
  | c :: str1, d :: str2 => if c ≠ d then false else cStrCmp str1 str2

structure MachMethod where
  methodName : HashKey
  methodArgs : Option Bytes

structure MethodTables where
  msgidTable : HashTable
  nameTable : HashTable
  inited : List HashValue

structure MethodMemory where
  str : HashKey → Bytes
  mid : HashValue → MachMethod

namespace MethodMemory

variable (mem : MethodMemory)

def init (b : Blocks) : Option MethodTables := do
  let msgidTable ← (hashInit b none none methodInfoObjHashSize).toOption
  let nameTable ← (hashInit b (some fun p => cStrHash (mem.str p))
    (some fun p q => cStrCmp (mem.str p) (mem.str q)) methodInfoObjHashSize).toOption
  some ⟨msgidTable, nameTable, []⟩

def msgidOf (type : ArgType) : Int32 := .ofInt type.msgid

def enterMsgid (m : Malloc) (table : HashTable) (type : ArgType) (a : HashValue) :
    Option HashTable :=
  if msgidOf type = -1 then some table
  else (table.hashEnter m (msgidOf type) a).toOption.map Prod.snd

def defineMethod (m : Malloc) (x : MethodTables) (a : HashValue) : Option MethodTables :=
  match (mem.mid a).methodArgs with
  | none => some x
  | some args =>
    if (mem.mid a).methodName = 0 ∨ a ∈ x.inited then some x
    else do
      match ← (parseArgInfo args).toOption with
      | none => some { x with inited := a :: x.inited }
      | some type =>
        let msgidTable ← enterMsgid m x.msgidTable type a
        let (_, nameTable) ← (x.nameTable.hashEnter m (mem.mid a).methodName a).toOption
        some ⟨msgidTable, nameTable, a :: x.inited⟩

def lookupMsgid (x : MethodTables) (msgid : Int32) : Hash.Outcome HashValue :=
  x.msgidTable.hashLookup msgid

def lookupName (x : MethodTables) (name : HashKey) : Hash.Outcome HashValue :=
  x.nameTable.hashLookup name

def declared (a : HashValue) : Option ArgType :=
  if (mem.mid a).methodName = 0 then none
  else (mem.mid a).methodArgs.bind fun args => (parseArgInfo args).toOption.join

def nameEntry (a : HashValue) : Option (HashKey × HashValue) :=
  (mem.declared a).map fun _ => ((mem.mid a).methodName, a)

def msgidEntry (a : HashValue) : Option (HashKey × HashValue) :=
  (mem.declared a).bind fun type => if msgidOf type = -1 then none else some (msgidOf type, a)

end MethodMemory

theorem toOption_eq_some {ε α : Type} {x : Except ε α} {a : α} :
    x.toOption = some a ↔ x = .ok a := by
  cases x <;> simp [Except.toOption]

theorem cStrCmp_iff {str1 str2 : Bytes} : cStrCmp str1 str2 = true ↔ str1 <+: str2 := by
  induction str1 generalizing str2 with
  | nil => simp [cStrCmp]
  | cons c str1 ih =>
    cases str2 with
    | nil => simp [cStrCmp]
    | cons d str2 =>
      rw [cStrCmp, cons_prefix_cons, ← ih]
      split_ifs with hne
      · exact iff_of_false (by simp) fun h => hne h.1
      · exact (and_iff_right (not_not.mp hne)).symm

def bucket (str : Bytes) : ℤ := (cStrHash str).toInt.tmod 1024

/-- What a look-up returns: a method with the property that is looked for exactly if one of the
defined methods has it, and then one that has it. -/
def Exact (found : Hash.Outcome HashValue) (mids : List HashValue) (P : HashValue → Prop) : Prop :=
  ∃ a, found = .ok a ∧ (a ≠ 0 → a ∈ mids ∧ P a) ∧ ((∃ b ∈ mids, P b) → a ≠ 0)

namespace MethodMemory

variable (mem : MethodMemory)

def HasMsgid (msgid : Int32) (a : HashValue) : Prop :=
  msgid ≠ -1 ∧ ∃ type, mem.declared a = some type ∧ msgidOf type = msgid

def Named (name : HashKey) (a : HashValue) : Prop :=
  (mem.declared a).isSome = true ∧ mem.str (mem.mid a).methodName = mem.str name

def Misleads (name : HashKey) (a : HashValue) : Prop :=
  (mem.declared a).isSome = true ∧ mem.str (mem.mid a).methodName <+: mem.str name ∧
    mem.str (mem.mid a).methodName ≠ mem.str name ∧
    bucket (mem.str (mem.mid a).methodName) = bucket (mem.str name)

def Distinguished (mids : List HashValue) (name : HashKey) : Prop :=
  0 ≤ bucket (mem.str name) ∧
    ∀ l₁ a l₂, mids = l₁ ++ a :: l₂ → mem.Misleads name a → ∃ b ∈ l₁, mem.Named name b

variable {mem} {mids : List HashValue} {x y : MethodTables} {m : Malloc} {b : Blocks}

structure Kept (mem : MethodMemory) (x : MethodTables) (mids : List HashValue) : Prop where
  msgids : Filed x.msgidTable 1024 (mids.filterMap mem.msgidEntry)
  msgidKeys : x.msgidTable.hashfun = none ∧ x.msgidTable.hashcompare = none
  names : Filed x.nameTable 1024 (mids.filterMap mem.nameEntry)
  nameKeys : x.nameTable.hashfun = some (fun p => cStrHash (mem.str p)) ∧
    x.nameTable.hashcompare = some fun p q => cStrCmp (mem.str p) (mem.str q)
  inited : ∀ a ∈ x.inited, a ∈ mids

theorem kept_init (h : mem.init b = some x) : Kept mem x [] := by
  obtain ⟨msgidTable, hmsgid, h⟩ := bind_eq_some_iff.mp h
  obtain ⟨nameTable, hname, h⟩ := bind_eq_some_iff.mp h
  cases h
  obtain ⟨hmf, hmc, -, hm⟩ := Filed.init (fun ht (hc : _ = none) a b c hab hbc => by
    simp only [HashTable.compare, hc, decide_eq_true_eq] at hab hbc ⊢
    exact hab.trans hbc) (toOption_eq_some.mp hmsgid)
  obtain ⟨hnf, hnc, -, hn⟩ := Filed.init (fun ht (hc : _ = some _) a b c hab hbc => by
    simp only [HashTable.compare, hc, cStrCmp_iff] at hab hbc ⊢
    exact hab.trans hbc) (toOption_eq_some.mp hname)
  exact ⟨hm, ⟨hmf, hmc⟩, hn, ⟨hnf, hnc⟩, by simp⟩

theorem find?_again {α β : Type} {f : α → Option β} {l : List α} {a : α} (ha : a ∈ l)
    (p : β → Bool) : (l.filterMap f).find? p = ((l ++ [a]).filterMap f).find? p := by
  rw [filterMap_append, find?_append]
  cases hfind : (l.filterMap f).find? p with
  | some x => rfl
  | none =>
    symm
    rw [none_or, find?_eq_none]
    intro x hx
    refine find?_eq_none.mp hfind x ?_
    simp only [mem_filterMap, mem_singleton] at hx ⊢
    obtain ⟨_, rfl, hx⟩ := hx
    exact ⟨_, ha, hx⟩

theorem Kept.undeclared (h : Kept mem x mids) {a : HashValue} (ha : mem.declared a = none)
    {inited : List HashValue} (hinited : ∀ c ∈ inited, c ∈ x.inited ∨ c = a) :
    Kept mem { x with inited := inited } (mids ++ [a]) := by
  refine ⟨h.msgids.congr fun p => ?_, h.msgidKeys, h.names.congr fun p => ?_, h.nameKeys,
    fun c hc => ?_⟩
  · simp [msgidEntry, ha]
  · simp [nameEntry, ha]
  · rw [mem_append, mem_singleton]
    exact (hinited c hc).imp_left (h.inited c)

theorem Kept.define (h : Kept mem x mids) {a : HashValue}
    (hdefine : mem.defineMethod m x a = some y) : Kept mem y (mids ++ [a]) := by
  rw [defineMethod] at hdefine
  cases hargs : (mem.mid a).methodArgs with
  | none =>
    rw [hargs] at hdefine
    cases hdefine
    exact h.undeclared (by simp [declared, hargs]) fun c hc => .inl hc
  | some args =>
    simp only [hargs] at hdefine
    split_ifs at hdefine with hskip
    · cases hdefine
      rcases hskip with hname | ha
      · exact h.undeclared (by simp [declared, hname]) fun c hc => .inl hc
      · have hmem := h.inited a ha
        exact ⟨h.msgids.congr (find?_again hmem), h.msgidKeys, h.names.congr (find?_again hmem),
          h.nameKeys, fun c hc => mem_append_left _ (h.inited c hc)⟩
    · obtain ⟨hname, -⟩ := not_or.mp hskip
      obtain ⟨parsed, hparsed, hdefine⟩ := bind_eq_some_iff.mp hdefine
      cases parsed with
      | none =>
        cases hdefine
        refine h.undeclared (by simp [declared, hargs, hparsed]) fun c hc => ?_
        exact (mem_cons.mp hc).symm
      | some type =>
        have hdeclared : mem.declared a = some type := by
          simp [declared, hname, hargs, hparsed]
        obtain ⟨msgidTable, hmsgid, hdefine⟩ := bind_eq_some_iff.mp hdefine
        obtain ⟨⟨done, nameTable⟩, henter, hdefine⟩ := bind_eq_some_iff.mp hdefine
        cases hdefine
        obtain ⟨i, -, -, -, ⟨entries, rfl⟩, hnames⟩ :=
          h.names.hashEnter_ok (toOption_eq_some.mp henter)
        have hmsgids : Filed msgidTable 1024 ((mids ++ [a]).filterMap mem.msgidEntry) ∧
            msgidTable.hashfun = none ∧ msgidTable.hashcompare = none := by
          rw [filterMap_append]
          rw [enterMsgid] at hmsgid
          split_ifs at hmsgid with hnone
          · cases hmsgid
            exact ⟨h.msgids.congr fun p => by simp [msgidEntry, hdeclared, hnone], h.msgidKeys⟩
          · obtain ⟨⟨done, table⟩, henter, rfl⟩ := map_eq_some_iff.mp hmsgid
            obtain ⟨i, -, -, -, ⟨entries, rfl⟩, hfiled⟩ :=
              h.msgids.hashEnter_ok (toOption_eq_some.mp henter)
            exact ⟨hfiled.congr fun p => by simp [msgidEntry, hdeclared, hnone], h.msgidKeys⟩
        refine ⟨hmsgids.1, hmsgids.2, ?_, h.nameKeys, fun c hc => ?_⟩
        · rw [filterMap_append]
          exact hnames.congr fun p => by simp [nameEntry, hdeclared]
        · rcases mem_cons.mp hc with rfl | hc
          · exact mem_append_right _ (mem_singleton_self _)
          · exact mem_append_left _ (h.inited c hc)

theorem Kept.run (h : Kept mem x mids) {more : List HashValue}
    (hrun : more.foldlM (mem.defineMethod m) x = some y) : Kept mem y (mids ++ more) := by
  induction more generalizing x mids with
  | nil =>
    cases hrun
    rwa [append_nil]
  | cons a more ih =>
    obtain ⟨z, hdefine, hrun⟩ := bind_eq_some_iff.mp hrun
    rw [append_cons]
    exact ih (h.define hdefine) hrun

theorem exact_first {p : HashValue → Bool} {P : HashValue → Prop} (hzero : 0 ∉ mids)
    (hP : ∀ a, P a → p a = true) : Exact (.ok ((mids.find? p).getD 0)) mids P ↔
      ∀ l₁ a l₂, mids = l₁ ++ a :: l₂ → p a = true → ¬P a → ∃ b ∈ l₁, P b := by
  constructor
  · rintro ⟨c, hc, hfound, -⟩ l₁ a l₂ rfl ha hnot
    have hc := Except.ok.inj hc
    rw [find?_append, find?_cons_of_pos ha] at hc
    cases hfind : l₁.find? p with
    | none =>
      rw [hfind] at hc
      obtain rfl : a = c := hc
      have hne : a ≠ 0 := fun h => hzero (h ▸ by simp)
      exact absurd (hfound hne).2 hnot
    | some b =>
      rw [hfind] at hc
      obtain rfl : b = c := hc
      have hb := mem_of_find?_eq_some hfind
      have hne : b ≠ 0 := fun h => hzero (h ▸ mem_append_left _ hb)
      exact ⟨b, hb, (hfound hne).2⟩
  · intro h
    cases hfind : mids.find? p with
    | none =>
      refine ⟨0, rfl, fun h => absurd rfl h, ?_⟩
      rintro ⟨b, hb, hPb⟩
      exact absurd (hP b hPb) (find?_eq_none.mp hfind b hb)
    | some c =>
      obtain ⟨hc, l₁, l₂, hsplit, hfirst⟩ := find?_eq_some_iff_append.mp hfind
      have hmem : c ∈ mids := mem_of_find?_eq_some hfind
      refine ⟨c, rfl, fun _ => ⟨hmem, ?_⟩, fun _ h => hzero (h ▸ hmem)⟩
      by_contra hnot
      obtain ⟨b, hb, hPb⟩ := h l₁ c l₂ hsplit hc hnot
      have hbad := hfirst b hb
      rw [hP b hPb] at hbad
      cases hbad

theorem find?_entries {f : HashValue → Option (HashKey × HashValue)}
    (hf : ∀ a e, f a = some e → e.2 = a) (p : HashKey × HashValue → Bool) :
    (((mids.filterMap f).find? p).map Prod.snd).getD 0 =
      (mids.find? fun a => (f a).any p).getD 0 := by
  rw [find?_filterMap]
  cases hfind : mids.find? fun a => (f a).any p with
  | none => rfl
  | some a =>
    cases hfa : f a with
    | none =>
      have hany := find?_some hfind
      rw [hfa] at hany
      cases hany
    | some e =>
      rw [bind_some, hfa, map_some, getD_some]
      exact hf a e hfa

namespace Kept

section

variable (h : Kept mem x mids)

include h

theorem name_index (p : HashKey) : x.nameTable.index p = .ok (bucket (mem.str p)) := by
  obtain ⟨full, hrows, -⟩ := h.names.rows
  have hlen : ¬x.nameTable.length + 1 = 0 := mt hrows.sized.succ_eq_zero.mp (by decide)
  simp only [HashTable.index, h.nameKeys.1, if_neg hlen, hrows.sized.succ_toInt]
  rfl

theorem name_takes {name : HashKey} {i : ℕ} (hi : bucket (mem.str name) = i) (a : HashValue) :
    (mem.nameEntry a).any (x.nameTable.takes i name) = true ↔
      mem.Named name a ∨ mem.Misleads name a := by
  rw [nameEntry, Named, Misleads]
  cases hdeclared : mem.declared a with
  | none => simp
  | some type =>
    have hcompare (p q : HashKey) : x.nameTable.compare p q = cStrCmp (mem.str p) (mem.str q) := by
      simp only [HashTable.compare, h.nameKeys.2]
    simp only [map_some, any_some, HashTable.takes, h.name_index, hcompare,
      Bool.and_eq_true, decide_eq_true_eq, Except.ok.injEq, ← hi, cStrCmp_iff, isSome_some,
      true_and]
    constructor
    · rintro ⟨hbucket, hstarts⟩
      by_cases heq : mem.str (mem.mid a).methodName = mem.str name
      · exact .inl heq
      · exact .inr ⟨hstarts, heq, hbucket⟩
    · rintro (heq | ⟨hstarts, -, hbucket⟩)
      · rw [heq]
        exact ⟨rfl, prefix_rfl⟩
      · exact ⟨hbucket, hstarts⟩

theorem exact_name_iff (hzero : 0 ∉ mids) (name : HashKey) :
    Exact (lookupName x name) mids (mem.Named name) ↔ mem.Distinguished mids name := by
  obtain ⟨full, hrows, -⟩ := h.names.rows
  by_cases hneg : 0 ≤ bucket (mem.str name)
  · obtain ⟨i, hi⟩ := Int.eq_ofNat_of_zero_le hneg
    have hlt : i < 1024 := by
      have hmod := Int.tmod_lt_of_pos (cStrHash (mem.str name)).toInt (b := 1024) (by decide)
      rw [bucket] at hi
      omega
    have htakes := h.name_takes hi
    have hlookup : lookupName x name = .ok ((mids.find? fun a =>
        (mem.nameEntry a).any (x.nameTable.takes i name)).getD 0) := by
      rw [lookupName, h.names.hashLookup_eq hlt ((h.name_index name).trans (congrArg _ hi)),
        find?_entries]
      intro a e he
      obtain ⟨_, -, rfl⟩ := map_eq_some_iff.mp he
      rfl
    rw [hlookup, exact_first hzero fun a ha => (htakes a).mpr (.inl ha), Distinguished,
      and_iff_right hneg]
    refine forall_congr' fun l₁ => forall_congr' fun a => forall_congr' fun l₂ =>
      imp_congr_right fun _ => ?_
    rw [htakes]
    constructor
    · exact fun h hmis => h (.inr hmis) fun hnamed => hmis.2.2.1 hnamed.2
    · exact fun h hor hnot => h (hor.resolve_left hnot)
  · refine iff_of_false ?_ fun hdist => hneg hdist.1
    rintro ⟨a, ha, -⟩
    obtain ⟨found, hfind, -⟩ := Outcome.bind_eq_ok.mp ha
    obtain ⟨i, -, hindex⟩ := hrows.index_of_find hfind
    rw [h.name_index, Except.ok.injEq] at hindex
    exact hneg (hindex ▸ Int.natCast_nonneg i)

theorem exact_msgid (hzero : 0 ∉ mids) (msgid : Int32) :
    Exact (lookupMsgid x msgid) mids (HasMsgid mem msgid) := by
  obtain ⟨full, hrows, -⟩ := h.msgids.rows
  obtain ⟨i, hi, hindex⟩ := hrows.sized.index_mem_iff.mpr
    (show Hashed x.msgidTable.hashfun 1024 msgid from ⟨by decide, by simp [h.msgidKeys.1]⟩)
  have htakes (a : HashValue) : (mem.msgidEntry a).any (x.msgidTable.takes i msgid) = true ↔
      HasMsgid mem msgid a := by
    have hcompare (p q : HashKey) : x.msgidTable.compare p q = decide (p = q) := by
      simp only [HashTable.compare, h.msgidKeys.2]
    rw [msgidEntry, HasMsgid]
    cases hdeclared : mem.declared a with
    | none => simp
    | some type =>
      by_cases hnone : msgidOf type = -1
      · simp [hnone, eq_comm]
      · simp only [bind_some, if_neg hnone, any_some, HashTable.takes, hcompare,
          Bool.and_eq_true, decide_eq_true_eq, some.injEq, exists_eq_left']
        constructor
        · rintro ⟨-, rfl⟩
          exact ⟨hnone, rfl⟩
        · rintro ⟨-, rfl⟩
          exact ⟨hindex, rfl⟩
  have hlookup : lookupMsgid x msgid = .ok ((mids.find? fun a =>
      (mem.msgidEntry a).any (x.msgidTable.takes i msgid)).getD 0) := by
    rw [lookupMsgid, h.msgids.hashLookup_eq hi hindex, find?_entries]
    intro a e he
    obtain ⟨type, -, he⟩ := bind_eq_some_iff.mp he
    split_ifs at he
    cases he
    rfl
  rw [hlookup, exact_first hzero fun a ha => (htakes a).mpr ha]
  exact fun l₁ a l₂ _ ha hnot => absurd ((htakes a).mp ha) hnot

end

end Kept

theorem method_lookup_iff (hinit : mem.init b = some x)
    (hrun : mids.foldlM (mem.defineMethod m) x = some y) (hzero : 0 ∉ mids) (msgid : Int32)
    (name : HashKey) : (Exact (lookupMsgid y msgid) mids (HasMsgid mem msgid) ∧
      Exact (lookupName y name) mids (mem.Named name)) ↔ mem.Distinguished mids name := by
  have h := (kept_init hinit).run hrun
  rw [nil_append] at h
  exact (and_iff_right (h.exact_msgid hzero msgid)).trans (h.exact_name_iff hzero name)

theorem Kept.defined (h : Kept mem x mids) {a : HashValue} {args : Bytes} {type : ArgType}
    (hm : ∀ entries, (m.entry entries).isSome = true) (ha : a ∉ x.inited)
    (hname : (mem.mid a).methodName ≠ 0) (hargs : (mem.mid a).methodArgs = some args)
    (hparsed : parseArgInfo args = .ok (some type)) (hnone : msgidOf type = -1)
    (hbucket : 0 ≤ bucket (mem.str (mem.mid a).methodName)) :
    ∃ y, mem.defineMethod m x a = some y := by
  obtain ⟨full, hrows, -⟩ := h.names.rows
  obtain ⟨i, hi, hindex⟩ := hrows.sized.index_mem_iff.mpr
    (show Hashed x.nameTable.hashfun 1024 (mem.mid a).methodName from
      ⟨by decide, fun hash hhash => by
        cases h.nameKeys.1.symm.trans hhash
        exact tmod_nonneg_iff.mp hbucket⟩)
  obtain ⟨entries, henter, -⟩ := h.names.hashEnter_eq a hi hindex fun _ => hm _
  refine ⟨⟨x.msgidTable, { x.nameTable with entries := entries }, a :: x.inited⟩, ?_⟩
  simp [defineMethod, hargs, hname, ha, hparsed, enterMsgid, hnone, henter, Except.toOption]

variable (mem) in
theorem init_granted (hgranted : Granted b methodInfoObjHashSize) :
    ∃ x, mem.init b = some x ∧ x.inited = [] := by
  obtain ⟨e₁, _, h₁, -⟩ : ∃ e full, hashInit b none none methodInfoObjHashSize = .ok ⟨_, _, _, e⟩ ∧
    Rows _ _ full ∧ _ := hashInit_eq hgranted
  obtain ⟨e₂, _, h₂, -⟩ : ∃ e full, hashInit b (some fun p => cStrHash (mem.str p))
      (some fun p q => cStrCmp (mem.str p) (mem.str q)) methodInfoObjHashSize = .ok ⟨_, _, _, e⟩ ∧
    Rows _ _ full ∧ _ := hashInit_eq hgranted
  exact ⟨_, by rw [init, h₁, h₂]; rfl, rfl⟩

end MethodMemory

namespace Sample

def methods : MethodMemory where
  str p := if p = 1 then [110, 115] else [110, 115] ++ replicate 16 64
  mid _ := ⟨1, some [73]⟩

theorem methods_run : ∃ x y, methods.init blocks = some x ∧
    [1].foldlM (methods.defineMethod malloc) x = some y := by
  obtain ⟨x, hx, hinited⟩ := methods.init_granted (granted_blocks (by decide))
  obtain ⟨y, hy⟩ := (MethodMemory.kept_init hx).defined (m := malloc) (fun _ => rfl)
    (a := 1) (by simp [hinited]) (by decide) rfl rfl rfl (by decide)
  exact ⟨x, y, hx, by rw [foldlM_cons, hy]; rfl⟩

end Sample

namespace MethodMemory

theorem method_lookup_one : ∃ x y, Sample.methods.init blocks = some x ∧
    [1].foldlM (Sample.methods.defineMethod malloc) x = some y ∧
      ((Exact (lookupMsgid y 7) [1] (HasMsgid Sample.methods 7) ∧
        Exact (lookupName y 1) [1] (Sample.methods.Named 1)) ↔
          Sample.methods.Distinguished [1] 1) := by
  obtain ⟨x, y, hinit, hrun⟩ := Sample.methods_run
  exact ⟨x, y, hinit, hrun, method_lookup_iff hinit hrun (by decide) 7 1⟩

theorem prefix_found : ∃ x y, Sample.methods.init blocks = some x ∧
    [1].foldlM (Sample.methods.defineMethod malloc) x = some y ∧
      ¬Exact (lookupName y 2) [1] (Sample.methods.Named 2) := by
  obtain ⟨x, y, hinit, hrun⟩ := Sample.methods_run
  refine ⟨x, y, hinit, hrun, ?_⟩
  have h : Kept _ y [1] := (kept_init hinit).run hrun
  rw [h.exact_name_iff (by decide)]
  intro hdist
  obtain ⟨b, hb, -⟩ := hdist.2 [] 1 [] rfl ⟨rfl, by decide, by decide, by decide⟩
  cases hb

end MethodMemory

end MachUS.Rpc
