import MachUS.Auth.Deletion
import MachUS.Auth.Loading

namespace MachUS.Auth

open Text Relation Transition Groups List UInt8

theorem toLowerByte_eq {c d : UInt8} (hd : d.toNat < 97) (h : toLowerByte c = d) : c = d := by
  rw [toLowerByte] at h
  split_ifs at h with hc
  · rw [le_iff_toNat_le, le_iff_toNat_le] at hc
    have hnat := congrArg UInt8.toNat h
    rw [UInt8.toNat_add] at hnat
    simp only [UInt8.toNat_ofNat] at hc hnat
    omega
  · exact h

theorem notMem_toLower {n : GroupName} {d : UInt8} (hd : d.toNat < 97) (h : d ∉ n.bytes) :
    d ∉ (toLower n).bytes := by
  intro hmem
  obtain ⟨c, hc, hcd⟩ := mem_map.mp hmem
  exact h (toLowerByte_eq hd hcd ▸ hc)

theorem head?_toLower {n : GroupName} {d : UInt8} (hd : d.toNat < 97)
    (h : n.bytes.head? ≠ some d) : (toLower n).bytes.head? ≠ some d := by
  intro hhead
  rw [toLower, head?_map, Option.map_eq_some_iff] at hhead
  obtain ⟨c, hc, hcd⟩ := hhead
  exact h (toLowerByte_eq hd hcd ▸ hc)

theorem CleanText.toLower {n : GroupName} (h : CleanText n.bytes) : CleanText (toLower n).bytes :=
  ⟨notMem_toLower (by decide) h.colon, notMem_toLower (by decide) h.newline⟩

theorem hashName_nonneg_of_dvd {m n : ℕ} (hmn : m ∣ n) {name : Bytes}
    (h : 0 ≤ hashName n name) : 0 ≤ hashName m name := by
  rw [hashName] at h ⊢
  generalize name.foldl (fun index c => index + (toInt8 c).toInt) 0 = z at h ⊢
  rcases le_total 0 z with hz | hz
  · exact Int.tmod_nonneg _ hz
  · have hneg : 0 ≤ (-z).tmod n := Int.tmod_nonneg _ (by omega)
    rw [Int.neg_tmod] at hneg
    have hzero : z.tmod n = 0 := by omega
    have hdvd : (n : ℤ) ∣ z := Int.dvd_of_tmod_eq_zero hzero
    rw [Int.tmod_eq_zero_of_dvd ((Int.natCast_dvd_natCast.mpr hmn).trans hdvd)]

theorem toInt8_nonneg {c : UInt8} (h : c.toNat < 128) : 0 ≤ (toInt8 c).toInt := by
  have hall : ∀ n : Fin 256, n.val < 128 → 0 ≤ (toInt8 (ofFin n)).toInt := by
    decide +kernel
  exact hall c.toFin h

theorem hashName_nonneg {size : ℕ} {name : Bytes} (h : ∀ c ∈ name, c.toNat < 128) :
    0 ≤ hashName size name := by
  have hsum (acc : ℤ) (hacc : 0 ≤ acc) :
      0 ≤ name.foldl (fun index c => index + (toInt8 c).toInt) acc := by
    induction name generalizing acc with
    | nil => exact hacc
    | cons c name ih =>
      exact ih (fun d hd => h d (by simp [hd])) _ (add_nonneg hacc (toInt8_nonneg (h c (by simp))))
  exact Int.tmod_nonneg _ (hsum 0 (le_refl 0))

theorem formatId_short {id : GroupId} (h : id.toNat < groupIdMax) :
    (formatId id).length < memIdSize := by
  have hint : id.toInt32.toInt = (id.toNat : ℤ) := by
    have hbmod : id.toInt32.toInt = (id.toNat : ℤ).bmod (2 ^ 32) :=
      BitVec.toInt_eq_toNat_bmod id.toBitVec
    rw [hbmod]
    simp only [groupIdMax] at h
    exact Int.bmod_eq_of_le (by omega) (by omega)
  have hlen := formatInt_length (z := id.toInt32.toInt) (d := 3) (by
    rw [hint]
    simp only [groupIdMax] at h
    omega)
  exact lt_of_le_of_lt hlen (by decide)

theorem isPrint_ne {c : UInt8} (h : isPrint c = true) : c ≠ 0 ∧ c ≠ newline := by
  constructor <;>
  · rintro rfl
    revert h
    decide

namespace LoadableRecord

variable {r r' : GroupRecord}

theorem reassign (h : LoadableRecord r) (ownerId : GroupId) (ids : List GroupId) :
    LoadableRecord { r with ownerId := ownerId, trMemberships := ids } :=
  ⟨⟨h.groupName, h.comment, h.fullName, h.groupType, h.primary, h.secondary, h.members,
    h.memberships⟩, h.hashed, h.range⟩

theorem password (h : LoadableRecord r) (ht : r.groupType = asPrimary) {w word : PassWord}
    (hw : encryptPassword w = .ok word) : LoadableRecord { r with passWord := word } := by
  have hprint := encryptPassword_isPrint hw
  refine ⟨⟨h.groupName, h.comment, h.fullName, h.groupType, fun _ => ⟨(h.primary ht).1, ?_, ?_⟩,
    fun hne => absurd ht hne, h.members, h.memberships⟩, h.hashed, h.range⟩
  · exact fun hmem => (isPrint_ne (hprint _ hmem)).1 rfl
  · exact fun hmem => (isPrint_ne (hprint _ hmem)).2 rfl

def ListsIds (l : List GroupId) : Prop :=
  l.length ≤ membersMax ∧ ∀ id ∈ l, (formatId id).length < memIdSize

section

variable (h : LoadableRecord r)

include h

theorem relist (hbare : bare r' = bare r) (hprimary : r.groupType = asPrimary → r'.members = [])
    (hlists : ∀ dir : Direction, ListsIds (dir.next r')) : LoadableRecord r' := by
  obtain ⟨hc, hhashed, hrange⟩ := h
  have hname : (bare r').groupName = (bare r).groupName := by rw [hbare]
  have hfull : (bare r').fullName = (bare r).fullName := by rw [hbare]
  have htype : (bare r').groupType = (bare r).groupType := by rw [hbare]
  have hword : (bare r').passWord = (bare r).passWord := by rw [hbare]
  have hid : (bare r').groupId = (bare r).groupId := by rw [hbare]
  simp only [bare] at hname hfull htype hword hid
  refine ⟨⟨hname ▸ hc.groupName, hname ▸ hc.comment, hfull ▸ hc.fullName, htype ▸ hc.groupType,
    fun ht => ?_, fun ht => ?_, hlists .members, hlists .memberships⟩, hname ▸ hhashed,
    hid ▸ hrange⟩
  · rw [htype] at ht
    exact ⟨hprimary ht, hword ▸ (hc.primary ht).2⟩
  · rw [htype] at ht
    exact hword.trans (hc.secondary ht)

theorem listsIds (dir : Direction) : ListsIds (dir.next r) := by
  cases dir with
  | members => exact h.members
  | memberships => exact h.memberships

theorem shrink (hbare : bare r' = bare r)
    (hlists : ∀ dir : Direction, (dir.next r').length ≤ (dir.next r).length ∧
      ∀ id ∈ dir.next r', id ∈ dir.next r) : LoadableRecord r' := by
  refine h.relist hbare (fun ht => ?_) fun dir => ?_
  · have hlen := (hlists .members).1
    rw [show Direction.next .members r = [] from (h.primary ht).1] at hlen
    exact eq_nil_of_length_eq_zero (Nat.le_zero.mp hlen)
  · obtain ⟨hlen, hmem⟩ := h.listsIds dir
    exact ⟨(hlists dir).1.trans hlen, fun id hid => hmem id ((hlists dir).2 id hid)⟩

theorem append (dir : Direction) (hdir : dir = .members → r.groupType ≠ asPrimary) {id : GroupId}
    (hid : id.toNat < groupIdMax) (hlen : (dir.next r).length < membersMax) :
    LoadableRecord (dir.put (dir.next r ++ [id]) r) := by
  have hput : ListsIds (dir.next r ++ [id]) := by
    refine ⟨by simp; omega, fun x hx => ?_⟩
    rcases mem_append.mp hx with hx | hx
    · exact (h.listsIds dir).2 x hx
    · rw [mem_singleton.mp hx]
      exact formatId_short hid
  cases dir with
  | members =>
    refine h.relist rfl (fun ht => absurd ht (hdir rfl)) fun dir => ?_
    cases dir with
    | members => exact hput
    | memberships => exact h.memberships
  | memberships =>
    refine h.relist rfl (fun ht => (h.primary ht).1) fun dir => ?_
    cases dir with
    | members => exact h.members
    | memberships => exact hput

theorem drop (dir : Direction) (id : GroupId) :
    LoadableRecord (dir.put (deleteFromList (dir.next r) id) r) := by
  have hput : (deleteFromList (dir.next r) id).length ≤ (dir.next r).length ∧
      ∀ x ∈ deleteFromList (dir.next r) id, x ∈ dir.next r :=
    ⟨deleteFromList_length_le _ _,
      fun x hx => mem_of_mem_erase ((deleteFromList_perm _ _).mem_iff.mp hx)⟩
  cases dir with
  | members =>
    refine h.shrink rfl fun dir => ?_
    cases dir with
    | members => exact hput
    | memberships => exact ⟨le_refl _, fun _ hx => hx⟩
  | memberships =>
    refine h.shrink rfl fun dir => ?_
    cases dir with
    | members => exact ⟨le_refl _, fun _ hx => hx⟩
    | memberships => exact hput

end

theorem numbered {id : GroupId} {ms : List GroupId} {isUser : Bool}
    (hblank : BlankRecord r id ms) (hnum : NumberedRecord r id isUser)
    (hrange : r.groupId.toNat < groupIdMax) (hms : ListsIds ms) : LoadableRecord r := by
  have hdigits : ∀ c ∈ formatInt id.toInt32.toInt,
      c.toNat < 58 ∧ c ≠ colon ∧ c ≠ newline ∧ c ≠ hash := by
    intro c hc
    rcases formatInt_mem hc with rfl | hd
    · decide
    · rw [isDigit_iff] at hd
      refine ⟨by omega, ?_, ?_, ?_⟩ <;>
      · rintro rfl
        revert hd
        decide
  have hformat : ∀ c ∈ recFormat isUser, c ≠ colon ∧ c ≠ newline := by
    cases isUser <;> decide +kernel
  have hprint {c : UInt8} (hc : c ∈ r.passWord.bytes) := isPrint_ne (hnum.passWord c hc)
  refine ⟨⟨⟨?_, ?_⟩, ?_, ⟨?_, ?_⟩, Or.inl hblank.groupType, fun _ => ⟨hblank.members, ?_, ?_⟩,
    fun hne => absurd hblank.groupType hne, ?_, ?_⟩, ?_, hrange⟩
  · rw [hnum.groupName]
    exact fun hmem => (hdigits _ hmem).2.1 rfl
  · rw [hnum.groupName]
    exact fun hmem => (hdigits _ hmem).2.2.1 rfl
  · rw [hnum.groupName]
    exact fun hhead => (hdigits _ (mem_of_mem_head? hhead)).2.2.2 rfl
  · rw [hnum.fullName, mem_append]
    exact fun hmem => hmem.elim (fun h => (hformat _ h).1 rfl) fun h => (hdigits _ h).2.1 rfl
  · rw [hnum.fullName, mem_append]
    exact fun hmem => hmem.elim (fun h => (hformat _ h).2 rfl) fun h => (hdigits _ h).2.2.1 rfl
  · exact fun hmem => (hprint hmem).1 rfl
  · exact fun hmem => (hprint hmem).2 rfl
  · rw [hblank.members]
    exact ⟨Nat.zero_le _, fun _ h => absurd h not_mem_nil⟩
  · rw [hblank.memberships]
    exact hms
  · rw [hnum.groupName]
    exact hashName_nonneg fun c hc => (hdigits c hc).1.trans (by decide)

structure CleanInput (n : GroupName) (ty : GroupType) (f : FullName) : Prop where
  groupName : CleanText n.bytes
  comment : n.bytes.head? ≠ some hash
  groupType : ty = asPrimary ∨ ty = asSecondary
  fullName : CleanText f.bytes

theorem named {n : GroupName} {ty : GroupType} {f : FullName} {w : PassWord}
    (hnamed : NamedRecord r n ty f w) (hclean : CleanInput n ty f)
    (hrange : r.groupId.toNat < groupIdMax) (hhash : 0 ≤ hashName 32 (toLower n).bytes) :
    LoadableRecord r := by
  have hword := hnamed.passWord
  have hnil : ListsIds [] := ⟨Nat.zero_le _, fun _ h => absurd h not_mem_nil⟩
  refine ⟨⟨?_, ?_, ?_, ?_, fun ht => ?_, fun ht => ?_, ?_, ?_⟩, ?_, hrange⟩
  · rw [hnamed.groupName]
    exact hclean.groupName.toLower
  · rw [hnamed.groupName]
    exact head?_toLower (by decide) hclean.comment
  · rw [hnamed.fullName]
    exact hclean.fullName
  · rw [hnamed.groupType]
    exact hclean.groupType
  · rw [hnamed.groupType] at ht
    rw [storedPassWord, if_pos ht] at hword
    have hprint {c : UInt8} (hc : c ∈ r.passWord.bytes) :=
      isPrint_ne (encryptPassword_isPrint hword c hc)
    exact ⟨hnamed.members, fun hmem => (hprint hmem).1 rfl, fun hmem => (hprint hmem).2 rfl⟩
  · rw [hnamed.groupType] at ht
    rw [storedPassWord, if_neg ht] at hword
    exact (Except.ok.inj hword).symm
  · rw [hnamed.members]
    exact hnil
  · rw [hnamed.memberships]
    exact hnil
  · rw [hnamed.groupName]
    exact hhash

end LoadableRecord

namespace Groups

structure Loadable (g : Groups) : Prop where
  store : g.StoreInv
  slots : 32 ∣ g.names.slots.length
  record : ∀ a r, g.heap a = some r → LoadableRecord r

namespace Loadable

variable {g g' : Groups} {a : Addr} {r x : GroupRecord}

section

variable (h : g.Loadable)

include h

theorem setRecord (hr : g.heap a = some r) (hid : x.groupId = r.groupId)
    (hx : LoadableRecord x) : (g.setRecord a x).Loadable := by
  refine ⟨h.store.setRecord hr hid, h.slots, fun b y hy => ?_⟩
  by_cases hb : b = a
  · subst hb
    rw [setRecord_heap_self] at hy
    exact Option.some.inj hy ▸ hx
  · rw [setRecord_heap_of_ne g x hb] at hy
    exact h.record b y hy

theorem adds (ha : g.Adds g' a r) (hr : LoadableRecord r) : g'.Loadable := by
  refine ⟨h.store.adds ha, h.slots.trans (ha.entries h.store.slots).length, fun b y hy => ?_⟩
  rw [ha.heap] at hy
  by_cases hb : b = a
  · subst hb
    rw [Function.update_self] at hy
    exact Option.some.inj hy ▸ hr
  · rw [Function.update_of_ne hb] at hy
    exact h.record b y hy

theorem appendTo {dir : Direction} {id : GroupId}
    (hr : g.heap a = some r) (hdir : dir = .members → r.groupType ≠ asPrimary)
    (hid : id.toNat < groupIdMax) (hg : Groups.appendTo dir g a id = .ok g') : g'.Loadable := by
  rw [Groups.appendTo, deref_eq_ok.mpr hr, Outcome.ok_bind] at hg
  split_ifs at hg with hlen
  cases hg
  exact h.setRecord hr (by simp) ((h.record a r hr).append dir hdir hid hlen)

theorem dropFrom {dir : Direction} {id : GroupId}
    (hg : dropFrom dir g a id = .ok g') : g'.Loadable := by
  obtain ⟨r, hr, rfl⟩ := dropFrom_eq_ok hg
  exact h.setRecord hr (by simp) ((h.record a r hr).drop dir id)

theorem removes (hr : g.heap a = some r) {name : GroupName}
    (hname : g.lookupName name = .ok (some a)) (hg : g.Removes g' a r) : g'.Loadable := by
  have hstore := h.store.removes hr hname hg
  refine ⟨hstore, h.slots.trans (hg.entries name hname h.store.slots).1, fun b x' hx' => ?_⟩
  obtain ⟨hb, x, hx, hbare⟩ := hg.back hx'
  have hid : x.groupId = x'.groupId := (bare_fields hbare).1
  have hne : x.groupId ≠ r.groupId := by
    intro heq
    have hown := h.store.coherent.owned b x hx
    rw [heq, h.store.coherent.owned a r hr] at hown
    exact hb (Option.some.inj hown).symm
  refine (h.record b x hx).shrink hbare.symm fun dir => ?_
  have hold := h.store.coherent.listOf_self dir hx
  have hnew := hstore.coherent.listOf_self dir hx'
  have hlen := hg.length dir x.groupId
  rw [hold, hid, hnew] at hlen
  refine ⟨hlen, fun y hy => ?_⟩
  have hcount := hg.count dir x.groupId hne y
  rw [hold, hid, hnew] at hcount
  have hpos := count_pos_iff.mpr hy
  exact count_pos_iff.mp (by omega)

end

end Loadable

end Groups

def Op.KeepsText (k : Kernel) (s : Server) : Op → Prop
  | .createGroup p n ty f _ o id => s.Creates k p n ty o id → LoadableRecord.CleanInput n ty f
  | .loginCreate p ids q => ∀ ms, (Op.loginCreate p ids q).Recruits k s ms →
      ∀ id ∈ ms, (formatId id).length < memIdSize
  | _ => True

theorem Server.Creates.hashed {k : Kernel} {s : Server} {p : Port} {n o : GroupName}
    {ty : GroupType} {id : GroupId} (h : s.Creates k p n ty o id)
    (hs : 32 ∣ s.groups.names.slots.length) : 0 ≤ hashName 32 (toLower n).bytes := by
  obtain ⟨-, -, -, -, -, -, -, -, -, hname, -⟩ := h
  obtain ⟨o, ho, -⟩ := Outcome.bind_eq_ok.mp hname
  obtain ⟨index, hindex, -⟩ := Outcome.bind_eq_ok.mp ho
  rw [hashIndex] at hindex
  split_ifs at hindex with hneg
  exact hashName_nonneg_of_dvd hs (not_lt.mp hneg)

theorem Change.loadable {k : Kernel} {s : Server} {op : Op} {g g' : Groups}
    (hop : op.KeepsText k s) (hg : g.Loadable) (h : Change k s op g g') : g'.Loadable := by
  cases h with
  | cache ids hr => exact hg.setRecord hr rfl ((hg.record _ _ hr).reassign _ ids)
  | owner hr hx => exact hg.setRecord hr rfl ((hg.record _ _ hr).reassign _ _)
  | password hr ht hw => exact hg.setRecord hr rfl ((hg.record _ _ hr).password ht hw)
  | record hadds hblank hlen hnum hms =>
    refine hg.adds hadds (.numbered hblank hnum hadds.range ⟨hlen, fun id hid => ?_⟩)
    rcases hms with rfl | hrec
    · cases hid
    · cases op with
      | loginCreate p ids q => exact hop _ hrec id hid
      | _ => exact hrec.elim
  | group hadds hnamed hcreates =>
    exact hg.adds hadds (.named hnamed (hop hcreates) hadds.range (hcreates.hashed hg.slots))
  | link ha hr ht hb hx h₁ h₂ =>
    have hrange {b : Addr} {y : GroupRecord} (hy : s.groups.heap b = some y) :
        y.groupId.toNat < groupIdMax :=
      hg.store.coherent.range _ _ (hg.store.coherent.owned b y hy)
    have hsecondary {r : GroupRecord} (ht : r.groupType = asSecondary) :
        r.groupType ≠ asPrimary := by
      rw [ht]
      decide
    have hg₁ := hg.appendTo hr.1 (fun _ => hsecondary ht) (hrange hx) h₁
    obtain ⟨y, hy, -⟩ := Outcome.bind_eq_ok.mp h₂
    exact hg₁.appendTo (deref_eq_ok.mp hy) (by simp) (hrange hr.1) h₂
  | unlink hr hx h₁ h₂ => exact (hg.dropFrom h₁).dropFrom h₂
  | remove ha h =>
    obtain ⟨-, r, -, -, hr, -⟩ := lookupName_eq_some ha
    exact hg.removes hr ha (removeGroup_spec hg.store.coherent hr h)

namespace Server

def KeepsText (s : Server) (e : Kernel × Op) : Prop := e.2.KeepsText e.1 s

theorem loadable_run {s s' : Server}
    (hrun : ReflTransGen (Under next KeepsText) s s') (h : s.groups.Loadable) :
    s'.groups.Loadable := by
  refine invariant (I := fun s => s.groups.Loadable) (fun x e y hx he hy => ?_) hrun h
  obtain ⟨ret, hstep⟩ := next_eq_some.mp hy
  exact changes_invariant (fun _ _ hg hc => hc.loadable he hg) hstep hx

theorem database_round_trips (g : Groups) (hg : g.Loadable) (s : Server)
    (hrun : ReflTransGen (Under next KeepsText) (boot g) s)
    (hsize : s.groups.size ≤ 25) : s.groups.RoundTrips := by
  have h := loadable_run hrun hg
  exact roundTrips h.store.coherent h.record hsize

end Server

namespace Sample

theorem record_loadable : ∀ r ∈ [group [115] 1 1 [2] [], group [97] 2 0 [] [1],
    group [98] 3 0 [] [4], group [103] 4 1 [3] [], group [99] 5 0 [] []], LoadableRecord r := by
  intro r hr
  have hall : ∀ r ∈ [group [115] 1 1 [2] [], group [97] 2 0 [] [1], group [98] 3 0 [] [4],
      group [103] 4 1 [3] [], group [99] 5 0 [] []],
      (colon ∉ r.groupName.bytes ∧ newline ∉ r.groupName.bytes ∧
        r.groupName.bytes.head? ≠ some hash ∧ 0 ≤ hashName 32 r.groupName.bytes) ∧
      (colon ∉ r.fullName.bytes ∧ newline ∉ r.fullName.bytes) ∧
      (r.groupType = asPrimary ∨ r.groupType = asSecondary) ∧
      (r.groupType = asPrimary →
        r.members = [] ∧ (0 : UInt8) ∉ r.passWord.bytes ∧ newline ∉ r.passWord.bytes) ∧
      (r.groupType ≠ asPrimary → r.passWord = PassWord.zero) ∧
      (r.members.length ≤ membersMax ∧ r.memberships.length ≤ membersMax) ∧
      r.groupId.toNat < groupIdMax := by
    decide +kernel
  have hids : ∀ r ∈ [group [115] 1 1 [2] [], group [97] 2 0 [] [1], group [98] 3 0 [] [4],
      group [103] 4 1 [3] [], group [99] 5 0 [] []],
      ∀ len ∈ (r.members ++ r.memberships).map fun id => (formatId id).length,
      len < memIdSize := by
    decide +kernel
  obtain ⟨⟨hcolon, hnewline, hcomment, hhashed⟩, hfull, htype, hprimary, hsecondary, hlen,
    hrange⟩ := hall r hr
  refine ⟨⟨⟨hcolon, hnewline⟩, hcomment, ⟨hfull.1, hfull.2⟩, htype, hprimary, hsecondary,
    ⟨hlen.1, fun id hid => ?_⟩, ⟨hlen.2, fun id hid => ?_⟩⟩, hhashed, hrange⟩
  · exact hids r hr _ (mem_map_of_mem (mem_append_left _ hid))
  · exact hids r hr _ (mem_map_of_mem (mem_append_right _ hid))

theorem groups_loadable : groups.Loadable where
  store := groups_storeInv
  slots := by decide
  record := fun _ _ h => record_loadable _ (mem_of_getElem? h)

def createX (fullName : FullName) : Kernel × Op :=
  (kernel 10, .createGroup 5 (text 64 [120]) asSecondary fullName word (text 64 [115]) nullId)

theorem kernel_grants (a : Addr) : (kernel a).Grants :=
  ⟨fun i => a + i, fun _ _ h => Nat.add_left_cancel h, fun _ => rfl⟩

end Sample

namespace Server

theorem database_round_trips_createX : ∃ s,
    exec next Sample.server
      [Sample.loginA, Sample.createX (Sample.text 256 [120, 32, 57])] = some s ∧
    (s.groups.recordOf 6).map GroupRecord.fullName = some (Sample.text 256 [120, 32, 57]) ∧
    s.groups.RoundTrips := by
  have h : check next Sample.server
      [Sample.loginA, Sample.createX (Sample.text 256 [120, 32, 57])] (fun s =>
      decide ((s.groups.recordOf 6).map GroupRecord.fullName =
        some (Sample.text 256 [120, 32, 57])) && decide (s.groups.size ≤ 25)) = true := by
    decide +kernel
  obtain ⟨s, hs, hc⟩ := exec_of_check h
  simp only [Bool.and_eq_true, decide_eq_true_eq] at hc
  have hadmits : Admits next KeepsText Sample.server
      [Sample.loginA, Sample.createX (Sample.text 256 [120, 32, 57])] := by
    refine ⟨trivial, fun _ _ => ⟨fun _ => ⟨⟨?_, ?_⟩, ?_, Or.inr rfl, ⟨?_, ?_⟩⟩,
      fun _ _ => trivial⟩⟩ <;> decide
  exact ⟨s, hs, hc.1, database_round_trips Sample.groups Sample.groups_loadable s
    (run_of_exec hadmits hs) hc.2⟩

theorem colon_ends_full_name : Sample.groups.Loadable ∧ ∃ s,
    ReflTransGen (Under next Free) (boot Sample.groups) s ∧
    s.groups.size ≤ 25 ∧ ¬s.groups.RoundTrips := by
  have h : check next Sample.server
      [Sample.loginA, Sample.createX (Sample.text 256 [120, 58, 57])] (fun s =>
      decide (s.groups.size ≤ 25) &&
      match s.groups.saveDatabase with
      | .error _ => false
      | .ok file =>
        match readDatabase (Sample.kernel 0) [] file with
        | .error _ => false
        | .ok (_, g) => decide ((g.recordOf 6).map saved ≠ (s.groups.recordOf 6).map saved)) =
      true := by
    decide +kernel
  obtain ⟨s, hs, hc⟩ := exec_of_check h
  rw [Bool.and_eq_true, decide_eq_true_eq] at hc
  refine ⟨Sample.groups_loadable, s, run_of_exec (free_admits _ _) hs, hc.1, fun hround => ?_⟩
  obtain ⟨file, g, hsave, hread, hsame⟩ := hround (Sample.kernel 0) [] (Sample.kernel_grants 0)
  have hdiffer := hc.2
  rw [hsave] at hdiffer
  simp only [hread] at hdiffer
  exact (of_decide_eq_true hdiffer) (hsame 6)

end Server

end MachUS.Auth
