import MachUS.Naming.Balance

namespace MachUS.Naming

open Program List Option

variable {W : Type}

def ComponentPrefix (pfx path : Path) : Prop :=
  pfx <+: path ∧
    (pfx.getLast? = some slash ∨ path[pfx.length]? = some slash ∨ path.length = pfx.length)

theorem matchesPath_iff {path : Path} {e : PfxEntry} :
    matchesPath path e = true ↔ e.type ≠ .invalid ∧ ComponentPrefix e.prefixPath path := by
  simp only [matchesPath, ComponentPrefix, Bool.and_eq_true, Bool.or_eq_true, decide_eq_true_eq,
    isPrefixOf_iff_prefix, and_assoc]
  refine and_congr_right fun _ => and_congr_right fun hpfx => ?_
  obtain ⟨rest, rfl⟩ := hpfx
  have hend : (e.prefixPath ++ rest)[e.prefixPath.length]? = none ↔
      (e.prefixPath ++ rest).length = e.prefixPath.length := by
    simp
  rw [hend]
  rcases eq_nil_or_concat e.prefixPath with hnil | ⟨v, c, hpfx⟩
  · simp [hnil]
  · have hlast : (e.prefixPath ++ rest)[e.prefixPath.length - 1]? = e.prefixPath.getLast? := by
      rw [getLast?_eq_getElem?, getElem?_append_left (by simp [hpfx])]
    rw [hlast]
    tauto

inductive Best (path : Path) (es : List (ℕ × Option PfxEntry)) (best : Slot × ℕ) :
    Slot × ℕ → Prop where
  | kept
    (hshort : ∀ i e, (i, some e) ∈ es → matchesPath path e = true → e.prefixPath.length < best.2) :
    Best path es best best
  | improved {i : ℕ} {e : PfxEntry} (hmem : (i, some e) ∈ es) (hmatch : matchesPath path e = true)
    (habove : best.2 ≤ e.prefixPath.length)
    (hlongest : ∀ j e', (j, some e') ∈ es → matchesPath path e' = true →
      e'.prefixPath.length ≤ e.prefixPath.length) :
    Best path es best (.index i, e.prefixPath.length)

namespace Best

variable {path : Path} {es : List (ℕ × Option PfxEntry)} {best r : Slot × ℕ} {i : ℕ}

theorem skip {x : Option PfxEntry} (h : Best path es best r)
    (hx : ∀ e, x = some e → matchesPath path e = true → e.prefixPath.length < best.2) :
    Best path ((i, x) :: es) best r := by
  cases h with
  | kept hshort =>
    refine .kept fun j e' hmem hmatch => ?_
    rcases mem_cons.mp hmem with heq | hmem
    · exact hx e' (Prod.mk.inj heq).2.symm hmatch
    · exact hshort j e' hmem hmatch
  | improved hmem hmatch habove hlongest =>
    refine .improved (mem_cons_of_mem _ hmem) hmatch habove fun j e' hmem' hmatch' => ?_
    rcases mem_cons.mp hmem' with heq | hmem'
    · have hless := hx e' (Prod.mk.inj heq).2.symm hmatch'
      omega
    · exact hlongest j e' hmem' hmatch'

theorem take {e : PfxEntry} (h : Best path es (.index i, e.prefixPath.length) r)
    (habove : best.2 ≤ e.prefixPath.length) (hmatch : matchesPath path e = true) :
    Best path ((i, some e) :: es) best r := by
  cases h with
  | kept hshort =>
    refine .improved mem_cons_self hmatch habove fun j e' hmem hmatch' => ?_
    rcases mem_cons.mp hmem with heq | hmem
    · obtain ⟨-, heq⟩ := Prod.mk.inj heq
      rw [some.inj heq]
    · exact Nat.le_of_lt (hshort j e' hmem hmatch')
  | improved hmem hmatch' habove' hlongest =>
    refine .improved (mem_cons_of_mem _ hmem) hmatch' (Nat.le_trans habove habove')
      fun j e' hmem' hmatch'' => ?_
    rcases mem_cons.mp hmem' with heq | hmem'
    · obtain ⟨-, heq⟩ := Prod.mk.inj heq
      rw [some.inj heq]
      exact habove'
    · exact hlongest j e' hmem' hmatch''

end Best

theorem bestSlot_best (path : Path) (es : List (ℕ × Option PfxEntry)) (best : Slot × ℕ) :
    Best path es best (bestSlot path es best) := by
  induction es generalizing best with
  | nil => exact .kept (by simp)
  | cons x es ih =>
    obtain ⟨i, e⟩ := x
    cases e with
    | none => exact (ih best).skip (by simp)
    | some e =>
      rw [bestSlot]
      split_ifs with h
      · exact (ih _).take h.1 h.2
      · refine (ih best).skip fun e' he' hmatch => ?_
        cases he'
        by_contra hlong
        exact h ⟨Nat.le_of_not_lt hlong, hmatch⟩

namespace StdName

variable {s : StdName W} {path : Path}

structure Fits (s : StdName W) (path : Path) (i : ℕ) (e : PfxEntry) : Prop where
  slot : i < pfxTableSize
  entry : s.entry (.index i) = some e
  valid : e.type ≠ .invalid
  isPrefix : ComponentPrefix e.prefixPath path

def Longest (s : StdName W) (path : Path) (i : ℕ) (e : PfxEntry) : Prop :=
  s.Fits path i e ∧ ∀ j e', s.Fits path j e' → e'.prefixPath.length ≤ e.prefixPath.length

def bestOf (s : StdName W) (path : Path) : Slot × ℕ :=
  bestSlot path ((range pfxTableSize).zip s.pfxTable) (.null, 0)

theorem mem_zip_iff {i : ℕ} {e : PfxEntry} :
    (i, some e) ∈ (range pfxTableSize).zip s.pfxTable ↔
      i < pfxTableSize ∧ s.entry (.index i) = some e := by
  rw [mem_iff_getElem?, entry]
  constructor
  · rintro ⟨k, hk⟩
    obtain ⟨hrange, htable⟩ := getElem?_zip_eq_some.mp hk
    obtain ⟨hlt, rfl⟩ : ∃ _ : k < pfxTableSize, k = i := by
      obtain ⟨hlen, heq⟩ := List.getElem?_eq_some_iff.mp hrange
      rw [List.length_range] at hlen
      exact ⟨hlen, by simpa using heq⟩
    exact ⟨hlt, by rw [htable]; rfl⟩
  · rintro ⟨hlt, he⟩
    refine ⟨i, getElem?_zip_eq_some.mpr ⟨getElem?_range hlt, ?_⟩⟩
    exact join_eq_some_iff.mp he

theorem fits_iff {i : ℕ} {e : PfxEntry} :
    s.Fits path i e ↔
      (i, some e) ∈ (range pfxTableSize).zip s.pfxTable ∧ matchesPath path e = true := by
  rw [mem_zip_iff, matchesPath_iff]
  exact ⟨fun h => ⟨⟨h.slot, h.entry⟩, h.valid, h.isPrefix⟩,
    fun ⟨⟨hi, he⟩, hvalid, hpfx⟩ => ⟨hi, he, hvalid, hpfx⟩⟩

theorem bestOf_cases (s : StdName W) (path : Path) :
    (s.bestOf path = (.null, 0) ∧ ∀ i e, ¬s.Fits path i e) ∨
      ∃ i e, s.Longest path i e ∧ s.bestOf path = (.index i, e.prefixPath.length) := by
  have hbest : Best path _ (.null, 0) (s.bestOf path) := bestSlot_best path _ (.null, 0)
  generalize s.bestOf path = r at hbest ⊢
  cases hbest with
  | kept hshort =>
    refine Or.inl ⟨rfl, fun i e hfits => ?_⟩
    obtain ⟨hmem, hmatch⟩ := fits_iff.mp hfits
    exact Nat.not_lt_zero _ (hshort i e hmem hmatch)
  | improved hmem hmatch _ hlongest =>
    refine Or.inr ⟨_, _, ⟨fits_iff.mpr ⟨hmem, hmatch⟩, fun j e' hfits => ?_⟩, rfl⟩
    obtain ⟨hmem', hmatch'⟩ := fits_iff.mp hfits
    exact hlongest j e' hmem' hmatch'

def OnePerPrefix (s : StdName W) : Prop :=
  ∀ i j e e', i < pfxTableSize → j < pfxTableSize → s.entry (.index i) = some e →
    s.entry (.index j) = some e' → e.type ≠ .invalid → e'.type ≠ .invalid →
    e.prefixPath = e'.prefixPath → i = j

structure UpToDate (s : StdName W) : Prop where
  unique : s.OnePerPrefix
  stamped : ∀ i e, i < pfxTableSize → s.entry (.index i) = some e → e.type ≠ .invalid →
    e.idStamp = s.identityVersion

theorem OnePerPrefix.longest_unique (hs : s.OnePerPrefix) {i j : ℕ} {e e' : PfxEntry}
    (h : s.Longest path i e) (h' : s.Longest path j e') : i = j ∧ e = e' := by
  have hlen : e.prefixPath.length = e'.prefixPath.length :=
    Nat.le_antisymm (h'.2 i e h.1) (h.2 j e' h'.1)
  have hpfx : e.prefixPath = e'.prefixPath := by
    rw [prefix_iff_eq_take.mp h.1.isPrefix.1, prefix_iff_eq_take.mp h'.1.isPrefix.1, hlen]
  obtain rfl := hs i j e e' h.1.slot h'.1.slot h.1.entry h'.1.entry h.1.valid h'.1.valid hpfx
  exact ⟨rfl, some.inj (h.1.entry.symm.trans h'.1.entry)⟩

theorem OnePerPrefix.bestOf_longest (hs : s.OnePerPrefix) {i : ℕ} {e : PfxEntry}
    (h : s.Longest path i e) : s.bestOf path = (.index i, e.prefixPath.length) := by
  rcases s.bestOf_cases path with ⟨-, hnone⟩ | ⟨j, e', h', hbest⟩
  · exact absurd h.1 (hnone i e)
  · obtain ⟨rfl, rfl⟩ := hs.longest_unique h h'
    exact hbest

theorem bestOf_null_iff : (s.bestOf path).1 = .null ↔ ¬∃ i e, s.Fits path i e := by
  rcases s.bestOf_cases path with ⟨hbest, hnone⟩ | ⟨i, e, h, hbest⟩
  · simpa [hbest] using hnone
  · simpa [hbest] using ⟨i, e, h.1⟩

end StdName

section Search

variable {s : StdName W} {sv : Servers W} {u : SetUser W} {path : Path} {slot : Slot} {len : ℕ}
  {e : PfxEntry}

def FoundPrefix.of (e : PfxEntry) (len : ℕ) : FoundPrefix where
  error := if e.target = none then some .invalidPrefix else none
  obj := e.target
  type := e.targetType
  len := len
  canon := e.canonPath

theorem finds_current (hbest : s.bestOf path = (slot, len)) (he : s.entry slot = some e)
    (hstamp : e.type = .invalid ∨ e.idStamp = s.identityVersion) :
    Returns (nsFindPrefix sv u path) s (.of e len) (s.count 1 e.target) := by
  have hskip : Returns (reauthenticate sv u slot e) s () s := by
    simp only [reauthenticate, returns_bind, returns_get]
    exact ⟨s, s, ⟨rfl, rfl⟩, by rw [if_pos hstamp]; exact returns_pure.mpr ⟨rfl, rfl⟩⟩
  have hentry : (s.entry slot).getD (.blank path) = e := by rw [he]; rfl
  simp only [nsFindPrefix, returns_bind, returns_get]
  refine ⟨s, s, ⟨rfl, rfl⟩, ?_⟩
  rw [StdName.bestOf] at hbest
  simp only [hbest, he, returns_bind, returns_entryAt, reference, returns_modify, returns_pure]
  exact ⟨(), s, hskip, e, s, ⟨hentry.symm, rfl⟩, (), _, rfl, rfl, rfl⟩

theorem longest_prefix_found (sv : Servers W) (u : SetUser W) (hs : s.UpToDate) (path : Path) :
    (∀ i e, s.Longest path i e →
      Returns (nsFindPrefix sv u path) s (.of e e.prefixPath.length) (s.count 1 e.target)) ∧
    ((s.bestOf path).1 = .null ↔ ¬∃ i e, s.Fits path i e) ∧
    ((∃ i e, s.Fits path i e) → ∃ i e, s.Longest path i e) := by
  refine ⟨fun i e h => ?_, StdName.bestOf_null_iff, fun hfits => ?_⟩
  · exact finds_current (hs.unique.bestOf_longest h) h.1.entry
      (.inr (hs.stamped i e h.1.slot h.1.entry h.1.valid))
  · rcases s.bestOf_cases path with ⟨-, hnone⟩ | ⟨i, e, h, -⟩
    · obtain ⟨i, e, h⟩ := hfits
      exact absurd h (hnone i e)
    · exact ⟨i, e, h⟩

end Search

def userEntry (path : Path) (o : Obj) : PfxEntry := ⟨.user, path, some o, 1, path, 0⟩

def nestedPrefixes : StdName Unit :=
  { StdName.create () with
    pfxTable := [some (userEntry [slash, 97, slash, 98] 2), some (userEntry [slash, 97] 1)] ++
      replicate 8 none }

theorem nestedPrefixes_entry {i : ℕ} {e : PfxEntry}
    (h : nestedPrefixes.entry (.index i) = some e) :
    i = 0 ∧ e = userEntry [slash, 97, slash, 98] 2 ∨ i = 1 ∧ e = userEntry [slash, 97] 1 := by
  rcases i with _ | _ | i
  · exact .inl ⟨rfl, (some.inj h).symm⟩
  · exact .inr ⟨rfl, (some.inj h).symm⟩
  · have hnone : (replicate 8 (none : Option PfxEntry))[i]?.join = none := by
      rw [getElem?_replicate]
      split_ifs <;> rfl
    cases hnone.symm.trans h

theorem nestedPrefixes_upToDate : nestedPrefixes.UpToDate where
  unique := by
    intro i j e e' _ _ he he' _ _ hpath
    rcases nestedPrefixes_entry he with ⟨rfl, rfl⟩ | ⟨rfl, rfl⟩ <;>
      rcases nestedPrefixes_entry he' with ⟨rfl, rfl⟩ | ⟨rfl, rfl⟩ <;>
      first | rfl | cases hpath
  stamped := by
    intro i e _ he _
    rcases nestedPrefixes_entry he with ⟨-, rfl⟩ | ⟨-, rfl⟩ <;> rfl

theorem longest_prefix_found_nested : ∃ s',
    Returns (nsFindPrefix (rootedAt plainFile) (fun _ _ => pure (.ok ()))
        [slash, 97, slash, 98, 99])
      nestedPrefixes (.of (userEntry [slash, 97] 1) 2) s' := by
  have hlongest :
      nestedPrefixes.Longest [slash, 97, slash, 98, 99] 1 (userEntry [slash, 97] 1) := by
    refine ⟨⟨by decide, rfl, by decide, by decide, by decide⟩, fun j e' h => ?_⟩
    rcases nestedPrefixes_entry h.entry with ⟨rfl, rfl⟩ | ⟨rfl, rfl⟩
    · exact absurd h.isPrefix.2 (by decide)
    · exact Nat.le_refl _
  exact ⟨_, (longest_prefix_found (rootedAt plainFile) (fun _ _ => pure (.ok ()))
    nestedPrefixes_upToDate _).1 1 _ hlongest⟩

end MachUS.Naming
