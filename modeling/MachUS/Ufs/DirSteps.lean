import MachUS.Ufs.DirEdits

namespace MachUS.Ufs

open Function

def Describes (d : List DirBlock) (off unused : ℕ) : Prop :=
  ∃ p r rest, locate d off = some p ∧ p.right = r :: rest ∧ unused ≤ r.space

structure DirHash.Matches (h : DirHash) (d : Directory) : Prop where
  stamp : h.stamp = d.stamp
  table : h.table.Perm (entries d.blocks)
  hint : h.lastOff = 0 ∨ Describes d.blocks h.lastOff h.lastUnused

theorem scanBlock_eq {b : DirBlock} (h : ∀ r ∈ b, 0 < r.reclen ∧ r.size ≤ r.reclen) (off prev : ℕ) :
    scanBlock off prev b = blockEntries off prev b := by
  induction b generalizing off prev with
  | nil => rfl
  | cons r b ih =>
    obtain ⟨hpos, hfits⟩ := h r (by simp)
    rw [scanBlock, blockEntries, if_neg hpos.ne', ih fun x hx => h x (by simp [hx])]
    by_cases hino : r.ino = 0 <;> simp [hino, hfits]

variable {d : List DirBlock}

theorem scanFrom_eq (h : ∀ b ∈ d, Tiled b) (off : ℕ) : scanFrom off d = entriesFrom off d := by
  induction d generalizing off with
  | nil => rfl
  | cons b d ih =>
    rw [scanFrom, entriesFrom, scanBlock_eq (h b (by simp)).fits, ih fun x hx => h x (by simp [hx])]

theorem scanTable_perm (h : WellFormed d) : (scanTable none d).Perm (entries d) := by
  rw [scanTable, readable, scanFrom_eq h.tiled]
  exact List.reverse_perm _

theorem spaceInBlock_eq {needed off found : ℕ} {b : DirBlock} (h : ∀ r ∈ b, 0 < r.reclen)
    (hf : spaceInBlock needed off b = some found) : ∃ left r rest, b = left ++ r :: rest ∧
      found = off + span left ∧ needed ≤ r.space := by
  induction b generalizing off with
  | nil => cases hf
  | cons r b ih =>
    rw [spaceInBlock, if_neg (h r (by simp)).ne'] at hf
    split at hf
    · cases hf
      exact ⟨[], r, b, rfl, by simp, ‹_›⟩
    · obtain ⟨left, x, rest, rfl, rfl, hspace⟩ := ih (fun x hx => h x (by simp [hx])) hf
      exact ⟨r :: left, x, rest, rfl, by simp [Nat.add_assoc], hspace⟩

theorem spaceFrom_eq {needed off found : ℕ} (h : ∀ b ∈ d, Tiled b)
    (hf : spaceFrom needed off d = some found) : ∃ (p : Place) (r : Direct) (rest : List Direct),
      d = p.fill (r :: rest) ∧ p.right = r :: rest ∧ found = off + p.offset ∧ needed ≤ r.space := by
  induction d generalizing off with
  | nil => cases hf
  | cons b d ih =>
    rw [spaceFrom] at hf
    split at hf
    · rename_i hb
      cases hf
      obtain ⟨left, r, rest, rfl, rfl, hspace⟩ :=
        spaceInBlock_eq (fun r hr => ((h b (by simp)).fits r hr).1) hb
      exact ⟨⟨[], left, r :: rest, d⟩, r, rest, rfl, rfl, by simp [Place.offset], hspace⟩
    · obtain ⟨p, r, rest, rfl, hright, rfl, hspace⟩ := ih (fun x hx => h x (by simp [hx])) hf
      refine ⟨{ p with before := b :: p.before }, r, rest, rfl, hright, ?_, hspace⟩
      simp only [Place.offset, List.length_cons, Nat.mul_succ]
      omega

theorem locate_fill {p : Place} {r : Direct} {rest : List Direct}
    (h : WellFormed (p.fill (r :: rest))) (hright : p.right = r :: rest) :
    locate (p.fill (r :: rest)) p.offset = some p := by
  rw [← hright] at h ⊢
  have ht : Tiled (p.left ++ p.right) := h.tiled _ (by simp [Place.fill])
  exact locate_offset ht (by simp [hright])

theorem scanSpace_eq (h : WellFormed d) (needed : ℕ) :
    scanSpace none needed d = dirblksiz * d.length ∨
      Describes d (scanSpace none needed d) needed := by
  rw [scanSpace, readable]
  cases hf : spaceFrom needed 0 d with
  | none => exact Or.inl rfl
  | some found =>
    obtain ⟨p, r, rest, rfl, hright, rfl, hspace⟩ := spaceFrom_eq h.tiled hf
    right
    refine ⟨p, r, rest, ?_, hright, hspace⟩
    simpa using locate_fill h hright

namespace DirState

variable {Dev : Type} {s s' s'' : DirState Dev} {o : DiskOutcome Dev} {dp k : Dev × ℕ}

structure Settled (s : DirState Dev) (k : Dev × ℕ) : Prop where
  formed : ∀ d, s.disk k = some d → WellFormed d.blocks
  cached : ∀ h, s.cache k = some h → ∃ d, s.disk k = some d ∧ h.Matches d

structure Coherent (s : DirState Dev) : Prop where
  settled : ∀ k, s.Settled k
  whole : s.wrecked = false

structure Aside (dp : Dev × ℕ) (s s' : DirState Dev) : Prop where
  disk : ∀ k, k ≠ dp → s'.disk k = s.disk k
  cache : ∀ k, k ≠ dp → s'.cache k = s.cache k ∨ s'.cache k = none

theorem Settled.shrink (hs : s.Settled k) (hdisk : s'.disk k = s.disk k)
    (hcache : s'.cache k = s.cache k ∨ s'.cache k = none) : s'.Settled k := by
  refine ⟨fun d hd => hs.formed d (hdisk ▸ hd), fun x hx => ?_⟩
  rcases hcache with heq | heq
  · rw [hdisk]
    exact hs.cached x (heq ▸ hx)
  · rw [heq] at hx
    cases hx

namespace Aside

theorem refl (dp : Dev × ℕ) (s : DirState Dev) : Aside dp s s :=
  ⟨fun _ _ => rfl, fun _ _ => Or.inl rfl⟩

theorem trans (h : Aside dp s s') (h' : Aside dp s' s'') : Aside dp s s'' := by
  refine ⟨fun k hk => (h'.disk k hk).trans (h.disk k hk), fun k hk => ?_⟩
  rcases h'.cache k hk with heq | heq
  · rw [heq]
    exact h.cache k hk
  · exact Or.inr heq

theorem coherent (h : Aside dp s s') (hs : s.Coherent) (hdp : s'.Settled dp)
    (hwhole : s'.wrecked = false) : s'.Coherent := by
  refine ⟨fun k => ?_, hwhole⟩
  by_cases hk : k = dp
  · exact hk ▸ hdp
  · exact (hs.settled k).shrink (h.disk k hk) (h.cache k hk)

end Aside

theorem cache_evict (p : Dev × ℕ → Bool) (k : Dev × ℕ) :
    (s.evict p).cache k = s.cache k ∨ (s.evict p).cache k = none := by
  simp only [evict]
  split <;> simp

theorem aside_evict (s : DirState Dev) (p : Dev × ℕ → Bool) (dp : Dev × ℕ) :
    Aside dp s (s.evict p) :=
  ⟨fun _ _ => rfl, fun k _ => cache_evict p k⟩

theorem Coherent.evict (hs : s.Coherent) (p : Dev × ℕ → Bool) : (s.evict p).Coherent :=
  ⟨fun k => (hs.settled k).shrink rfl (cache_evict p k), hs.whole⟩

variable [DecidableEq Dev]

theorem cache_dirRemove (j k : Dev × ℕ) :
    (s.dirRemove j).cache k = s.cache k ∨ (s.dirRemove j).cache k = none := by
  by_cases hj : k = j <;> simp [dirRemove, hj]

theorem aside_dirRemove (s : DirState Dev) (k dp : Dev × ℕ) : Aside dp s (s.dirRemove k) :=
  ⟨fun _ _ => rfl, fun j _ => cache_dirRemove k j⟩

theorem Coherent.dirRemove (hs : s.Coherent) (j : Dev × ℕ) : (s.dirRemove j).Coherent :=
  ⟨fun k => (hs.settled k).shrink rfl (cache_dirRemove j k), hs.whole⟩

theorem aside_write (s : DirState Dev) (dp : Dev × ℕ) (d : Directory) (blocks : List DirBlock) :
    Aside dp s (s.write dp d blocks) :=
  ⟨fun _ hk => update_of_ne hk _ _, fun _ _ => Or.inl rfl⟩

theorem aside_setHash (s : DirState Dev) (dp : Dev × ℕ) (f : DirHash → DirHash) :
    Aside dp s (s.setHash dp f) :=
  ⟨fun _ _ => rfl, fun _ hk => Or.inl (update_of_ne hk _ _)⟩

theorem aside_load (s : DirState Dev) (o : DiskOutcome Dev) (dp : Dev × ℕ) (n : ℕ) :
    Aside dp s (s.load o dp n) := by
  rw [load]
  split
  · refine ⟨fun _ _ => rfl, fun k hk => ?_⟩
    simp only [update_of_ne hk, evict]
    split <;> simp
  · exact .refl dp s

@[simp] theorem cache_setHash (f : DirHash → DirHash) :
    (s.setHash dp f).cache dp = (s.cache dp).map f := update_self _ _ _

@[simp] theorem disk_setHash (f : DirHash → DirHash) : (s.setHash dp f).disk = s.disk := rfl

@[simp] theorem disk_write (d : Directory) (blocks : List DirBlock) :
    (s.write dp d blocks).disk dp = some { d with blocks := blocks } := update_self _ _ _

@[simp] theorem cache_write (d : Directory) (blocks : List DirBlock) :
    (s.write dp d blocks).cache = s.cache := rfl

@[simp] theorem disk_load (n : ℕ) : (s.load o dp n).disk = s.disk := by
  rw [load]
  split <;> rfl

@[simp] theorem wrecked_load (n : ℕ) : (s.load o dp n).wrecked = s.wrecked := by
  rw [load]
  split <;> rfl

theorem load_of_cached {h : DirHash} (hh : s.cache dp = some h) (n : ℕ) : s.load o dp n = s := by
  simp [load, hh]

theorem load_settled (hs : s.Settled dp) {n : ℕ} (hreads : o.reads n = none) :
    (s.load o dp n).Settled dp := by
  rw [load]
  split
  · rename_i d hcache hdisk
    refine ⟨hs.formed, fun h hh => ⟨d, hdisk, ?_⟩⟩
    simp only [update_self, Option.some.injEq] at hh
    subst hh
    refine ⟨rfl, ?_, Or.inl rfl⟩
    rw [hreads]
    exact scanTable_perm (hs.formed d hdisk)
  · exact hs

theorem load_cached {d : Directory} (hd : s.disk dp = some d) (n : ℕ) :
    ∃ h, (s.load o dp n).cache dp = some h := by
  cases hc : s.cache dp with
  | some h => exact ⟨h, by rw [load_of_cached hc, hc]⟩
  | none => exact ⟨_, by simp [load, hc, hd]; rfl⟩

theorem Coherent.load (hs : s.Coherent) {n : ℕ} (hreads : o.reads n = none) :
    (s.load o dp n).Coherent :=
  (aside_load s o dp n).coherent hs (load_settled (hs.settled dp) hreads)
    ((wrecked_load n).trans hs.whole)

omit [DecidableEq Dev] in
theorem Coherent.find_eq (hs : s.Coherent) {h : DirHash} {d : Directory} (hh : s.cache dp = some h)
    (hd : s.disk dp = some d) (name : Bytes) :
    s.find dp name = Keyed.find bytesOf name (entries d.blocks) := by
  obtain ⟨d', hd', hm⟩ := (hs.settled dp).cached h hh
  cases hd.symm.trans hd'
  have hnd := nodup_bytes ((hs.settled dp).formed d hd).names
  rw [find, hh]
  exact Keyed.find_perm hm.table hnd

end DirState

end MachUS.Ufs

namespace MachUS.Ufs

open Option Direct

theorem copystr_of_terminated {name stack : Bytes} (hlen : name.length ≤ maxnamlen)
    (h : name.length < maxnamlen ∨ stack = []) : copystr name stack = name := by
  rw [copystr]
  split
  · rfl
  · rw [h.resolve_left ‹_›, List.append_nil, List.take_of_length_le hlen]

namespace DirState

variable {Dev : Type} [DecidableEq Dev] {s s' : DirState Dev} {o : DiskOutcome Dev}
  {dp k : Dev × ℕ} {d : Directory}

theorem aside_tell (s : DirState Dev) (o : DiskOutcome Dev) (dp : Dev × ℕ) (n : ℕ)
    (next : Option Bytes) (prev : ℕ) : Aside dp s (s.tell o dp n next prev) := by
  cases next with
  | none => exact .refl dp s
  | some b => exact (aside_load s o dp n).trans (aside_setHash _ dp _)

theorem aside_enterCached (s : DirState Dev) (o : DiskOutcome Dev) (dp : Dev × ℕ) (e : HashEntry) :
    Aside dp s (s.enterCached o dp e) := by
  rw [enterCached]
  split
  · exact .refl dp s
  · exact (aside_evict s _ dp).trans (aside_setHash _ dp _)

theorem aside_entered (s : DirState Dev) (o : DiskOutcome Dev) (dp : Dev × ℕ)
    (off spacefree dsize size : ℕ) (name : FileName) (ino : ℕ) (next : Option Bytes) :
    Aside dp s (s.entered o dp off spacefree dsize size name ino next) :=
  ((aside_setHash s dp _).trans (aside_enterCached _ o dp _)).trans (aside_tell _ o dp 5 next _)

@[simp] theorem disk_tell (n : ℕ) (next : Option Bytes) (prev : ℕ) :
    (s.tell o dp n next prev).disk = s.disk := by
  cases next with
  | none => rfl
  | some b => exact disk_load n

@[simp] theorem disk_enterCached (e : HashEntry) : (s.enterCached o dp e).disk = s.disk := by
  rw [enterCached]
  split <;> rfl

@[simp] theorem wrecked_tell (n : ℕ) (next : Option Bytes) (prev : ℕ) :
    (s.tell o dp n next prev).wrecked = s.wrecked := by
  cases next with
  | none => rfl
  | some b => exact wrecked_load n

@[simp] theorem wrecked_enterCached (e : HashEntry) :
    (s.enterCached o dp e).wrecked = s.wrecked := by
  rw [enterCached]
  split <;> rfl

theorem cache_enterCached {e : HashEntry} {h' : DirHash}
    (h : (s.enterCached o dp e).cache dp = some h') :
    ∃ h, s.cache dp = some h ∧ h' = { h with table := e :: h.table } := by
  rw [enterCached] at h
  split at h
  · rename_i hnone
    rw [hnone] at h
    cases h
  · rw [cache_setHash] at h
    obtain ⟨x, hx, rfl⟩ := map_eq_some_iff.mp h
    refine ⟨x, ?_, rfl⟩
    rcases cache_evict (s := s) (o.evict 4) dp with heq | heq
    · exact heq ▸ hx
    · rw [heq] at hx
      cases hx

variable {rest : List Direct}

theorem tell_settled {v n : ℕ} (hreads : o.reads n = none)
    (hd : s.disk dp = some d) (hwf : WellFormed d.blocks)
    (hknown : ∀ t, t.Perm (entries d.blocks) → (tellNext rest v t).Perm (entries d.blocks))
    (hcached : ∀ h, s.cache dp = some h → h.stamp = d.stamp ∧
      (h.lastOff = 0 ∨ Describes d.blocks h.lastOff h.lastUnused) ∧
      (tellNext rest v h.table).Perm (entries d.blocks)) :
    (s.tell o dp n (rest.head?.map fun x => x.name.val) v).Settled dp := by
  refine ⟨fun d' hd' => ?_, fun h hh => ⟨d, by rw [disk_tell, hd], ?_⟩⟩
  · rw [disk_tell, hd] at hd'
    cases hd'
    exact hwf
  · cases rest with
    | nil =>
      obtain ⟨hstamp, hhint, htable⟩ := hcached h hh
      exact ⟨hstamp, htable, hhint⟩
    | cons x rest =>
      have hh' : ((s.load o dp n).cache dp).map (fun h => { h with
          table := tellNext (x :: rest) v h.table }) = some h := by
        rw [← hh]
        exact (cache_setHash _).symm
      obtain ⟨y, hy, rfl⟩ := map_eq_some_iff.mp hh'
      cases hc : s.cache dp with
      | some z =>
        rw [load_of_cached hc, hc] at hy
        obtain rfl := some.inj hy
        obtain ⟨hstamp, hhint, htable⟩ := hcached z hc
        exact ⟨hstamp, htable, hhint⟩
      | none =>
        have hs : s.Settled dp := by
          refine ⟨fun d' hd' => ?_, fun h hh => ?_⟩
          · cases hd.symm.trans hd'
            exact hwf
          · rw [hc] at hh
            cases hh
        obtain ⟨d', hd', hm⟩ := (load_settled hs hreads).cached y hy
        rw [disk_load, hd] at hd'
        cases hd'
        exact ⟨hm.stamp, hknown _ hm.table, hm.hint⟩

variable {name : FileName}

@[simp] theorem wrecked_entered {off spacefree dsize size ino : ℕ} {next : Option Bytes} :
    (s.entered o dp off spacefree dsize size name ino next).wrecked = s.wrecked := by
  simp [entered, setHint, setHash]

theorem entered_settled {off spacefree dsize size ino : ℕ}
    (hreads : o.reads 5 = none) (hd : s.disk dp = some d) (hwf : WellFormed d.blocks)
    (hknown : ∀ t, t.Perm (entries d.blocks) → (tellNext rest spacefree t).Perm (entries d.blocks))
    (hhint : Describes d.blocks (off + dsize) (spacefree - size))
    (hcached : ∀ h, s.cache dp = some h → h.stamp = d.stamp ∧ (tellNext rest spacefree
        (⟨name, ino, off + dsize, spacefree, dsize⟩ :: h.table)).Perm (entries d.blocks)) :
    (s.entered o dp off spacefree dsize size name ino
      (rest.head?.map fun x => x.name.val)).Settled dp := by
  refine tell_settled hreads (by rw [disk_enterCached]; exact hd) hwf hknown ?_
  intro h hh
  obtain ⟨x, hx, rfl⟩ := cache_enterCached hh
  rw [setHint, cache_setHash] at hx
  obtain ⟨y, hy, rfl⟩ := map_eq_some_iff.mp hx
  obtain ⟨hstamp, htable⟩ := hcached y hy
  exact ⟨hstamp, Or.inr hhint, htable⟩

theorem tellNext_known {d : List DirBlock} {A C : List HashEntry} {off v : ℕ}
    (hwf : WellFormed d) (hd : entries d = A ++ (blockEntries off v rest ++ C))
    (hused : ∀ x ∈ rest, x.ino ≠ 0) (t : List HashEntry) (ht : t.Perm (entries d)) :
    (tellNext rest v t).Perm (entries d) := by
  have hnd := hwf.names
  rw [hd] at ht hnd ⊢
  exact tellNext_perm hused ht hnd v

def Terminated (o : DiskOutcome Dev) (name : FileName) : Prop :=
  name.val.length < maxnamlen ∨ o.stack = []

omit [DecidableEq Dev] in
theorem nextName_terminated {p : Place} {r : Direct} {rest : List Direct}
    (h : WellFormed (p.fill (r :: rest))) (hnext : ∀ x ∈ rest.head?, Terminated o x.name) :
    nextName o (p.offset + r.reclen) rest = rest.head?.map fun x => x.name.val := by
  rw [nextName_eq o h]
  cases hx : rest.head? with
  | none => rfl
  | some x =>
    have := copystr_of_terminated x.name.property (hnext x hx)
    simp [this]

theorem describes_fill {p : Place} {r : Direct}
    (h : WellFormed (p.fill (r :: rest))) {unused : ℕ} (hspace : unused ≤ r.space) :
    Describes (p.fill (r :: rest)) p.offset unused :=
  ⟨{ p with right := r :: rest }, r, rest, locate_fill (p := { p with right := r :: rest }) h rfl,
    rfl, hspace⟩

theorem split_describes {p : Place} {r : Direct} {ino : ℕ}
    (h : WellFormed (p.fill (splitRecord r name ino ++ rest))) (hino : ino ≠ 0) :
    Describes (p.fill (splitRecord r name ino ++ rest)) (p.offset + dirsiz r.name)
      (r.reclen - dirsiz r.name - dirsiz name) := by
  have hshift : p.fill (splitRecord r name ino ++ rest) =
      (p.shift { r with reclen := dirsiz r.name }).fill
        (⟨ino, r.reclen - dirsiz r.name, name⟩ :: rest) := (Place.fill_shift _ _ _).symm
  have hoff := p.offset_shift { r with reclen := dirsiz r.name }
  rw [hshift] at h ⊢
  rw [← hoff]
  refine describes_fill h ?_
  simp [space, size, hino]

section Entering

variable {p : Place} {ep : Direct} {rest : List Direct} {name : FileName} {ino : ℕ}
  (hs : s.Coherent) (hreads : ∀ n, o.reads n = none) (hwritten : o.written = true)
  (hd : s.disk dp = some d) (hloc : locate d.blocks p.offset = some p)
  (hright : p.right = ep :: rest) (hino : ino ≠ 0)
  (hname : name ∉ (entries d.blocks).map HashEntry.name)
  (hnext : ∀ x ∈ rest.head?, Terminated o x.name)

include hs hreads hwritten hd hloc hright hino hname hnext

theorem enterAt_unused (hep : ep.ino = 0) (hsize : dirsiz name ≤ ep.reclen) :
    (s.enterAt o dp d p.offset name ino).Coherent := by
  have hblocks : d.blocks = p.fill (ep :: rest) := by
    rw [← hright]
    exact (locate_eq hloc).1.symm
  have hwf : WellFormed (p.fill (ep :: rest)) := hblocks ▸ (hs.settled dp).formed d hd
  rw [hblocks] at hname
  obtain ⟨before, left, right, after⟩ := p
  obtain rfl : right = ep :: rest := hright
  have hnew := reuse_formed hwf hep hino hname hsize
  have hentries := reuse_entries name hwf hep hino
  simp only [enterAt, hloc, if_pos hep, if_neg (Nat.not_lt.mpr hsize), hwritten, if_true,
    nextName_terminated hwf hnext]
  refine ((aside_write s dp d _).trans (aside_entered _ o dp _ _ _ _ _ _ _)).coherent hs ?_ ?_
  · refine entered_settled (hreads 5) (disk_write d _) hnew ?_ ?_ ?_
    · exact tellNext_known hnew hentries (Place.tiled hwf).rest_used
    · refine describes_fill hnew ?_
      simp [space, size, hino]
    · intro h hh
      obtain ⟨d', hd', hm⟩ := (hs.settled dp).cached h hh
      cases hd.symm.trans hd'
      exact ⟨hm.stamp, reuse_perm hwf hep hino hname (hblocks ▸ hm.table)⟩
  · simpa [write] using hs.whole

theorem enterAt_used (hep : ep.ino ≠ 0) (hsize : dirsiz name ≤ ep.reclen - dirsiz ep.name)
    (hterm : Terminated o ep.name) {h : DirHash} (hh : s.cache dp = some h) :
    (s.enterAt o dp d p.offset name ino).Coherent := by
  have hblocks : d.blocks = p.fill (ep :: rest) := by
    rw [← hright]
    exact (locate_eq hloc).1.symm
  have hwf : WellFormed (p.fill (ep :: rest)) := hblocks ▸ (hs.settled dp).formed d hd
  rw [hblocks] at hname
  obtain ⟨before, left, right, after⟩ := p
  obtain rfl : right = ep :: rest := hright
  have hnew := split_formed hwf hep hino hsize hname
  have hentries : entries (Place.fill ⟨before, left, ep :: rest, after⟩
      (splitRecord ep name ino ++ rest)) = _ := split_entries hep hino hsize
  have hcopy := copystr_of_terminated ep.name.property hterm
  simp only [enterAt, hloc, if_neg hep, if_neg (Nat.not_lt.mpr hsize), hwritten, if_true,
    nextName_terminated hwf hnext, hcopy]
  rw [load_of_cached (s := s.write dp d _) hh]
  refine (((aside_write s dp d _).trans (aside_setHash _ dp _)).trans
    (aside_entered _ o dp _ _ _ _ _ _ _)).coherent hs ?_ ?_
  · refine entered_settled (hreads 5) (disk_write d _) hnew ?_ ?_ ?_
    · exact tellNext_known hnew hentries (Place.tiled hwf).rest_used
    · exact split_describes hnew hino
    · intro x hx
      simp only [cache_setHash, cache_write, hh, map_some] at hx
      cases hx
      obtain ⟨d', hd', hm⟩ := (hs.settled dp).cached h hh
      cases hd.symm.trans hd'
      exact ⟨hm.stamp, split_perm hwf hep hino hsize hname (hblocks ▸ hm.table)⟩
  · simpa [write, amend, setHash] using hs.whole

end Entering

def PlaceMeets (s : DirState Dev) (o : DiskOutcome Dev) (dp : Dev × ℕ) : List Direct → Prop
  | ep :: rest => (ep.ino ≠ 0 → (s.cache dp).isSome = true ∧ Terminated o ep.name) ∧
    ∀ x ∈ rest.head?, Terminated o x.name
  | [] => True

def EnterMeets (s : DirState Dev) (o : DiskOutcome Dev) (dp : Dev × ℕ) (name : FileName) : Prop :=
  ∀ d ∈ s.disk dp, s.enterOffset o dp d (dirsiz name) = dirblksiz * d.blocks.length ∨
    o.blockRead = false ∨ (o.spaceReads = none ∧ o.written = true ∧
      ∀ p ∈ locate d.blocks (s.enterOffset o dp d (dirsiz name)), s.PlaceMeets o dp p.right)

omit [DecidableEq Dev] in
theorem enterOffset_eq (hs : s.Coherent) (hreads : o.spaceReads = none) (hd : s.disk dp = some d)
    (size : ℕ) : s.enterOffset o dp d size = dirblksiz * d.blocks.length ∨
      Describes d.blocks (s.enterOffset o dp d size) size := by
  have hscan := scanSpace_eq ((hs.settled dp).formed d hd) size
  rw [enterOffset, hreads]
  split
  · exact hscan
  · rename_i h hh
    split
    · exact hscan
    · rename_i hused
      rw [not_or, Nat.not_lt] at hused
      obtain ⟨d', hd', hm⟩ := (hs.settled dp).cached h hh
      cases hd.symm.trans hd'
      obtain ⟨p, r, rest, hloc, hright, hspace⟩ := hm.hint.resolve_left hused.1
      exact Or.inr ⟨p, r, rest, hloc, hright, hused.2.trans hspace⟩

theorem enterFresh (hs : s.Coherent) {ino : ℕ} (hd : s.disk dp = some d)
    (hino : ino ≠ 0) (hname : name ∉ (entries d.blocks).map HashEntry.name) :
    ((((s.write dp d (d.blocks ++ [[⟨ino, dirblksiz, name⟩]])).setHint dp
      (dirblksiz * d.blocks.length) (dirblksiz - dirsiz name))).enterCached o dp
        ⟨name, ino, dirblksiz * d.blocks.length, dirblksiz, 0⟩).Coherent := by
  have hwf := (hs.settled dp).formed d hd
  have hnew := fresh_formed hwf hino hname
  have hhint : Describes (d.blocks ++ [[⟨ino, dirblksiz, name⟩]]) (dirblksiz * d.blocks.length)
      (dirblksiz - dirsiz name) := by
    refine describes_fill (p := ⟨d.blocks, [], [], []⟩) hnew ?_
    simp [space, size, hino]
  refine ((aside_write s dp d _).trans ((aside_setHash _ dp _).trans
    (aside_enterCached _ o dp _))).coherent hs ⟨fun d' hd' => ?_, fun h hh => ?_⟩ ?_
  · rw [disk_enterCached] at hd'
    cases (disk_write d _).symm.trans hd'
    exact hnew
  · refine ⟨_, by rw [disk_enterCached]; exact disk_write d _, ?_⟩
    obtain ⟨x, hx, rfl⟩ := cache_enterCached hh
    simp only [cache_setHash] at hx
    obtain ⟨y, hy, rfl⟩ := map_eq_some_iff.mp hx
    obtain ⟨d', hd', hm⟩ := (hs.settled dp).cached y hy
    cases hd.symm.trans hd'
    exact ⟨hm.stamp, fresh_perm hino hm.table, Or.inr hhint⟩
  · simpa [setHint, setHash, write] using hs.whole

theorem Coherent.direnter (hs : s.Coherent) {ino : ℕ}
    (hreads : ∀ n, o.reads n = none) (hino : ino ≠ 0)
    (hname : ∀ d, s.disk dp = some d → name ∉ (entries d.blocks).map HashEntry.name)
    (hmeets : s.EnterMeets o dp name) : (s.direnter o dp name ino).Coherent := by
  rw [DirState.direnter]
  split
  · exact hs
  · rename_i d hd
    have hmeets := hmeets d hd
    have hoff (hspace : o.spaceReads = none) := enterOffset_eq hs hspace hd (dirsiz name)
    dsimp only
    generalize s.enterOffset o dp d (dirsiz name) = off at hmeets hoff ⊢
    split_ifs with hend hwritten hread
    · exact hend ▸ enterFresh hs hd hino (hname d hd)
    · exact hs.dirRemove dp
    · obtain ⟨hscan, hwritten, hplace⟩ :=
        (hmeets.resolve_left hend).resolve_left (by simp [hread])
      obtain ⟨p, r, rest, hloc, hright, hspace⟩ := (hoff hscan).resolve_left hend
      obtain rfl := (locate_eq hloc).2
      have hmeet := hplace p hloc
      rw [hright] at hmeet
      by_cases hr : r.ino = 0
      · have hsize : dirsiz name ≤ r.reclen := by simpa [space, size, hr] using hspace
        exact enterAt_unused hs hreads hwritten hd hloc hright hino (hname d hd) hmeet.2 hr hsize
      · have hsize : dirsiz name ≤ r.reclen - dirsiz r.name := by
          simpa [space, size, hr] using hspace
        obtain ⟨hcached, hterm⟩ := hmeet.1 hr
        obtain ⟨h, hh⟩ := isSome_iff_exists.mp hcached
        exact enterAt_used hs hreads hwritten hd hloc hright hino (hname d hd) hmeet.2 hr hsize
          hterm hh
    · exact hs

end DirState

end MachUS.Ufs
