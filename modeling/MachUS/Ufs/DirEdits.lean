import MachUS.Ufs.DirCache

namespace MachUS.Ufs

open List Place

theorem nodup_bytes {l : List HashEntry} (h : (l.map HashEntry.name).Nodup) :
    (l.map bytesOf).Nodup := by
  have := h.map Subtype.val_injective
  rwa [map_map] at this

theorem Tiled.replace {left new : List Direct} {r : Direct} {rest : List Direct}
    (h : Tiled (left ++ r :: rest)) (hspan : span new = span (r :: rest))
    (hfits : ∀ x ∈ new, 0 < x.reclen ∧ x.size ≤ x.reclen) (hused : ∀ x ∈ new.tail, x.ino ≠ 0)
    (hhead : left = [] ∨ ∀ x ∈ new.head?, x.ino ≠ 0) : Tiled (left ++ new) := by
  have hfull := h.full
  refine ⟨by rw [span_append, hspan, ← span_append, hfull], ?_, ?_⟩
  · intro x hx
    rcases mem_append.mp hx with hx | hx
    · exact h.fits x (mem_append_left _ hx)
    · exact hfits x hx
  · intro x hx
    cases left with
    | nil => exact hused x hx
    | cons y left =>
      rcases mem_append.mp hx with hx | hx
      · exact h.used x (mem_append_left _ hx)
      · cases new with
        | nil => cases hx
        | cons z new =>
          rcases mem_cons.mp hx with rfl | hx
          · exact hhead.resolve_left (by simp) x rfl
          · exact hused x hx

theorem Tiled.rest_used {left rest : List Direct} {r : Direct} (h : Tiled (left ++ r :: rest)) :
    ∀ x ∈ rest, x.ino ≠ 0 := by
  intro x hx
  apply h.used
  cases left with
  | nil => exact hx
  | cons y left => exact mem_append_right _ (mem_cons_of_mem _ hx)

theorem Tiled.used_or_first {left rest : List Direct} {r : Direct} (h : Tiled (left ++ r :: rest)) :
    left = [] ∨ r.ino ≠ 0 := by
  cases left with
  | nil => exact Or.inl rfl
  | cons y left => exact Or.inr (h.used r (mem_append_right _ (by simp)))

theorem mem_blockEntries {off prev : ℕ} {b : DirBlock} {e : HashEntry}
    (he : e ∈ blockEntries off prev b) : ∃ left r rest, b = left ++ r :: rest ∧ r.ino ≠ 0 ∧
      e = ⟨r.name, r.ino, off + span left, r.reclen,
        (left.getLast?.map Direct.reclen).getD prev⟩ := by
  induction b generalizing off prev with
  | nil => cases he
  | cons r b ih =>
    rw [blockEntries] at he
    rcases mem_append.mp he with he | he
    · split at he
      · cases he
      · obtain rfl := mem_singleton.mp he
        exact ⟨[], r, b, rfl, ‹_›, by simp⟩
    · obtain ⟨left, r', rest, rfl, hused, rfl⟩ := ih he
      refine ⟨r :: left, r', rest, rfl, hused, ?_⟩
      rw [getLast?_cons, span_cons, Nat.add_assoc]
      cases left.getLast? <;> rfl

theorem mem_entriesFrom {off : ℕ} {d : List DirBlock} {e : HashEntry}
    (he : e ∈ entriesFrom off d) : ∃ before b after, d = before ++ b :: after ∧
      e ∈ blockEntries (off + dirblksiz * before.length) 0 b := by
  induction d generalizing off with
  | nil => cases he
  | cons b d ih =>
    rw [entriesFrom] at he
    rcases mem_append.mp he with he | he
    · exact ⟨[], b, d, rfl, by simpa using he⟩
    · obtain ⟨before, b', after, rfl, he⟩ := ih he
      refine ⟨b :: before, b', after, rfl, ?_⟩
      rwa [length_cons, Nat.mul_succ, Nat.add_comm _ dirblksiz, ← Nat.add_assoc]

def Place.entry (p : Place) (r : Direct) : HashEntry := ⟨r.name, r.ino, p.offset, r.reclen, p.prev⟩

theorem mem_entries {d : List DirBlock} {e : HashEntry} (he : e ∈ entries d) :
    ∃ (p : Place) (r : Direct) (rest : List Direct), d = p.fill (r :: rest) ∧ p.right = r :: rest ∧ r.ino ≠ 0 ∧ e = p.entry r := by
  obtain ⟨before, b, after, rfl, hb⟩ := mem_entriesFrom he
  obtain ⟨left, r, rest, rfl, hused, rfl⟩ := mem_blockEntries hb
  refine ⟨⟨before, left, r :: rest, after⟩, r, rest, rfl, rfl, hused, ?_⟩
  simp [entry, offset, Place.prev]

namespace Place

def shift (p : Place) (x : Direct) : Place := { p with left := p.left ++ [x] }

theorem fill_shift (p : Place) (x : Direct) (b : List Direct) :
    (p.shift x).fill b = p.fill (x :: b) := by
  simp [fill, shift]

theorem offset_shift (p : Place) (x : Direct) : (p.shift x).offset = p.offset + x.reclen := by
  simp [offset, shift, Nat.add_assoc]

theorem prev_shift (p : Place) (x : Direct) : (p.shift x).prev = x.reclen := by
  simp [prev, shift]

end Place

def Lists (d : List DirBlock) (name : FileName) (ino : ℕ) : Prop :=
  ∃ b ∈ d, ∃ r ∈ b, r.ino ≠ 0 ∧ r.name = name ∧ r.ino = ino

theorem lists_fill {p : Place} {b c : List Direct} {name : FileName} {ino : ℕ}
    (hbc : ∀ r ∈ b, r.ino ≠ 0 → r.name = name → r.ino = ino →
      ∃ r' ∈ c, r'.ino ≠ 0 ∧ r'.name = name ∧ r'.ino = ino)
    (h : Lists (p.fill b) name ino) : Lists (p.fill c) name ino := by
  obtain ⟨x, hx, r, hr, hused, hname, hino⟩ := h
  simp only [fill, mem_append, mem_cons] at hx
  rcases hx with hx | rfl | hx
  · exact ⟨x, by simp [fill, hx], r, hr, hused, hname, hino⟩
  · rcases mem_append.mp hr with hr | hr
    · exact ⟨p.left ++ c, by simp [fill], r, by simp [hr], hused, hname, hino⟩
    · obtain ⟨r', hr', hfacts⟩ := hbc r hr hused hname hino
      exact ⟨p.left ++ c, by simp [fill], r', by simp [hr'], hfacts⟩
  · exact ⟨x, by simp [fill, hx], r, hr, hused, hname, hino⟩

section Updates

variable {p : Place} {r : Direct} {rest : List Direct}

theorem Place.tiled (h : WellFormed (p.fill (r :: rest))) : Tiled (p.left ++ r :: rest) :=
  h.tiled _ (by simp [fill])

theorem Place.prev_eq_zero (h : WellFormed (p.fill (r :: rest))) : p.prev = 0 ↔ p.left = [] := by
  constructor
  · intro hprev
    obtain hnil | ⟨l, x, hl⟩ := eq_nil_or_concat p.left
    · exact hnil
    · rw [concat_eq_append] at hl
      have hpos := ((tiled h).fits x (by simp [hl])).1
      rw [prev, hl, getLast?_concat] at hprev
      exact absurd hprev hpos.ne'
  · intro hnil
    simp [prev, hnil]

theorem entries_fill_cons (p : Place) (r : Direct) (rest : List Direct) : entries (p.fill (r :: rest)) =
    p.entriesLeft ++ ((if r.ino = 0 then [] else [p.entry r]) ++
      (blockEntries (p.offset + r.reclen) r.reclen rest ++ p.entriesRight)) := by
  rw [entries_fill, blockEntries, append_assoc]
  rfl

theorem WellFormed.replace {new : List Direct} (h : WellFormed (p.fill (r :: rest)))
    (ht : Tiled (p.left ++ new)) (hnames : ((entries (p.fill new)).map HashEntry.name).Nodup) :
    WellFormed (p.fill new) := by
  refine ⟨fun b hb => ?_, hnames⟩
  rcases p.mem_fill b hb with rfl | hb
  · exact ht
  · exact h.tiled b hb

theorem nextName_eq {Dev : Type} (o : DiskOutcome Dev) (h : WellFormed (p.fill (r :: rest))) :
    DirState.nextName o (p.offset + r.reclen) rest =
      rest.head?.map fun x => copystr x.name o.stack := by
  have ht := tiled h
  have hfull := ht.full
  rw [span_append, span_cons] at hfull
  have hpos := (ht.fits r (by simp)).1
  have hmod : (p.offset + r.reclen) % dirblksiz = (span p.left + r.reclen) % dirblksiz := by
    rw [offset, Nat.add_assoc, Nat.mul_add_mod]
  rw [DirState.nextName, hmod]
  cases rest with
  | nil => simp
  | cons x rest =>
    have hx := (ht.fits x (by simp)).1
    rw [span_cons] at hfull
    rw [Nat.mod_eq_of_lt (by omega), if_neg (by omega)]

end Updates

def tellNext (rest : List Direct) (prev : ℕ) (t : List HashEntry) : List HashEntry :=
  match rest.head? with
  | none => t
  | some x => Keyed.amend bytesOf x.name.val (fun e => { e with prev := prev }) t

theorem blockEntries_names (off off' prev prev' : ℕ) (b : DirBlock) :
    (blockEntries off prev b).map HashEntry.name = (blockEntries off' prev' b).map HashEntry.name := by
  induction b generalizing off off' prev prev' with
  | nil => rfl
  | cons r b ih =>
    rw [blockEntries, blockEntries, map_append, map_append, ih _ (off' + r.reclen) _ r.reclen]
    split <;> rfl

theorem tellNext_perm {t A C : List HashEntry} {rest : List Direct} {off prev : ℕ}
    (hused : ∀ x ∈ rest, x.ino ≠ 0) (hp : t.Perm (A ++ (blockEntries off prev rest ++ C)))
    (hnd : ((A ++ (blockEntries off prev rest ++ C)).map HashEntry.name).Nodup) (prev' : ℕ) :
    (tellNext rest prev' t).Perm (A ++ (blockEntries off prev' rest ++ C)) := by
  cases rest with
  | nil => exact hp
  | cons x rest =>
    have hx : x.ino ≠ 0 := hused x (by simp)
    simp only [blockEntries, if_neg hx, cons_append] at hp hnd ⊢
    exact Keyed.amend_perm (f := fun e => { e with prev := prev' }) hp (nodup_bytes hnd)

end MachUS.Ufs

namespace MachUS.Ufs

open Keyed Direct

variable {p : Place} {r : Direct} {rest : List Direct} {t : List HashEntry}

theorem dirsiz_pos (name : Bytes) : 0 < dirsiz name := by
  rw [dirsiz]
  omega

theorem dirsiz_le (name : FileName) : dirsiz name ≤ dirblksiz := by
  have h : name.val.length ≤ 255 := name.property
  rw [dirsiz, dirblksiz]
  omega

section Split

variable {name : FileName} {ino : ℕ}

def splitRecord (r : Direct) (name : FileName) (ino : ℕ) : List Direct :=
  [{ r with reclen := dirsiz r.name }, ⟨ino, r.reclen - dirsiz r.name, name⟩]

def splitTable (p : Place) (r : Direct) (rest : List Direct) (name : FileName) (ino : ℕ)
    (t : List HashEntry) : List HashEntry :=
  tellNext rest (r.reclen - dirsiz r.name)
    (⟨name, ino, p.offset + dirsiz r.name, r.reclen - dirsiz r.name, dirsiz r.name⟩ ::
      amend bytesOf r.name.val (fun e => { e with reclen := dirsiz r.name }) t)

variable (h : WellFormed (p.fill (r :: rest))) (hr : r.ino ≠ 0) (hino : ino ≠ 0)
  (hsize : dirsiz name ≤ r.reclen - dirsiz r.name)
  (hname : name ∉ (entries (p.fill (r :: rest))).map HashEntry.name)

include h hr hino hsize

omit h in
theorem split_entries : entries (p.fill (splitRecord r name ino ++ rest)) =
    (p.entriesLeft ++ [p.entry { r with reclen := dirsiz r.name },
      ⟨name, ino, p.offset + dirsiz r.name, r.reclen - dirsiz r.name, dirsiz r.name⟩]) ++
      (blockEntries (p.offset + r.reclen) (r.reclen - dirsiz r.name) rest ++ p.entriesRight) := by
  have hpos := dirsiz_pos name
  have hoff : p.offset + dirsiz r.name + (r.reclen - dirsiz r.name) = p.offset + r.reclen := by
    omega
  simp only [splitRecord, List.cons_append, List.nil_append, entries_fill_cons, blockEntries]
  simp [hr, hino, hoff]

include hname

omit hino hsize in
theorem split_names (ino off prev : ℕ) :
    ((p.entriesLeft ++ [p.entry { r with reclen := dirsiz r.name },
      ⟨name, ino, p.offset + dirsiz r.name, r.reclen - dirsiz r.name, dirsiz r.name⟩] ++
      (blockEntries off prev rest ++ p.entriesRight)).map HashEntry.name).Nodup := by
  have hnd := h.names
  rw [entries_fill_cons, if_neg hr] at hnd hname
  simp only [Place.entry, List.map_append, List.map_cons, List.map_nil] at hnd hname ⊢
  rw [blockEntries_names off (p.offset + r.reclen) prev r.reclen]
  grind

theorem split_formed : WellFormed (p.fill (splitRecord r name ino ++ rest)) := by
  have ht := Place.tiled h
  have hpos := dirsiz_pos name
  have hpos' := dirsiz_pos r.name
  refine h.replace (ht.replace ?_ ?_ ?_ ?_) ?_
  · simp only [splitRecord, List.cons_append, List.nil_append, span_cons]
    omega
  · intro x hx
    simp only [splitRecord, List.cons_append, List.nil_append, List.mem_cons] at hx
    rcases hx with rfl | rfl | hx
    · simp [size, hr, hpos']
    · simp only [size, if_neg hino]
      omega
    · exact ht.fits x (by simp [hx])
  · intro x hx
    simp only [splitRecord, List.cons_append, List.nil_append, List.tail_cons, List.mem_cons] at hx
    rcases hx with rfl | hx
    · exact hino
    · exact ht.rest_used x hx
  · right
    simpa [splitRecord] using hr
  · rw [split_entries hr hino hsize]
    exact split_names h hr hname ino _ _

theorem split_perm (ht : t.Perm (entries (p.fill (r :: rest)))) :
    (splitTable p r rest name ino t).Perm (entries (p.fill (splitRecord r name ino ++ rest))) := by
  have hnd := h.names
  rw [entries_fill_cons, if_neg hr, List.singleton_append] at ht hnd
  have hamend := amend_perm (f := fun e : HashEntry => { e with reclen := dirsiz r.name }) ht
    (nodup_bytes hnd)
  rw [split_entries hr hino hsize]
  refine tellNext_perm (Place.tiled h).rest_used ?_ (split_names h hr hname ino _ r.reclen) _
  have hpush := hamend.cons
    (⟨name, ino, p.offset + dirsiz r.name, r.reclen - dirsiz r.name, dirsiz r.name⟩ : HashEntry)
  refine hpush.trans ?_
  simp only [List.append_assoc, List.cons_append, List.nil_append]
  refine List.perm_middle.symm.trans ?_
  exact List.Perm.append_left _ (.swap _ _ _)

end Split

section Reuse

variable {name : FileName} {ino : ℕ}

def reuseTable (p : Place) (r : Direct) (rest : List Direct) (name : FileName) (ino : ℕ)
    (t : List HashEntry) : List HashEntry :=
  tellNext rest r.reclen (⟨name, ino, p.offset, r.reclen, 0⟩ :: t)

variable (h : WellFormed (p.fill (r :: rest))) (hr : r.ino = 0) (hino : ino ≠ 0)

include h hr hino

variable (name) in
theorem reuse_entries : entries (p.fill (⟨ino, r.reclen, name⟩ :: rest)) =
    (p.entriesLeft ++ [⟨name, ino, p.offset, r.reclen, 0⟩]) ++
      (blockEntries (p.offset + r.reclen) r.reclen rest ++ p.entriesRight) := by
  have hprev : p.prev = 0 :=
    (Place.prev_eq_zero h).mpr ((Place.tiled h).used_or_first.resolve_right (by simpa using hr))
  simp [entries_fill_cons, hino, Place.entry, hprev]

variable (hname : name ∉ (entries (p.fill (r :: rest))).map HashEntry.name)

include hname

theorem reuse_names :
    ((entries (p.fill (⟨ino, r.reclen, name⟩ :: rest))).map HashEntry.name).Nodup := by
  have hnd := h.names
  rw [reuse_entries name h hr hino]
  rw [entries_fill_cons, if_pos hr] at hnd hname
  grind

theorem reuse_formed (hsize : dirsiz name ≤ r.reclen) :
    WellFormed (p.fill (⟨ino, r.reclen, name⟩ :: rest)) := by
  have ht := Place.tiled h
  refine h.replace (ht.replace rfl ?_ ht.rest_used ?_) (reuse_names h hr hino hname)
  · intro x hx
    rcases List.mem_cons.mp hx with rfl | hx
    · simpa [size, hino, hsize] using (ht.fits r (by simp)).1
    · exact ht.fits x (by simp [hx])
  · right
    simpa using hino

theorem reuse_perm (ht : t.Perm (entries (p.fill (r :: rest)))) :
    (reuseTable p r rest name ino t).Perm (entries (p.fill (⟨ino, r.reclen, name⟩ :: rest))) := by
  have hnd := reuse_names h hr hino hname
  rw [reuse_entries name h hr hino] at hnd ⊢
  rw [entries_fill_cons, if_pos hr, List.nil_append] at ht
  refine tellNext_perm (Place.tiled h).rest_used ?_ hnd _
  refine (ht.cons _).trans ?_
  simpa using List.perm_middle.symm

end Reuse

section Fresh

variable {d : List DirBlock} {name : FileName} {ino : ℕ}

theorem fresh_entries (d : List DirBlock) (name : FileName) (hino : ino ≠ 0) :
    entries (d ++ [[⟨ino, dirblksiz, name⟩]]) =
      entries d ++ [⟨name, ino, dirblksiz * d.length, dirblksiz, 0⟩] := by
  rw [entries, entriesFrom_append]
  simp [entries, entriesFrom, blockEntries, hino]

variable (h : WellFormed d) (hino : ino ≠ 0) (hname : name ∉ (entries d).map HashEntry.name)

include h hino hname

theorem fresh_formed : WellFormed (d ++ [[⟨ino, dirblksiz, name⟩]]) := by
  refine ⟨fun b hb => ?_, ?_⟩
  · rcases List.mem_append.mp hb with hb | hb
    · exact h.tiled b hb
    · obtain rfl := List.mem_singleton.mp hb
      refine ⟨by simp, fun x hx => ?_, by simp⟩
      obtain rfl := List.mem_singleton.mp hx
      exact ⟨by simp [dirblksiz], by simpa [size, hino] using dirsiz_le name⟩
  · have hnd := h.names
    rw [fresh_entries d name hino]
    grind

omit h hname in
theorem fresh_perm (ht : t.Perm (entries d)) :
    ((⟨name, ino, dirblksiz * d.length, dirblksiz, 0⟩ : HashEntry) :: t).Perm
      (entries (d ++ [[⟨ino, dirblksiz, name⟩]])) := by
  rw [fresh_entries d name hino]
  refine (ht.cons _).trans ?_
  exact (List.perm_append_singleton _ _).symm

end Fresh

section Blank

variable (h : WellFormed (p.fill (r :: rest))) (hr : r.ino ≠ 0)

theorem blank_entries (p : Place) (r : Direct) (rest : List Direct) :
    entries (p.fill ({ r with ino := 0 } :: rest)) =
      p.entriesLeft ++ (blockEntries (p.offset + r.reclen) r.reclen rest ++ p.entriesRight) := by
  simp [entries_fill_cons]

include h hr

theorem blank_formed (hprev : p.prev = 0) : WellFormed (p.fill ({ r with ino := 0 } :: rest)) := by
  have ht := Place.tiled h
  have hnd := h.names
  refine h.replace (ht.replace rfl ?_ ht.rest_used ?_) ?_
  · intro x hx
    rcases List.mem_cons.mp hx with rfl | hx
    · simpa [size] using (ht.fits r (by simp)).1
    · exact ht.fits x (by simp [hx])
  · left
    exact (Place.prev_eq_zero h).mp hprev
  · rw [entries_fill_cons, if_neg hr] at hnd
    rw [blank_entries]
    grind

theorem blank_perm (ht : t.Perm (entries (p.fill (r :: rest)))) :
    (drop bytesOf r.name.val t).Perm (entries (p.fill ({ r with ino := 0 } :: rest))) := by
  have hnd := h.names
  rw [entries_fill_cons, if_neg hr, List.singleton_append] at ht hnd
  rw [blank_entries]
  exact drop_perm ht (nodup_bytes hnd)

end Blank

section Rewrite

variable {ino : ℕ} (h : WellFormed (p.fill (r :: rest))) (hr : r.ino ≠ 0) (hino : ino ≠ 0)

include h hr hino

theorem rewrite_formed : WellFormed (p.fill ({ r with ino := ino } :: rest)) := by
  have ht := Place.tiled h
  have hnd := h.names
  refine h.replace (ht.replace rfl ?_ ht.rest_used ?_) ?_
  · intro x hx
    rcases List.mem_cons.mp hx with rfl | hx
    · simpa [size, hr, hino] using ht.fits r (by simp)
    · exact ht.fits x (by simp [hx])
  · right
    simpa using hino
  · rw [entries_fill_cons, if_neg hr] at hnd
    rw [entries_fill_cons, if_neg hino]
    simpa [Place.entry] using hnd

theorem rewrite_perm (ht : t.Perm (entries (p.fill (r :: rest)))) :
    (amend bytesOf r.name.val (fun e => { e with ino := ino }) t).Perm
      (entries (p.fill ({ r with ino := ino } :: rest))) := by
  have hnd := h.names
  rw [entries_fill_cons, if_neg hr, List.singleton_append] at ht hnd
  rw [entries_fill_cons, if_neg hino, List.singleton_append]
  exact amend_perm (f := fun e : HashEntry => { e with ino := ino }) ht (nodup_bytes hnd)

end Rewrite

section Collapse

variable {ep : Direct}

def growTable (ep : Direct) (reclen : ℕ) (t : List HashEntry) : List HashEntry :=
  if ep.ino = 0 then t
  else amend bytesOf ep.name.val (fun e => { e with reclen := reclen }) t

def collapseTable (ep r : Direct) (rest : List Direct) (t : List HashEntry) : List HashEntry :=
  drop bytesOf r.name.val
    (tellNext rest (ep.reclen + r.reclen) (growTable ep (ep.reclen + r.reclen) t))

variable (h : WellFormed (p.fill (ep :: r :: rest)))

theorem collapse_entries (p : Place) (ep r : Direct) (rest : List Direct) :
    entries (p.fill ({ ep with reclen := ep.reclen + r.reclen } :: rest)) =
      (p.entriesLeft ++ (if ep.ino = 0 then []
        else [p.entry { ep with reclen := ep.reclen + r.reclen }])) ++
      (blockEntries (p.offset + ep.reclen + r.reclen) (ep.reclen + r.reclen) rest ++
        p.entriesRight) := by
  rw [entries_fill_cons, List.append_assoc, Nat.add_assoc]

include h

theorem collapse_formed :
    WellFormed (p.fill ({ ep with reclen := ep.reclen + r.reclen } :: rest)) := by
  have ht := Place.tiled h
  have hnd := h.names
  have hr : r.ino ≠ 0 := ht.rest_used r (by simp)
  refine h.replace (ht.replace ?_ ?_ ?_ ?_) ?_
  · simp only [span_cons]
    omega
  · intro x hx
    rcases List.mem_cons.mp hx with rfl | hx
    · have := ht.fits ep (by simp)
      simp only [size] at this ⊢
      omega
    · exact ht.fits x (by simp [hx])
  · intro x hx
    exact ht.rest_used x (List.mem_cons_of_mem _ hx)
  · rcases ht.used_or_first with hnil | hused
    · exact Or.inl hnil
    · exact Or.inr (by simpa using hused)
  · rw [collapse_entries]
    rw [entries_fill_cons, blockEntries, if_neg hr] at hnd
    simp only [List.map_append, List.map_cons, List.map_nil] at hnd ⊢
    rw [blockEntries_names _ (p.offset + ep.reclen + r.reclen) _ r.reclen]
    by_cases hep : ep.ino = 0
    · grind
    · simp only [hep, if_false, Place.entry, List.map_cons] at hnd ⊢
      grind

theorem collapse_perm (ht : t.Perm (entries (p.fill (ep :: r :: rest)))) :
    (collapseTable ep r rest t).Perm
      (entries (p.fill ({ ep with reclen := ep.reclen + r.reclen } :: rest))) := by
  have hr : r.ino ≠ 0 := (Place.tiled h).rest_used r (by simp)
  have hrest : ∀ x ∈ rest, x.ino ≠ 0 := fun x hx =>
    (Place.tiled h).rest_used x (List.mem_cons_of_mem _ hx)
  have hnd := h.names
  rw [entries_fill_cons, blockEntries, if_neg hr] at ht hnd
  rw [collapse_entries]
  generalize hE : (if ep.ino = 0 then [] else
    [p.entry { ep with reclen := ep.reclen + r.reclen }]) = E
  generalize hrE : (⟨r.name, r.ino, p.offset + ep.reclen, r.reclen, ep.reclen⟩ : HashEntry) = rE
    at ht hnd
  have hjoin : (growTable ep (ep.reclen + r.reclen) t).Perm
      ((p.entriesLeft ++ E ++ [rE]) ++
        (blockEntries (p.offset + ep.reclen + r.reclen) r.reclen rest ++ p.entriesRight)) := by
    by_cases hep : ep.ino = 0
    · simp only [growTable, hep, if_true] at ht hE ⊢
      simpa [← hE] using ht
    · simp only [growTable, hep, if_false, List.cons_append, List.nil_append] at ht hnd hE ⊢
      have := amend_perm (f := fun e : HashEntry => { e with reclen := ep.reclen + r.reclen })
        ht (nodup_bytes hnd)
      simpa [← hE, Place.entry] using this
  have hnames (prev : ℕ) : (((p.entriesLeft ++ E ++ [rE]) ++
      (blockEntries (p.offset + ep.reclen + r.reclen) prev rest ++ p.entriesRight)).map
        HashEntry.name).Nodup := by
    simp only [List.map_append] at hnd ⊢
    rw [blockEntries_names _ (p.offset + ep.reclen + r.reclen) prev r.reclen]
    have hEname : E.map HashEntry.name =
        (if ep.ino = 0 then [] else [p.entry ep]).map HashEntry.name := by
      rw [← hE]
      split <;> rfl
    rw [hEname]
    simpa using hnd
  have htold := tellNext_perm hrest hjoin (hnames _) (ep.reclen + r.reclen)
  have hname : r.name.val = bytesOf rE := by
    rw [← hrE]
  rw [collapseTable, hname]
  refine drop_perm ?_ (nodup_bytes ?_)
  · simpa using htold
  · simpa using hnames (ep.reclen + r.reclen)

end Collapse

end MachUS.Ufs
