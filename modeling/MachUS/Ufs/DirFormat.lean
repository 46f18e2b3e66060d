import MachUS.Ufs.DirFrames

namespace MachUS.Ufs

open List Nat Place Option Direct

def pairs (d : List DirBlock) : List (FileName × ℕ) := (entries d).map fun e => (e.name, e.ino)

def NoRoom (d : List DirBlock) (size : ℕ) : Prop := ∀ b ∈ d, ∀ r ∈ b, r.space < size

structure Adds (d d' : List DirBlock) (name : FileName) (ino : ℕ) : Prop where
  formed : WellFormed d'
  pairs : (pairs d').Perm ((name, ino) :: pairs d)

structure Removes (d d' : List DirBlock) (name : FileName) (ino : ℕ) : Prop where
  formed : WellFormed d'
  pairs : (pairs d).Perm ((name, ino) :: pairs d')

theorem readable_eq (n : Option ℕ) (d : List DirBlock) : readable n d = d.take (readable n d).length := by
  cases n with
  | none => exact take_length.symm
  | some n =>
    rw [readable, length_take]
    rcases le_total n d.length with hle | hle
    · rw [min_eq_left hle]
    · rw [min_eq_right hle, take_length, take_of_length_le hle]

theorem spaceInBlock_none {needed off : ℕ} {b : DirBlock} (h : ∀ r ∈ b, 0 < r.reclen)
    (hnone : spaceInBlock needed off b = none) : ∀ r ∈ b, r.space < needed := by
  induction b generalizing off with
  | nil => exact fun _ hr => absurd hr not_mem_nil
  | cons r b ih =>
    rw [spaceInBlock, if_neg (h r mem_cons_self).ne'] at hnone
    split_ifs at hnone with hspace
    exact forall_mem_cons.mpr ⟨not_le.mp hspace, ih (fun x hx => h x (mem_cons_of_mem _ hx)) hnone⟩

variable {d : List DirBlock}

theorem spaceFrom_none {needed off : ℕ} (h : ∀ b ∈ d, Tiled b)
    (hnone : spaceFrom needed off d = none) : NoRoom d needed := by
  induction d generalizing off with
  | nil => exact fun _ hb => absurd hb not_mem_nil
  | cons b d ih =>
    rw [spaceFrom] at hnone
    cases hb : spaceInBlock needed off b with
    | some found =>
      rw [hb] at hnone
      cases hnone
    | none =>
      rw [hb] at hnone
      exact forall_mem_cons.mpr
        ⟨spaceInBlock_none (fun r hr => ((h b mem_cons_self).fits r hr).1) hb,
          ih (fun x hx => h x (mem_cons_of_mem _ hx)) hnone⟩

theorem locate_readable {n : Option ℕ} {p : Place} {r : Direct}
    {rest : List Direct} (hwf : WellFormed d) (hfill : readable n d = p.fill (r :: rest))
    (hright : p.right = r :: rest) :
    ∃ q, locate d q.offset = some q ∧ q.right = r :: rest ∧ q.offset = p.offset := by
  have hd : d = fill { p with after := p.after ++ d.drop (readable n d).length } (r :: rest) := by
    calc d = d.take (readable n d).length ++ d.drop (readable n d).length :=
          (take_append_drop _ d).symm
      _ = p.fill (r :: rest) ++ d.drop (readable n d).length := by
          rw [← readable_eq, hfill]
      _ = _ := by
          simp only [fill, append_assoc, cons_append]
  have hloc := locate_fill (hd ▸ hwf) (by exact hright)
  rw [← hd] at hloc
  exact ⟨_, hloc, hright, rfl⟩

theorem locate_block {k : ℕ} (hwf : WellFormed d) (hk : k < d.length) :
    ∃ q r rest, locate d q.offset = some q ∧ q.right = r :: rest ∧ d[k]? = some (r :: rest) ∧
      q.offset = dirblksiz * k := by
  have htiled := hwf.tiled d[k] (getElem_mem hk)
  cases hb : d[k] with
  | nil =>
    have hfull := htiled.full
    rw [hb] at hfull
    cases hfull
  | cons r rest =>
    have hd : d = fill ⟨d.take k, [], r :: rest, d.drop (k + 1)⟩ (r :: rest) := by
      rw [fill, nil_append, ← hb, getElem_cons_drop, take_append_drop]
    have hloc := locate_fill (p := ⟨d.take k, [], r :: rest, d.drop (k + 1)⟩) (hd ▸ hwf) rfl
    rw [← hd] at hloc
    refine ⟨_, r, rest, hloc, rfl, by rw [getElem?_eq_getElem hk, hb], ?_⟩
    rw [offset, length_take, min_eq_left hk.le, span_nil, add_zero]

section Pairs

variable {p : Place} {r ep : Direct} {rest : List Direct} {name : FileName} {ino : ℕ}

theorem blockEntries_pairs (off off' prev prev' : ℕ) (b : DirBlock) :
    (blockEntries off prev b).map (fun e => (e.name, e.ino)) =
      (blockEntries off' prev' b).map fun e => (e.name, e.ino) := by
  induction b generalizing off off' prev prev' with
  | nil => rfl
  | cons r b ih =>
    rw [blockEntries, blockEntries, map_append, map_append, ih _ (off' + r.reclen) _ r.reclen]
    split <;> rfl

theorem fresh_adds (h : WellFormed d) (hino : ino ≠ 0)
    (hname : name ∉ (entries d).map HashEntry.name) :
    Adds d (d ++ [[⟨ino, dirblksiz, name⟩]]) name ino := by
  refine ⟨fresh_formed h hino hname, ?_⟩
  rw [pairs, fresh_entries d name hino, map_append]
  exact perm_append_singleton _ _

section

variable (h : WellFormed (p.fill (r :: rest)))

include h

theorem reuse_adds (hr : r.ino = 0) (hino : ino ≠ 0)
    (hname : name ∉ (entries (p.fill (r :: rest))).map HashEntry.name) (hsize : dirsiz name ≤ r.reclen) :
    Adds (p.fill (r :: rest)) (p.fill (⟨ino, r.reclen, name⟩ :: rest)) name ino := by
  refine ⟨reuse_formed h hr hino hname hsize, ?_⟩
  rw [pairs, pairs, reuse_entries name h hr hino, entries_fill_cons, if_pos hr]
  simp only [map_append, nil_append, map_cons, append_assoc, cons_append]
  exact perm_middle

theorem split_adds (hr : r.ino ≠ 0) (hino : ino ≠ 0)
    (hsize : dirsiz name ≤ r.reclen - dirsiz r.name)
    (hname : name ∉ (entries (p.fill (r :: rest))).map HashEntry.name) :
    Adds (p.fill (r :: rest)) (p.fill (splitRecord r name ino ++ rest)) name ino := by
  refine ⟨split_formed h hr hino hsize hname, ?_⟩
  rw [pairs, pairs, split_entries hr hino hsize, entries_fill_cons, if_neg hr]
  simp only [map_append, map_cons, append_assoc, cons_append, nil_append, entry]
  rw [blockEntries_pairs _ (p.offset + r.reclen) _ r.reclen rest]
  refine (Perm.append_left _ (.swap _ _ _)).trans ?_
  exact perm_middle

theorem blank_removes (hr : r.ino ≠ 0) (hprev : p.prev = 0) :
    Removes (p.fill (r :: rest)) (p.fill ({ r with ino := 0 } :: rest)) r.name r.ino := by
  refine ⟨blank_formed h hr hprev, ?_⟩
  rw [pairs, pairs, blank_entries, entries_fill_cons, if_neg hr]
  simp only [map_append, map_cons, cons_append, nil_append, entry]
  exact perm_middle

end

theorem collapse_removes (h : WellFormed (p.fill (ep :: r :: rest))) :
    Removes (p.fill (ep :: r :: rest)) (p.fill ({ ep with reclen := ep.reclen + r.reclen } :: rest))
      r.name r.ino := by
  have hr : r.ino ≠ 0 := (tiled h).rest_used r (by simp)
  refine ⟨collapse_formed h, ?_⟩
  rw [pairs, pairs, collapse_entries, entries_fill_cons, blockEntries, if_neg hr]
  have hep : (if ep.ino = 0 then [] else [p.entry { ep with reclen := ep.reclen + r.reclen }]).map
      (fun e : HashEntry => (e.name, e.ino)) =
        (if ep.ino = 0 then [] else [p.entry ep]).map fun e => (e.name, e.ino) := by
    split <;> rfl
  simp only [map_append, map_cons, cons_append, nil_append, hep, append_assoc]
  rw [blockEntries_pairs _ (p.offset + ep.reclen + r.reclen) _ (ep.reclen + r.reclen) rest,
    ← append_assoc, ← append_assoc]
  exact perm_middle

theorem Adds.ne {d d' : List DirBlock} (h : Adds d d' name ino) : d' ≠ d := by
  rintro rfl
  have hlength := h.pairs.length_eq
  rw [length_cons] at hlength
  omega

theorem Removes.ne {d d' : List DirBlock} (h : Removes d d' name ino) : d' ≠ d := by
  rintro rfl
  have hlength := h.pairs.length_eq
  rw [length_cons] at hlength
  omega

end Pairs

namespace DirState

variable {Dev : Type} [DecidableEq Dev] (s : DirState Dev) (o : DiskOutcome Dev) (dp : Dev × ℕ)

def direnterFails (name : FileName) : Bool :=
  match s.disk dp with
  | none => false
  | some d =>
    if s.enterOffset o dp d (dirsiz name) = dirblksiz * d.blocks.length then !o.written
    else !o.blockRead

def dirremoveFails (name : FileName) : Bool :=
  match (s.load o dp 2).find dp name with
  | none => true
  | some e => e.prev ≠ 0 && !o.blockRead

structure Entered (d : Directory) (name : FileName) (ino : ℕ) (s' : DirState Dev) : Prop where
  whole : s'.wrecked = false
  updated : ∃ d', s'.disk dp = some d' ∧
    if s.direnterFails o dp name then d'.blocks = d.blocks
    else Adds d.blocks d'.blocks name ino ∧
      (NoRoom d.blocks (dirsiz name) → d'.blocks = d.blocks ++ [[⟨ino, dirblksiz, name⟩]])

structure Removed (d : Directory) (e : HashEntry) (s' : DirState Dev) : Prop where
  whole : s'.wrecked = false
  updated : ∃ d', s'.disk dp = some d' ∧
    if s.dirremoveFails o dp e.name then d'.blocks = d.blocks
    else Removes d.blocks d'.blocks e.name e.ino

def HintFits (size : ℕ) : Prop := ∃ h, s.cache dp = some h ∧ h.lastOff ≠ 0 ∧ size ≤ h.lastUnused

def EnterWorks (d : Directory) (size : ℕ) : Prop :=
  (¬ s.HintFits dp size ∧ NoRoom (readable o.spaceReads d.blocks) size ∧
      readable o.spaceReads d.blocks = d.blocks) ∨ o.blockRead = false ∨
    o.written = true ∧ (¬ s.HintFits dp size → NoRoom (readable o.spaceReads d.blocks) size →
      ∀ b ∈ d.blocks[(readable o.spaceReads d.blocks).length]?, ∀ r ∈ b.head?, size ≤ r.space)

def RemoveWorks (e : HashEntry) : Prop :=
  (s.load o dp 2).find dp e.name = some e → e.prev = 0 ∨ o.blockRead = true → o.written = true

variable {s o dp} {d : Directory} {name : FileName} {ino : ℕ} {p : Place} {r : Direct}
  {rest : List Direct}

variable (s o dp) in
theorem enterAt_room (hwf : WellFormed d.blocks) (hloc : locate d.blocks p.offset = some p)
    (hright : p.right = r :: rest) (hino : ino ≠ 0)
    (hname : name ∉ (entries d.blocks).map HashEntry.name) (hroom : dirsiz name ≤ r.space) :
    ∃ blocks, Adds d.blocks blocks name ino ∧
      (s.enterAt o dp d p.offset name ino).wrecked = s.wrecked ∧
        (s.enterAt o dp d p.offset name ino).disk =
          (if o.written then s.write dp d blocks else s).disk := by
  have hblocks : d.blocks = p.fill (r :: rest) := by
    rw [← hright]
    exact (locate_eq hloc).1.symm
  rw [hblocks] at hwf hname ⊢
  obtain ⟨before, left, right, after⟩ := p
  obtain rfl : right = r :: rest := hright
  by_cases hr : r.ino = 0
  · have hsize : dirsiz name ≤ r.reclen := by simpa [space, Direct.size, hr] using hroom
    refine ⟨_, reuse_adds hwf hr hino hname hsize, ?_⟩
    simp only [enterAt, hloc, if_pos hr, if_neg (not_lt.mpr hsize), wrecked_entered, disk_entered]
    refine ⟨?_, trivial⟩
    split <;> rfl
  · have hsize : dirsiz name ≤ r.reclen - dirsiz r.name := by
      simpa [space, Direct.size, hr] using hroom
    refine ⟨_, split_adds hwf hr hino hsize hname, ?_⟩
    simp only [enterAt, hloc, if_neg hr, if_neg (not_lt.mpr hsize), wrecked_entered, disk_entered]
    refine ⟨(wrecked_load 3).trans ?_, (disk_load 3).trans rfl⟩
    split <;> rfl

theorem enterAt_tight (hloc : locate d.blocks p.offset = some p) (hright : p.right = r :: rest)
    (hroom : ¬ dirsiz name ≤ r.space) : s.enterAt o dp d p.offset name ino = s.wreck := by
  obtain ⟨before, left, right, after⟩ := p
  obtain rfl : right = r :: rest := hright
  have hless := not_le.mp hroom
  by_cases hr : r.ino = 0
  · have hsize : r.reclen < dirsiz name := by simpa [space, Direct.size, hr] using hless
    simp only [enterAt, hloc, if_pos hr, if_pos hsize]
  · have hsize : r.reclen - dirsiz r.name < dirsiz name := by
      simpa [space, Direct.size, hr] using hless
    simp only [enterAt, hloc, if_neg hr, if_pos hsize]

inductive Looks (s : DirState Dev) (o : DiskOutcome Dev) (dp : Dev × ℕ) (d : Directory) (size : ℕ) :
    ℕ → Prop where
  | append : ¬ s.HintFits dp size → NoRoom (readable o.spaceReads d.blocks) size →
      readable o.spaceReads d.blocks = d.blocks → Looks s o dp d size (dirblksiz * d.blocks.length)
  | cut (p : Place) (r : Direct) (rest : List Direct) : ¬ s.HintFits dp size →
      NoRoom (readable o.spaceReads d.blocks) size → locate d.blocks p.offset = some p →
      p.right = r :: rest → d.blocks[(readable o.spaceReads d.blocks).length]? = some (r :: rest) →
      Looks s o dp d size p.offset
  | room (p : Place) (r : Direct) (rest : List Direct) :
      s.HintFits dp size ∨ ¬ NoRoom (readable o.spaceReads d.blocks) size →
      locate d.blocks p.offset = some p → p.right = r :: rest → size ≤ r.space →
      Looks s o dp d size p.offset

omit [DecidableEq Dev] in
theorem looks (hs : s.Settled dp) (hd : s.disk dp = some d) (size : ℕ) :
    Looks s o dp d size (s.enterOffset o dp d size) := by
  have hwf := hs.formed d hd
  by_cases hfits : s.HintFits dp size
  · obtain ⟨h, hh, hoff, hunused⟩ := hfits
    obtain ⟨d', hd', hm⟩ := hs.cached h hh
    cases hd.symm.trans hd'
    obtain ⟨p, r, rest, hloc, hright, hspace⟩ := hm.hint.resolve_left hoff
    obtain ⟨-, hoffset⟩ := locate_eq hloc
    have heq : s.enterOffset o dp d size = p.offset := by
      rw [enterOffset, hh]
      simp only
      rw [if_neg (by omega), hoffset]
    rw [heq]
    exact .room p r rest (.inl ⟨h, hh, hoff, hunused⟩) (hoffset ▸ hloc) hright (by omega)
  · have heq : s.enterOffset o dp d size = scanSpace o.spaceReads size d.blocks := by
      rw [enterOffset]
      split
      · rfl
      · next h hh =>
        rw [if_pos]
        by_contra hnot
        exact hfits ⟨h, hh, by omega, by omega⟩
    rw [heq, scanSpace]
    have hfront := readable_eq o.spaceReads d.blocks
    have htiled : ∀ b ∈ readable o.spaceReads d.blocks, Tiled b := by
      intro b hb
      rw [hfront] at hb
      exact hwf.tiled b (mem_of_mem_take hb)
    cases hfind : spaceFrom size 0 (readable o.spaceReads d.blocks) with
    | some found =>
      obtain ⟨p, r, rest, hfill, hright, rfl, hspace⟩ := spaceFrom_eq htiled hfind
      rw [getD_some, zero_add]
      have hroom : ¬ NoRoom (readable o.spaceReads d.blocks) size := by
        intro hno
        have hmem : p.left ++ r :: rest ∈ readable o.spaceReads d.blocks := by
          rw [hfill]
          exact mem_append_right _ mem_cons_self
        exact absurd hspace (not_le.mpr (hno _ hmem r (by simp)))
      obtain ⟨q, hloc, hqright, hoffset⟩ := locate_readable hwf hfill hright
      rw [← hoffset]
      exact .room q r rest (.inr hroom) hloc hqright hspace
    | none =>
      have hnone := spaceFrom_none htiled hfind
      by_cases hall : readable o.spaceReads d.blocks = d.blocks
      · rw [getD_none, hall]
        exact .append hfits hnone hall
      · have hlt : (readable o.spaceReads d.blocks).length < d.blocks.length := by
          by_contra hge
          rw [take_of_length_le (not_lt.mp hge)] at hfront
          exact hall hfront
        rw [getD_none]
        obtain ⟨q, r, rest, hloc, hright, hget, hoffset⟩ := locate_block hwf hlt
        rw [← hoffset]
        exact .cut q r rest hfits hnone hloc hright hget

theorem offset_lt {d : List DirBlock} {off : ℕ} (h : locate d off = some p) :
    off < dirblksiz * d.length := by
  have hlt : off / dirblksiz < d.length := by
    by_contra hge
    rw [locate, drop_eq_nil_of_le (not_lt.mp hge)] at h
    cases h
  have hmul := mul_le_mul_left dirblksiz (succ_le_of_lt hlt)
  have hdiv := div_add_mod off dirblksiz
  have hmod := mod_lt off (show 0 < dirblksiz by decide)
  rw [mul_succ] at hmul
  omega

section

variable (hs : s.Settled dp) (hwhole : s.wrecked = false) (hd : s.disk dp = some d) (hino : ino ≠ 0)
  (hname : name ∉ (entries d.blocks).map HashEntry.name)

include hs hwhole hd hino hname

theorem entered_room (hloc : locate d.blocks p.offset = some p) (hright : p.right = r :: rest)
    (hroom : dirsiz name ≤ r.space) (hfails : s.direnterFails o dp name = false) :
    s.Entered o dp d name ino (s.enterAt o dp d p.offset name ino) ↔ o.written = true := by
  have hwf := hs.formed d hd
  obtain ⟨blocks, hadds, hwrecked, hdisk⟩ :=
    enterAt_room s o dp hwf hloc hright hino hname hroom
  have hmem : p.left ++ r :: rest ∈ d.blocks := by
    rw [← (locate_eq hloc).1, hright]
    exact mem_append_right _ mem_cons_self
  constructor
  · intro h
    by_contra hwritten
    rw [if_neg hwritten] at hdisk
    obtain ⟨d', hd', hchange⟩ := h.updated
    rw [hdisk, hd] at hd'
    cases hd'
    rw [hfails] at hchange
    exact hchange.1.ne rfl
  · intro hwritten
    rw [if_pos hwritten] at hdisk
    refine ⟨hwrecked.trans hwhole, { d with blocks := blocks }, ?_, ?_⟩
    · rw [hdisk]
      exact disk_write d blocks
    · rw [hfails]
      exact ⟨hadds, fun hno => absurd hroom (not_le.mpr (hno _ hmem r (by simp)))⟩

theorem entered_fresh (hoff : s.enterOffset o dp d (dirsiz name) = dirblksiz * d.blocks.length) :
    s.Entered o dp d name ino (s.direnter o dp name ino) := by
  have hwf := hs.formed d hd
  have hfails : s.direnterFails o dp name = !o.written := by
    simp only [direnterFails, hd, if_pos hoff]
  simp only [direnter, hd, if_pos hoff]
  split_ifs with hwritten
  · refine ⟨?_, { d with blocks := d.blocks ++ [[⟨ino, dirblksiz, name⟩]] }, ?_, ?_⟩
    · rw [wrecked_enterCached]
      exact hwhole
    · rw [disk_enterCached]
      exact disk_write d _
    · rw [hfails, hwritten]
      exact ⟨fresh_adds hwf hino hname, fun _ => rfl⟩
  · refine ⟨hwhole, d, hd, ?_⟩
    rw [hfails, Bool.eq_false_iff.mpr hwritten]
    rfl

theorem direnter_iff :
    s.Entered o dp d name ino (s.direnter o dp name ino) ↔ s.EnterWorks o dp d (dirsiz name) := by
  have hlooks := looks (o := o) hs hd (dirsiz name)
  generalize hoff : s.enterOffset o dp d (dirsiz name) = off at hlooks
  have hread {p : Place} (hloc : locate d.blocks off = some p) (hblock : o.blockRead = true) :
      s.direnterFails o dp name = false ∧
        s.direnter o dp name ino = s.enterAt o dp d off name ino := by
    have hne := (offset_lt hloc).ne
    simp only [direnterFails, direnter, hd, hoff, if_neg hne, hblock, Bool.not_true, if_true, and_self]
  have hunread {p : Place} (hloc : locate d.blocks off = some p) (hblock : o.blockRead = false) :
      s.Entered o dp d name ino (s.direnter o dp name ino) := by
    have hne := (offset_lt hloc).ne
    have hsame : s.direnter o dp name ino = s := by
      simp only [direnter, hd, hoff, if_neg hne, hblock, Bool.false_eq_true, if_false]
    have hfails : s.direnterFails o dp name = true := by
      simp only [direnterFails, hd, hoff, if_neg hne, hblock, Bool.not_false]
    rw [hsame]
    refine ⟨hwhole, d, hd, ?_⟩
    rw [hfails]
    rfl
  cases hlooks with
  | append hfits hno hall =>
    exact iff_of_true (entered_fresh hs hwhole hd hino hname hoff) (.inl ⟨hfits, hno, hall⟩)
  | cut p r rest hfits hno hloc hright hget =>
    cases hblock : o.blockRead with
    | false => exact iff_of_true (hunread hloc hblock) (.inr (.inl hblock))
    | true =>
      obtain ⟨hfails, heq⟩ := hread hloc hblock
      rw [heq]
      have hworks : s.EnterWorks o dp d (dirsiz name) ↔ o.written = true ∧ dirsiz name ≤ r.space := by
        constructor
        · rintro (⟨-, -, hall⟩ | hfalse | ⟨hwritten, hroom⟩)
          · rw [hall, getElem?_eq_none (le_refl _)] at hget
            cases hget
          · exact absurd (hfalse.symm.trans hblock) Bool.false_ne_true
          · exact ⟨hwritten, hroom hfits hno _ hget r rfl⟩
        · rintro ⟨hwritten, hroom⟩
          refine .inr (.inr ⟨hwritten, fun _ _ b hb x hx => ?_⟩)
          cases hget.symm.trans hb
          cases hx
          exact hroom
      rw [hworks]
      by_cases hroom : dirsiz name ≤ r.space
      · rw [entered_room hs hwhole hd hino hname hloc hright hroom hfails]
        exact (and_iff_left hroom).symm
      · rw [enterAt_tight hloc hright hroom]
        exact iff_of_false (fun h => Bool.noConfusion h.whole) fun h => hroom h.2
  | room p r rest hfound hloc hright hspace =>
    cases hblock : o.blockRead with
    | false => exact iff_of_true (hunread hloc hblock) (.inr (.inl hblock))
    | true =>
      obtain ⟨hfails, heq⟩ := hread hloc hblock
      rw [heq, entered_room hs hwhole hd hino hname hloc hright hspace hfails]
      constructor
      · exact fun hwritten => .inr (.inr ⟨hwritten, fun hfits hno =>
          (hfound.elim hfits fun h => h hno).elim⟩)
      · rintro (⟨hfits, hno, -⟩ | hfalse | ⟨hwritten, -⟩)
        · exact (hfound.elim hfits fun h => h hno).elim
        · exact absurd (hfalse.symm.trans hblock) Bool.false_ne_true
        · exact hwritten

end

variable {e : HashEntry}

theorem find_loaded (hs : s.Settled dp) (hd : s.disk dp = some d)
    (he : e ∈ entries d.blocks) (n : ℕ) :
    (s.load o dp n).find dp e.name = none ∨ (s.load o dp n).find dp e.name = some e := by
  have hwf := hs.formed d hd
  have hnd := nodup_bytes hwf.names
  cases hc : s.cache dp with
  | some h =>
    obtain ⟨d', hd', hm⟩ := hs.cached h hc
    cases hd.symm.trans hd'
    rw [load_of_cached hc, find, hc, bind_some, Keyed.find_perm hm.table hnd]
    exact .inr (Keyed.find_of_mem hnd he)
  | none =>
    have hload : (s.load o dp n).cache dp =
        some ⟨0, 0, scanTable (o.reads n) d.blocks, d.stamp⟩ := by
      simp only [load, hc, hd, Function.update_self]
    rw [find, hload, bind_some]
    cases hfind : Keyed.find bytesOf e.name.val (scanTable (o.reads n) d.blocks) with
    | none => exact .inl rfl
    | some x =>
      obtain ⟨hx, hkey⟩ := Keyed.mem_of_find hfind
      have hfront := readable_eq (o.reads n) d.blocks
      have hmem : x ∈ entries d.blocks := by
        rw [scanTable, mem_reverse, scanFrom_eq fun b hb => hwf.tiled b ?_] at hx
        · rw [← take_append_drop (readable (o.reads n) d.blocks).length d.blocks, entries,
            entriesFrom_append, ← hfront]
          exact mem_append_left _ hx
        · rw [hfront] at hb
          exact mem_of_mem_take hb
      exact .inr (congrArg some (inj_on_of_nodup_map hnd hmem he hkey))

theorem removed_forget {t : DirState Dev} (blocks : List DirBlock)
    (hwhole : t.wrecked = false) (hd : s.disk dp = some d)
    (hdisk : t.disk = (if o.written then s.write dp d blocks else s).disk)
    (hremoves : Removes d.blocks blocks e.name e.ino) (hfails : s.dirremoveFails o dp e.name = false) :
    s.Removed o dp d e (t.forget dp e.name e.ino) ↔ o.written = true := by
  constructor
  · intro h
    by_contra hwritten
    rw [if_neg hwritten] at hdisk
    obtain ⟨d', hd', hchange⟩ := h.updated
    rw [disk_forget, hdisk, hd] at hd'
    cases hd'
    rw [hfails] at hchange
    exact hchange.ne rfl
  · intro hwritten
    rw [if_pos hwritten] at hdisk
    refine ⟨(wrecked_forget _).trans hwhole, { d with blocks := blocks }, ?_, ?_⟩
    · rw [disk_forget, hdisk]
      exact disk_write d blocks
    · rw [hfails]
      exact hremoves

theorem blank_eq (hloc : locate d.blocks (p.entry r).off = some p) (hright : p.right = r :: rest) :
    s.blank dp d (p.entry r) r.reclen r.name =
      s.write dp d (p.fill ({ r with ino := 0 } :: rest)) := by
  obtain ⟨before, left, right, after⟩ := p
  obtain rfl : right = r :: rest := hright
  simp only [blank, hloc]
  rfl

theorem dirremove_iff (hs : s.Settled dp) (hwhole : s.wrecked = false) (hd : s.disk dp = some d)
    (he : e ∈ entries d.blocks) (fuel : ℕ) :
    s.Removed o dp d e (DirState.dirremove o dp e.name e.reclen (fuel + 1) s) ↔
      s.RemoveWorks o dp e := by
  have hwf := hs.formed d hd
  have hd' : (s.load o dp 2).disk dp = some d := by
    rw [disk_load, hd]
  have hwhole' : (s.load o dp 2).wrecked = false := (wrecked_load 2).trans hwhole
  rcases find_loaded (o := o) hs hd he 2 with hfind | hfind
  · refine iff_of_true ?_ fun hfound => ?_
    · have hfails : s.dirremoveFails o dp e.name = true := by
        rw [dirremoveFails, hfind]
      simp only [DirState.dirremove, hfind]
      refine ⟨hwhole', d, hd', ?_⟩
      rw [hfails]
      rfl
    · rw [hfind] at hfound
      cases hfound
  · obtain ⟨p, r, rest, hblocks, hright, hr, rfl⟩ := mem_entries he
    rw [hblocks] at hwf
    have hworks : s.RemoveWorks o dp (p.entry r) ↔
        (p.prev = 0 ∨ o.blockRead = true → o.written = true) :=
      ⟨fun h => h hfind, fun h _ => h⟩
    have hfails : s.dirremoveFails o dp (p.entry r).name = (decide (p.prev ≠ 0) && !o.blockRead) := by
      rw [dirremoveFails, hfind]
      rfl
    rw [hworks]
    simp only [DirState.dirremove, hfind, hd']
    have hloc : locate d.blocks p.offset = some p := by
      rw [hblocks]
      exact locate_fill hwf hright
    by_cases hprev : p.prev = 0
    · rw [if_pos (show (p.entry r).prev = 0 from hprev)]
      have hblank : (s.load o dp 2).blank dp d (p.entry r) (p.entry r).reclen (p.entry r).name = _ :=
        blank_eq hloc hright
      rw [hblank]
      refine (removed_forget (p.fill ({ r with ino := 0 } :: rest)) ?_ hd ?_ ?_ ?_).trans
        ⟨fun h _ => h, fun h => h (.inl hprev)⟩
      · split_ifs <;> exact hwhole'
      · split_ifs
        · simp only [write, disk_load]
        · exact disk_load 2
      · rw [hblocks]
        exact blank_removes hwf hr hprev
      · rw [hfails, decide_eq_false (not_not.mpr hprev), Bool.false_and]
    · rw [if_neg (show (p.entry r).prev ≠ 0 from hprev)]
      cases hblock : o.blockRead with
      | false =>
        refine iff_of_true ⟨hwhole', d, hd', ?_⟩ fun h => ?_
        · rw [hfails, decide_eq_true hprev, hblock]
          rfl
        · exact absurd (h.resolve_left hprev) Bool.false_ne_true
      | true =>
        have hne : p.left ≠ [] := fun hnil => hprev ((prev_eq_zero hwf).mpr hnil)
        obtain ⟨q, ep, hq, hfill, hentry⟩ := exists_shift p r rest hne
        have hoff : (p.entry r).off - (p.entry r).prev = q.offset := by
          rw [hentry]
          simp only [entry, offset_shift, prev_shift, Nat.add_sub_cancel]
        have hep : ep.reclen = (p.entry r).prev := by
          rw [hentry]
          exact (prev_shift q ep).symm
        rw [hfill] at hblocks hwf
        have hqloc : locate d.blocks q.offset = some q := hblocks ▸ locate_fill hwf hq
        rw [if_pos rfl, hoff, hqloc]
        obtain ⟨before, left, right, after⟩ := q
        obtain rfl : right = ep :: r :: rest := hq
        have hreclen : r.reclen = (p.entry r).reclen := rfl
        simp only [hep, ne_eq, not_true_eq_false, if_false]
        refine (removed_forget (fill ⟨before, left, [], after⟩
          ({ ep with reclen := ep.reclen + r.reclen } :: rest)) ?_ hd ?_ ?_ ?_).trans
          ⟨fun h _ => h, fun h => h (.inr trivial)⟩
        · simp only [collapse, hreclen, ne_eq, not_true_eq_false, if_false, wrecked_tell, wrecked_grow]
          split_ifs <;> exact hwhole'
        · simp only [collapse, hreclen, ne_eq, not_true_eq_false, if_false, disk_tell, disk_grow]
          split_ifs
          · simp only [write, disk_load]
          · exact disk_load 2
        · rw [hblocks]
          exact collapse_removes hwf
        · rw [hfails, hblock, Bool.not_true, Bool.and_false]

end DirState

end MachUS.Ufs
