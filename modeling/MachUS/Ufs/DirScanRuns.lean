import MachUS.Ufs.DirScan

namespace MachUS.Ufs

open Int ScanBuffer Option ScanProgress ScanState ScanFs

namespace ScanFs

variable (fs : ScanFs)

theorem bsize_pos : 0 < fs.bsize := pow_pos (by decide) _

theorem direntBlock_dvd : direntBlock ∣ fs.bsize :=
  pow_dvd_pow (2 : ℤ) (fs.sectors.trans fs.fragments)

theorem bsize_dvd : fs.bsize ∣ 2 ^ 31 := pow_dvd_pow (2 : ℤ) (fs.maxbsize.trans (by decide))

theorem blkoff_range (loc : ℤ) : 0 ≤ fs.blkoff loc ∧ fs.blkoff loc < fs.bsize :=
  ⟨emod_nonneg loc fs.bsize_pos.ne', emod_lt_of_pos loc fs.bsize_pos⟩

theorem loc_eq (loc : ℤ) : fs.lblkno loc * fs.bsize + fs.blkoff loc = loc := by
  rw [Int.mul_comm]
  exact mul_ediv_add_emod loc fs.bsize

theorem lblkno_neg {loc : ℤ} (h : loc < 0) : fs.lblkno loc < 0 := ediv_neg_of_neg_of_pos h fs.bsize_pos

theorem lblkno_nonneg {loc : ℤ} (h : 0 ≤ loc) : 0 ≤ fs.lblkno loc := ediv_nonneg h fs.bsize_pos.le

theorem blockEnd_le {loc : ℤ} (h : loc < 2 ^ 31) : (fs.lblkno loc + 1) * fs.bsize ≤ 2 ^ 31 := by
  obtain ⟨n, hn⟩ := fs.bsize_dvd
  have hlt : fs.lblkno loc < n := by
    refine Int.ediv_lt_of_lt_mul fs.bsize_pos ?_
    rw [Int.mul_comm, ← hn]
    exact h
  rw [hn, Int.mul_comm]
  exact mul_le_mul_of_nonneg_left hlt fs.bsize_pos.le

theorem blkoff_boundary (k : ℤ) : fs.blkoff (offT (k * fs.bsize)) = 0 := by
  have hdvd : fs.bsize ∣ 2 ^ 32 := fs.bsize_dvd.trans ⟨2, by decide⟩
  refine emod_eq_zero_of_dvd ?_
  obtain ⟨n, hn⟩ : ((2 ^ 32 : ℕ) : ℤ) ∣ k * fs.bsize - offT (k * fs.bsize) := dvd_self_sub_bmod
  have hoff : offT (k * fs.bsize) = k * fs.bsize - 2 ^ 32 * n := by
    push_cast at hn
    omega
  rw [hoff]
  exact Int.dvd_sub (Int.dvd_mul_left k _) (hdvd.mul_right n)

variable {fs} {cur delta : ℤ}

theorem within_lblkno (h : fs.blkoff cur + delta < fs.bsize) (hpos : 0 ≤ delta) :
    fs.lblkno (cur + delta) = fs.lblkno cur ∧ fs.blkoff (cur + delta) = fs.blkoff cur + delta := by
  have hoff := (fs.blkoff_range cur).1
  have heq : cur + delta = fs.blkoff cur + delta + fs.lblkno cur * fs.bsize := by
    have := fs.loc_eq cur
    omega
  constructor
  · unfold lblkno at heq ⊢
    rw [heq, add_mul_ediv_right _ _ fs.bsize_pos.ne', ediv_eq_zero_of_lt (by omega) h, zero_add]
  · rw [heq]
    unfold blkoff at *
    rw [add_mul_emod_self_right, emod_eq_of_lt (by omega) h]

theorem skip_le (cur : ℤ) : fs.blkoff cur + (direntBlock - cur % direntBlock) ≤ fs.bsize := by
  obtain ⟨n, hn⟩ := fs.direntBlock_dvd
  have hmod : fs.blkoff cur % direntBlock = cur % direntBlock :=
    emod_emod_of_dvd cur fs.direntBlock_dvd
  have hlt := (fs.blkoff_range cur).2
  simp only [direntBlock] at *
  omega

theorem skip_pos (cur : ℤ) : 0 < direntBlock - cur % direntBlock ∧
    direntBlock - cur % direntBlock < 2 ^ 16 := by
  simp only [direntBlock]
  omega

end ScanFs

namespace ScanInode

variable {d : ScanInode} {w : ScanWorld} {spaceNeeded cur delta : ℤ}

theorem keeps_iff (hcur : 0 ≤ cur) (hlt : cur < 2 ^ 31) (hpos : 0 < delta) (hdelta : delta < 2 ^ 16) :
    d.Keeps cur (offT (cur + delta)) ↔ d.fs.blkoff cur + delta ≤ d.fs.bsize := by
  have hend := d.fs.blockEnd_le hlt
  have hloc := d.fs.loc_eq cur
  have hblock := d.fs.bsize_pos
  have hstart : (d.fs.lblkno cur + 1) * d.fs.bsize = d.fs.lblkno cur * d.fs.bsize + d.fs.bsize := by
    rw [add_mul, one_mul]
  have hnonneg : 0 ≤ d.fs.lblkno cur * d.fs.bsize :=
    mul_nonneg (d.fs.lblkno_nonneg hcur) hblock.le
  constructor
  · intro hkeeps
    by_contra hover
    by_cases hwrap : cur + delta < 2 ^ 31
    · rw [offT_of_lt (by omega) hwrap] at hkeeps
      rcases hkeeps with hsame | hnext
      · have hnew := d.fs.loc_eq (cur + delta)
        have hrange := d.fs.blkoff_range (cur + delta)
        rw [hsame] at hnew
        omega
      · rw [hstart, offT_of_lt (by omega) (by omega)] at hnext
        omega
    · rw [offT_wraps (by omega) (by omega)] at hkeeps
      rcases hkeeps with hsame | hnext
      · have hneg := @lblkno_neg d.fs (cur + delta - 2 ^ 32) (by omega)
        have := d.fs.lblkno_nonneg hcur
        omega
      · rcases hend.lt_or_eq with hend | hend
        · rw [offT_of_lt (by omega) hend] at hnext
          omega
        · rw [hend, offT_wraps (by omega) (by omega)] at hnext
          omega
  · intro hle
    rcases hle.lt_or_eq with hlt' | heq
    · left
      rw [offT_of_lt (by omega) (by omega)]
      exact (within_lblkno hlt' hpos.le).1
    · right
      congr 1
      omega

structure Placed (d : ScanInode) (spaceNeeded : ℤ) (s : ScanState) : Prop where
  reached : d.Reached spaceNeeded s.curOffset
  range : -2 ^ 31 ≤ s.curOffset ∧ s.curOffset < 2 ^ 31
  held : d.fs.blkoff s.curOffset = 0 ∨
    d.blkatoff s.curOffset = some s.buffer ∧ s.offsetInBlock = d.fs.blkoff s.curOffset

structure Fetched (d : ScanInode) (spaceNeeded : ℤ) (s : ScanState) : Prop where
  reached : d.Reached spaceNeeded s.curOffset
  range : 0 ≤ s.curOffset ∧ s.curOffset < 2 ^ 31
  block : d.blkatoff s.curOffset = some s.buffer
  offset : s.offsetInBlock = d.fs.blkoff s.curOffset

variable {s t : ScanState}

theorem Placed.fetched (h : d.Placed spaceNeeded s) (hfetch : d.fetch s = some t) :
    d.Fetched spaceNeeded t ∧ t.curOffset = s.curOffset := by
  have hpos {b : ScanBuffer} (hb : d.blkatoff s.curOffset = some b) : 0 ≤ s.curOffset := by
    by_contra hneg
    rw [blkatoff, if_pos (d.fs.lblkno_neg (not_le.mp hneg))] at hb
    cases hb
  unfold fetch at hfetch
  split_ifs at hfetch with hzero
  · obtain ⟨b, hb, rfl⟩ := map_eq_some_iff.mp hfetch
    exact ⟨⟨h.reached, ⟨hpos hb, h.range.2⟩, hb, hzero.symm⟩, rfl⟩
  · cases hfetch
    obtain ⟨hb, hoff⟩ := h.held.resolve_left hzero
    exact ⟨⟨h.reached, ⟨hpos hb, h.range.2⟩, hb, hoff⟩, rfl⟩

theorem blkatoff_of_fetch (hfetch : d.fetch s = none) : d.blkatoff s.curOffset = none := by
  unfold fetch at hfetch
  split_ifs at hfetch
  exact map_eq_none_iff.mp hfetch

theorem Placed.fetch (h : d.Placed spaceNeeded s) {b : ScanBuffer}
    (hb : d.blkatoff s.curOffset = some b) : ∃ t, d.fetch s = some t ∧ t.buffer = b := by
  cases hfetch : d.fetch s with
  | none =>
    rw [blkatoff_of_fetch hfetch] at hb
    cases hb
  | some t =>
    obtain ⟨ht, hcur⟩ := h.fetched hfetch
    have hblock := ht.block
    rw [hcur, hb] at hblock
    exact ⟨t, rfl, (some.inj hblock).symm⟩

theorem Fetched.placed (h : d.Fetched spaceNeeded s) (hpos : 0 < delta) (hdelta : delta < 2 ^ 16)
    (hle : d.fs.blkoff s.curOffset + delta ≤ d.fs.bsize)
    (hcur : t.curOffset = offT (s.curOffset + delta))
    (hoff : t.offsetInBlock = offT (s.offsetInBlock + delta)) (hbuffer : t.buffer = s.buffer)
    (hreached : d.Reached spaceNeeded t.curOffset) : d.Placed spaceNeeded t := by
  obtain ⟨h0, hlt⟩ := h.range
  have hrange : -2 ^ 31 ≤ t.curOffset ∧ t.curOffset < 2 ^ 31 := by
    rw [hcur]
    by_cases hwrap : s.curOffset + delta < 2 ^ 31
    · rw [offT_of_lt (by omega) hwrap]
      omega
    · rw [offT_wraps (by omega) (by omega)]
      omega
  refine ⟨hreached, hrange, ?_⟩
  rcases hle.lt_or_eq with hin | hend
  · right
    have hblock := d.fs.blockEnd_le hlt
    have hloc := d.fs.loc_eq s.curOffset
    rw [add_mul, one_mul] at hblock
    have hnn := (d.fs.blkoff_range s.curOffset).1
    have hmul : 0 ≤ d.fs.lblkno s.curOffset * d.fs.bsize :=
      mul_nonneg (d.fs.lblkno_nonneg h0) d.fs.bsize_pos.le
    obtain ⟨hsame, hshift⟩ := within_lblkno hin hpos.le
    rw [hcur, offT_of_lt (by omega) (by omega), hoff, h.offset, offT_of_lt (by omega) (by omega), hbuffer]
    refine ⟨?_, hshift.symm⟩
    rw [← h.block]
    unfold blkatoff
    rw [hsame]
  · left
    have hloc := d.fs.loc_eq s.curOffset
    have heq : s.curOffset + delta = (d.fs.lblkno s.curOffset + 1) * d.fs.bsize := by
      rw [add_mul, one_mul]
      omega
    rw [hcur, heq]
    exact d.fs.blkoff_boundary _

theorem look_blank (hzero : s.buffer.reclen s.offsetInBlock = 0) :
    s.look w spaceNeeded = .scanning s.skip := by
  rw [look, if_pos hzero]

theorem look_record (hlen : s.buffer.reclen s.offsetInBlock ≠ 0)
    (hroom : ¬ s.buffer.Room s.offsetInBlock spaceNeeded)
    (halloc : s.buffer.Enters s.offsetInBlock spaceNeeded → w.allocates s.curOffset = true) :
    s.look w spaceNeeded = .scanning s.advance := by
  rw [look, if_neg hlen]
  by_cases henters : s.buffer.Enters s.offsetInBlock spaceNeeded
  · rw [if_pos henters, if_pos (halloc henters)]
  · rw [if_neg henters, if_neg hroom]

theorem look_scanning (h : s.look w spaceNeeded = .scanning t) :
    s.buffer.reclen s.offsetInBlock = 0 ∧ t = s.skip ∨
      s.buffer.reclen s.offsetInBlock ≠ 0 ∧ ¬ s.buffer.Room s.offsetInBlock spaceNeeded ∧
        t = s.advance := by
  unfold look at h
  split_ifs at h with hzero henters halloc hroom
  · exact .inl ⟨hzero, (scanning.inj h).symm⟩
  · refine .inr ⟨hzero, fun hroom => ?_, (scanning.inj h).symm⟩
    have := hroom.1
    have := henters.2.2
    omega
  · exact .inr ⟨hzero, hroom, (scanning.inj h).symm⟩

theorem look_waiting (h : s.look w spaceNeeded = .waiting) :
    s.buffer.reclen s.offsetInBlock ≠ 0 ∧ s.buffer.Enters s.offsetInBlock spaceNeeded ∧
      w.allocates s.curOffset = false := by
  unfold look at h
  split_ifs at h with hzero henters halloc
  exact ⟨hzero, henters, Bool.eq_false_iff.mpr halloc⟩

theorem Fetched.moves (h : d.Fetched spaceNeeded s) (hlast : s.curOffset < d.lastOffset)
    (hlook : s.look w spaceNeeded = .scanning t) : ∃ delta, 0 < delta ∧ delta < 2 ^ 16 ∧
      t.curOffset = offT (s.curOffset + delta) ∧ t.offsetInBlock = offT (s.offsetInBlock + delta) ∧
        t.buffer = s.buffer ∧ d.Reached spaceNeeded t.curOffset ∧
          (s.buffer.reclen s.offsetInBlock = 0 ∧ delta = direntBlock - s.curOffset % direntBlock ∨
            s.buffer.reclen s.offsetInBlock ≠ 0 ∧ ¬ s.buffer.Room s.offsetInBlock spaceNeeded ∧
              delta = s.buffer.reclen s.offsetInBlock) := by
  have hrange := s.buffer.reclen_range (o := s.offsetInBlock)
  rcases look_scanning hlook with ⟨hzero, rfl⟩ | ⟨hlen, hroom, rfl⟩
  · have hmod : s.offsetInBlock % direntBlock = s.curOffset % direntBlock := by
      rw [h.offset]
      exact emod_emod_of_dvd _ d.fs.direntBlock_dvd
    refine ⟨_, (skip_pos s.curOffset).1, (skip_pos s.curOffset).2, rfl, ?_, rfl, ?_,
      .inl ⟨hzero, rfl⟩⟩
    · rw [← hmod]
      rfl
    · exact .blank h.reached hlast h.block (h.offset ▸ hzero)
  · refine ⟨_, by omega, hrange.2, rfl, rfl, rfl, ?_, .inr ⟨hlen, hroom, rfl⟩⟩
    have hnext := Reached.record h.reached hlast h.block (h.offset ▸ hlen) (h.offset ▸ hroom)
    rw [← h.offset] at hnext
    exact hnext

theorem RecordOk.room {o offset : ℤ} {b : ScanBuffer} (h : d.RecordOk w spaceNeeded offset o b)
    (hlen : b.reclen o ≠ 0) (henters : b.Enters o spaceNeeded) :
    dname o + (b.copystr (dname o) (b.namlen o)).length ≤ b.count := by
  refine (copystr_within (h.body hlen)).mpr ?_
  rcases h.name hlen henters with hnul | ⟨-, hle⟩
  · exact .inr hnul
  · exact .inl hle

section

variable (h : d.Fetched spaceNeeded s) (hlast : s.curOffset < d.lastOffset)

include h hlast

theorem Fetched.safeTurn_iff : d.SafeTurn w spaceNeeded s ∧ s.look w spaceNeeded ≠ .waiting ↔
      d.RecordOk w spaceNeeded s.curOffset s.offsetInBlock s.buffer := by
  have ho : 0 ≤ s.offsetInBlock := h.offset ▸ (d.fs.blkoff_range s.curOffset).1
  constructor
  · rintro ⟨hsafe, hreturns⟩
    have halloc (hlen : s.buffer.reclen s.offsetInBlock ≠ 0)
        (henters : s.buffer.Enters s.offsetInBlock spaceNeeded) : w.allocates s.curOffset = true := by
      by_contra hnot
      exact hreturns (by rw [look, if_neg hlen, if_pos henters, if_neg hnot])
    have hbody (hlen : s.buffer.reclen s.offsetInBlock ≠ 0) : s.offsetInBlock + 8 ≤ s.buffer.count := by
      have := (hsafe.inside (s.offsetInBlock + 7) (.inr ⟨hlen, .inl (by omega)⟩)).2
      omega
    refine ⟨?_, hbody, fun hlen hroom => ?_, halloc, fun hlen henters => ?_, fun hlen henters => ?_⟩
    · have := (hsafe.inside (s.offsetInBlock + 5) (.inl (by omega))).2
      omega
    · have hlook := look_record hlen hroom (halloc hlen)
      have hrange := s.buffer.reclen_range (o := s.offsetInBlock)
      have hkeeps := (keeps_iff h.range.1 h.range.2 (by omega) hrange.2).mp (hsafe.keeps _ hlook)
      rw [← h.offset] at hkeeps
      exact hkeeps
    · exact nameElement_iff.mp (hsafe.fits _ ⟨hlen, henters, rfl⟩).1
    · have hread (j : ℤ) := fun hj => (hsafe.inside j (.inr ⟨hlen, .inr ⟨henters, halloc hlen henters, hj⟩⟩)).2
      cases hlisted : w.listed s.curOffset with
      | true =>
        exact .inl ((hashed_within (hbody hlen)).mp fun j hj => hread j (.inr ⟨hlisted, hj⟩))
      | false =>
        have hcopied : dname s.offsetInBlock + s.directoryFileEnter.name.length ≤
            s.buffer.count := by
          have hstart : dname s.offsetInBlock ≤ s.buffer.count := hbody hlen
          by_contra hover
          have := hread s.buffer.count (.inl ⟨hstart, by omega⟩)
          omega
        rcases (copystr_within (hbody hlen)).mp hcopied with hle | hnul
        · exact .inr ⟨rfl, hle⟩
        · exact .inl hnul
  · intro hok
    refine ⟨⟨fun j hj => ?_, ?_, fun t hlook => ?_⟩, fun hwaits => ?_⟩
    · rcases hj with hj | ⟨hlen, hj | ⟨henters, -, hj | ⟨hlisted, hj⟩⟩⟩
      · have := hok.header
        omega
      · have := hok.body hlen
        omega
      · have hcopied := hok.room hlen henters
        obtain ⟨hle, hlt⟩ := hj
        refine ⟨?_, lt_of_lt_of_le hlt hcopied⟩
        unfold dname at hle
        omega
      · have hnul := (hok.name hlen henters).resolve_right fun hno => by
          rw [hlisted] at hno
          cases hno.1
        refine ⟨?_, (hashed_within (hok.body hlen)).mpr hnul j hj⟩
        have hle := hj.1
        unfold dname at hle
        omega
    · rintro e ⟨hlen, henters, rfl⟩
      have hfits := nameElement_iff.mpr (hok.namlen hlen henters)
      refine ⟨hfits, le_trans ?_ hfits⟩
      exact ofNat_le.mpr (s.buffer.copystr_le _ _)
    · obtain ⟨delta, hpos, hdelta, hcur, -, -, -, hcase⟩ := h.moves hlast hlook
      rw [hcur]
      refine (keeps_iff h.range.1 h.range.2 hpos hdelta).mpr ?_
      rcases hcase with ⟨-, rfl⟩ | ⟨hlen, hroom, rfl⟩
      · exact skip_le s.curOffset
      · rw [← h.offset]
        exact hok.length hlen hroom
    · obtain ⟨hlen, henters, hno⟩ := look_waiting hwaits
      rw [hok.allocates hlen henters] at hno
      cases hno

theorem Fetched.next (hok : d.RecordOk w spaceNeeded s.curOffset s.offsetInBlock s.buffer)
    (hlook : s.look w spaceNeeded = .scanning t) :
    d.Placed spaceNeeded t ∧ (s.curOffset < t.curOffset ∨ t.curOffset < 0) := by
  obtain ⟨delta, hpos, hdelta, hcur, hoff, hbuffer, hreached, hcase⟩ := h.moves hlast hlook
  have hle : d.fs.blkoff s.curOffset + delta ≤ d.fs.bsize := by
    rcases hcase with ⟨-, rfl⟩ | ⟨hlen, hroom, rfl⟩
    · exact skip_le s.curOffset
    · rw [← h.offset]
      exact hok.length hlen hroom
  refine ⟨h.placed hpos hdelta hle hcur hoff hbuffer hreached, ?_⟩
  obtain ⟨h0, hlt⟩ := h.range
  rw [hcur]
  by_cases hwrap : s.curOffset + delta < 2 ^ 31
  · rw [offT_of_lt (by omega) hwrap]
    omega
  · rw [offT_wraps (by omega) (by omega)]
    omega

end

theorem directoryScan_start (htable : w.tableAllocates = true) :
    d.directoryScan w spaceNeeded 0 = .scanning ⟨0, 0, 0, .null d.order⟩ := if_pos htable

theorem placed_start : d.Placed spaceNeeded ⟨0, 0, 0, .null d.order⟩ :=
  ⟨.start, show -2 ^ 31 ≤ (0 : ℤ) ∧ (0 : ℤ) < 2 ^ 31 by decide, .inl (zero_emod _)⟩

section

variable (h : d.Chained w spaceNeeded)

include h

theorem Chained.turn (hs : d.Placed spaceNeeded s) :
    (∃ offset, d.turn w spaceNeeded s = .returned offset) ∨
      ∃ t, d.turn w spaceNeeded s = .scanning t ∧ d.Placed spaceNeeded t ∧ 0 ≤ s.curOffset ∧
        (s.curOffset < t.curOffset ∨ t.curOffset < 0) := by
  unfold ScanInode.turn
  by_cases hlast : s.curOffset < d.lastOffset
  · rw [if_pos hlast]
    cases hfetch : d.fetch s with
    | none => exact .inl ⟨_, rfl⟩
    | some t =>
      obtain ⟨ht, hcur⟩ := hs.fetched hfetch
      rw [← hcur] at hlast ⊢
      have hok := h.records t.curOffset t.buffer ht.reached hlast ht.block
      rw [← ht.offset] at hok
      have hreturns := ((ht.safeTurn_iff hlast).mpr hok).2
      cases hlook : t.look w spaceNeeded with
      | scanning u =>
        obtain ⟨hu, hmoved⟩ := ht.next hlast hok hlook
        exact .inr ⟨u, hlook, hu, ht.range.1, hmoved⟩
      | returned offset => exact .inl ⟨offset, hlook⟩
      | waiting => exact absurd hlook hreturns
  · exact .inl ⟨_, if_neg hlast⟩

theorem Chained.run (k : ℕ) : (∃ offset, d.directoryScan w spaceNeeded k = .returned offset) ∨
      ∃ s, d.directoryScan w spaceNeeded k = .scanning s ∧ d.Placed spaceNeeded s ∧
        (k ≤ s.curOffset ∨ s.curOffset < 0) := by
  induction k with
  | zero => exact .inr ⟨_, directoryScan_start h.table, placed_start, .inl (le_refl _)⟩
  | succ k ih =>
    rw [directoryScan]
    rcases ih with ⟨offset, hk⟩ | ⟨s, hk, hs, hgone⟩
    · rw [hk]
      exact .inl ⟨offset, rfl⟩
    · rw [hk]
      rcases h.turn hs with hdone | ⟨t, ht, hplaced, h0, hmoved⟩
      · exact .inl hdone
      · exact .inr ⟨t, ht, hplaced, by omega⟩

theorem Chained.terminates : ∃ k offset, d.directoryScan w spaceNeeded k = .returned offset := by
  rcases h.run (2 ^ 31) with hdone | ⟨s, hs, hplaced, hgone⟩
  · exact ⟨_, hdone⟩
  · rcases h.turn hplaced with ⟨offset, hdone⟩ | ⟨t, -, -, h0, -⟩
    · refine ⟨2 ^ 31 + 1, offset, ?_⟩
      rw [directoryScan, hs]
      exact hdone
    · have := hplaced.range.2
      omega

theorem Chained.robust : d.Robust w spaceNeeded := by
  refine ⟨h.terminates, fun k s t hk hlast hfetch => ?_⟩
  rcases h.run k with ⟨offset, hdone⟩ | ⟨s', hk', hplaced, -⟩
  · rw [hdone] at hk
    cases hk
  · obtain rfl := scanning.inj (hk'.symm.trans hk)
    obtain ⟨ht, hcur⟩ := hplaced.fetched hfetch
    rw [← hcur] at hlast
    have hok := h.records t.curOffset t.buffer ht.reached hlast ht.block
    rw [← ht.offset] at hok
    exact ((ht.safeTurn_iff hlast).mpr hok).1

end

theorem directoryScan_rest {k : ℕ} {p : ScanProgress} (h : d.directoryScan w spaceNeeded k = p)
    (hrest : ∀ s, p ≠ .scanning s) (n : ℕ) : d.directoryScan w spaceNeeded (k + n) = p := by
  induction n with
  | zero => exact h
  | succ n ih =>
    rw [← Nat.add_assoc, directoryScan, ih]
    cases p with
    | scanning s => exact absurd rfl (hrest s)
    | returned _ => rfl
    | waiting => rfl

theorem Robust.returns (h : d.Robust w spaceNeeded) (k : ℕ) :
    d.directoryScan w spaceNeeded k ≠ .waiting := by
  intro hwaits
  obtain ⟨j, offset, hreturned⟩ := h.terminates
  have hw := directoryScan_rest hwaits (fun s hs => by cases hs) j
  have hr := directoryScan_rest hreturned (fun s hs => by cases hs) k
  rw [Nat.add_comm, hr] at hw
  cases hw

theorem Robust.looks (h : d.Robust w spaceNeeded) {offset : ℤ} {b : ScanBuffer} {k : ℕ}
    (hk : d.directoryScan w spaceNeeded k = .scanning s) (hplaced : d.Placed spaceNeeded s)
    (hcur : s.curOffset = offset) (hlast : offset < d.lastOffset) (hb : d.blkatoff offset = some b) :
    ∃ t, d.Fetched spaceNeeded t ∧ t.curOffset = offset ∧ t.buffer = b ∧
      d.RecordOk w spaceNeeded t.curOffset t.offsetInBlock t.buffer ∧
        d.directoryScan w spaceNeeded (k + 1) = t.look w spaceNeeded := by
  subst hcur
  obtain ⟨t, hfetch, rfl⟩ := hplaced.fetch hb
  obtain ⟨ht, hcur⟩ := hplaced.fetched hfetch
  have hsafe := h.safe k s t hk hlast hfetch
  have hturn : d.directoryScan w spaceNeeded (k + 1) = t.look w spaceNeeded := by
    rw [directoryScan, hk]
    simp only [ScanInode.turn, if_pos hlast, hfetch]
  rw [← hcur] at hlast
  exact ⟨t, ht, hcur, rfl, (ht.safeTurn_iff hlast).mp ⟨hsafe, hturn ▸ h.returns (k + 1)⟩, hturn⟩

theorem Robust.reaches (h : d.Robust w spaceNeeded) {offset : ℤ} (hr : d.Reached spaceNeeded offset) :
    ∃ k s, d.directoryScan w spaceNeeded k = .scanning s ∧ d.Placed spaceNeeded s ∧
      s.curOffset = offset := by
  induction hr with
  | start =>
    cases htable : w.tableAllocates with
    | true => exact ⟨0, _, directoryScan_start htable, placed_start, rfl⟩
    | false => exact absurd (by rw [directoryScan, htable]; rfl) (h.returns 0)
  | blank hr hlast hb hzero ih =>
    obtain ⟨k, s, hk, hplaced, hcur⟩ := ih
    obtain ⟨t, ht, hcur, rfl, hok, hturn⟩ := h.looks hk hplaced hcur hlast hb
    rw [← hcur, ← ht.offset] at hzero
    have hlook : t.look w spaceNeeded = .scanning t.skip := look_blank hzero
    refine ⟨k + 1, t.skip, hturn.trans hlook, (ht.next (hcur ▸ hlast) hok hlook).1, ?_⟩
    rw [← hcur]
    rfl
  | record hr hlast hb hlen hroom ih =>
    obtain ⟨k, s, hk, hplaced, hcur⟩ := ih
    obtain ⟨t, ht, hcur, rfl, hok, hturn⟩ := h.looks hk hplaced hcur hlast hb
    rw [← hcur, ← ht.offset] at hlen hroom
    have hlook := look_record hlen hroom (hok.allocates hlen)
    refine ⟨k + 1, t.advance, hturn.trans hlook, (ht.next (hcur ▸ hlast) hok hlook).1, ?_⟩
    rw [← hcur, ← ht.offset]
    rfl

theorem directoryScan_robust_iff (d : ScanInode) (w : ScanWorld) (spaceNeeded : ℤ) :
    d.Robust w spaceNeeded ↔ d.Chained w spaceNeeded := by
  refine ⟨fun h => ⟨?_, fun offset b hr hlast hb => ?_⟩, Chained.robust⟩
  · by_contra hno
    exact h.returns 0 (if_neg hno)
  · obtain ⟨k, s, hk, hplaced, hcur⟩ := h.reaches hr
    obtain ⟨t, ht, rfl, rfl, hok, -⟩ := h.looks hk hplaced hcur hlast hb
    rw [← ht.offset]
    exact hok

def sample (size : ℕ) (reclen namlen : UInt8 × UInt8) (hsize : size < 2 ^ 31) : ScanInode where
  fs := ⟨12, 10, by decide, by decide, by decide⟩
  order := .little
  size := size
  block _ := some fun j =>
    [4, 0, 0, 0, 12, 0, 1, 0, 0x2e, 0, 0, 0,
      4, 0, 0, 0, reclen.1, reclen.2, namlen.1, namlen.2, 0x2e, 0x2e, 0].getD j.toNat 0x61
  sized := by omega

def calm : ScanWorld := ⟨true, fun _ => true, fun _ => true⟩

theorem long_record_leaves_buffer : ¬ (sample 8192 (0x88, 0x13) (2, 0) (by decide)).Robust calm 0 := by
  intro h
  have hsafe := h.safe 2 _ _ rfl (by decide) rfl
  have hinside := (hsafe.inside 5016 (.inl (by decide))).2
  cases hinside

theorem home_robust : (sample 512 (0xf4, 1) (2, 0) (by decide)).Robust calm 0 := by
  refine (directoryScan_robust_iff _ _ _).mpr ⟨rfl, ?_⟩
  have hat {offset : ℤ} (h : (sample 512 (0xf4, 1) (2, 0) (by decide)).Reached 0 offset) :
      offset = 0 ∨ offset = 12 ∨ offset = 512 := by
    induction h with
    | start => exact .inl rfl
    | blank h hlast hb hzero ih =>
      rcases ih with rfl | rfl | rfl
      · cases hb
        cases hzero
      · cases hb
        cases hzero
      · cases hlast
    | record h hlast hb hlen hroom ih =>
      rcases ih with rfl | rfl | rfl
      · cases hb
        exact .inr (.inl (by decide))
      · cases hb
        exact .inr (.inr (by decide))
      · cases hlast
  intro offset b hr hlast hb
  rcases hat hr with rfl | rfl | rfl
  · cases hb
    exact ⟨by decide, by decide, by decide, by decide, by decide, fun _ _ => .inl ⟨9, by decide, by decide, by decide⟩⟩
  · cases hb
    exact ⟨by decide, by decide, by decide, by decide, by decide, fun _ _ => .inl ⟨22, by decide, by decide, by decide⟩⟩
  · cases hlast

end ScanInode

end MachUS.Ufs
