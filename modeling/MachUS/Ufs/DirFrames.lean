import MachUS.Ufs.DirRuns

namespace MachUS.Ufs

open DirState Or List

def DirCall.dir {Dev : Type} : DirCall Dev → Option (Dev × ℕ)
  | .lookup dp _ | .direnter dp _ _ | .dirremove dp _ | .dirrewrite dp _ _ => some dp
  | .inval _ => none

namespace DirState

variable {Dev : Type} [DecidableEq Dev] {s s' : DirState Dev} {o : DiskOutcome Dev}
  {dp k : Dev × ℕ} {d : Directory} {name : FileName}

omit [DecidableEq Dev] in
theorem aside_wreck (s : DirState Dev) (dp : Dev × ℕ) : Aside dp s s.wreck :=
  ⟨fun _ _ => rfl, fun _ _ => inl rfl⟩

theorem aside_writeIf (s : DirState Dev) (b : Bool) (dp : Dev × ℕ) (d : Directory)
    (blocks : List DirBlock) : Aside dp s (if b then s.write dp d blocks else s) := by
  split
  · exact aside_write s dp d blocks
  · exact .refl dp s

theorem aside_namei (s : DirState Dev) (o : DiskOutcome Dev) (dp : Dev × ℕ) (name : FileName) :
    Aside dp s (s.namei o dp name).1 :=
  (aside_load s o dp 0).trans (aside_evict _ _ dp)

theorem aside_enterAt (s : DirState Dev) (o : DiskOutcome Dev) (dp : Dev × ℕ) (d : Directory)
    (off : ℕ) (name : FileName) (ino : ℕ) : Aside dp s (s.enterAt o dp d off name ino) := by
  rw [enterAt]
  split
  · dsimp only
    split_ifs
    · exact aside_wreck s dp
    · exact (aside_write s dp d _).trans (aside_entered _ o dp _ _ _ _ _ _ _)
    · exact aside_entered s o dp _ _ _ _ _ _ _
    · exact aside_wreck s dp
    · exact (aside_write s dp d _).trans ((aside_load _ o dp 3).trans
        ((aside_setHash _ dp _).trans (aside_entered _ o dp _ _ _ _ _ _ _)))
    · exact (aside_load s o dp 3).trans
        ((aside_setHash _ dp _).trans (aside_entered _ o dp _ _ _ _ _ _ _))
  · exact aside_wreck s dp

theorem aside_direnter (s : DirState Dev) (o : DiskOutcome Dev) (dp : Dev × ℕ) (name : FileName)
    (ino : ℕ) : Aside dp s (s.direnter o dp name ino) := by
  rw [direnter]
  split
  · exact .refl dp s
  · dsimp only
    split_ifs
    · exact (aside_write s dp _ _).trans ((aside_setHash _ dp _).trans (aside_enterCached _ o dp _))
    · exact aside_dirRemove s dp dp
    · exact aside_enterAt s o dp _ _ name ino
    · exact .refl dp s

theorem aside_blank (s : DirState Dev) (dp : Dev × ℕ) (d : Directory) (e : HashEntry) (reclen : ℕ)
    (name : FileName) : Aside dp s (s.blank dp d e reclen name) := by
  rw [blank]
  split
  · exact aside_write s dp d _
  · exact aside_wreck s dp

theorem aside_collapse (s : DirState Dev) (o : DiskOutcome Dev) (dp : Dev × ℕ) (d : Directory)
    (p : Place) (ep r : Direct) (rest : List Direct) (e : HashEntry) :
    Aside dp s (s.collapse o dp d p ep r rest e) := by
  rw [collapse]
  split
  · exact aside_wreck s dp
  · exact (aside_writeIf s o.written dp d _).trans ((aside_grow _ o dp ep _).trans
      (aside_tell _ o dp 4 _ _))

theorem aside_dirremove (o : DiskOutcome Dev) (dp : Dev × ℕ) (name : FileName) (reclen fuel : ℕ)
    (s : DirState Dev) : Aside dp s (dirremove o dp name reclen fuel s) := by
  induction fuel generalizing s with
  | zero => exact aside_wreck s dp
  | succ fuel ih =>
    refine (aside_load s o dp 2).trans ?_
    rw [dirremove]
    generalize s.load o dp 2 = s
    split
    · split_ifs
      · exact (aside_blank s dp _ _ reclen name).trans (aside_forget _ dp name _)
      · exact aside_forget s dp name _
      · split
        · split_ifs
          · exact (aside_dirRemove s dp dp).trans (ih _)
          · split
            · exact aside_wreck s dp
            · exact (aside_collapse s o dp _ _ _ _ _ _).trans (aside_forget _ dp name _)
        · exact aside_wreck s dp
      · exact .refl dp s
    · exact .refl dp s

theorem aside_amend (s : DirState Dev) (dp : Dev × ℕ) (name : Bytes) (f : HashEntry → HashEntry) :
    Aside dp s (s.amend dp name f) := aside_setHash s dp _

theorem aside_overwrite (s : DirState Dev) (dp : Dev × ℕ) (d : Directory) (off ino reclen : ℕ)
    (name : FileName) : Aside dp s (s.overwrite dp d off ino reclen name) := by
  rw [overwrite]
  split
  · exact aside_write s dp d _
  · exact aside_wreck s dp

theorem aside_dirrewrite (s : DirState Dev) (o : DiskOutcome Dev) (dp : Dev × ℕ) (name : FileName)
    (reclen ino : ℕ) : Aside dp s (s.dirrewrite o dp name reclen ino) := by
  refine (aside_load s o dp 2).trans ?_
  rw [dirrewrite]
  generalize s.load o dp 2 = s
  split
  · rename_i e d _ _
    have hamend := aside_amend s dp name.val fun e => { e with ino := ino }
    split_ifs
    · exact hamend.trans ((aside_overwrite _ dp d e.off ino reclen name).trans
        (aside_dirRemove _ _ dp))
    · exact hamend.trans (aside_dirRemove _ _ dp)
  · exact .refl dp s

@[simp] theorem disk_entered {off spacefree dsize size ino : ℕ} {next : Option Bytes} :
    (s.entered o dp off spacefree dsize size name ino next).disk = s.disk := by
  rw [entered, disk_tell, disk_enterCached]
  rfl

def Retains (dp : Dev × ℕ) (s s' : DirState Dev) : Prop :=
  ∀ d, s.disk dp = some d → ∃ d', s'.disk dp = some d' ∧
    ∀ n i, Lists d.blocks n i → Lists d'.blocks n i

omit [DecidableEq Dev] in
theorem Retains.of_disk (h : s'.disk = s.disk) : Retains dp s s' :=
  fun d hd => ⟨d, h ▸ hd, fun _ _ hl => hl⟩

theorem retains_written {blocks : List DirBlock} (hd : s.disk dp = some d)
    (hdisk : s'.disk = (if o.written then s.write dp d blocks else s).disk)
    (hl : ∀ n i, Lists d.blocks n i → Lists blocks n i) : Retains dp s s' := by
  intro d' hd'
  cases hd.symm.trans hd'
  by_cases hw : o.written = true
  · rw [if_pos hw] at hdisk
    exact ⟨_, hdisk ▸ disk_write d blocks, hl⟩
  · rw [if_neg hw] at hdisk
    exact ⟨d, hdisk ▸ hd, fun _ _ h => h⟩

theorem retains_enterAt (hd : s.disk dp = some d) (off : ℕ) (name : FileName) (ino : ℕ) :
    Retains dp s (s.enterAt o dp d off name ino) := by
  rw [enterAt]
  split
  · rename_i before left ep rest after hloc
    have hblocks : d.blocks = Place.fill ⟨before, left, ep :: rest, after⟩ (ep :: rest) :=
      (locate_eq hloc).1.symm
    dsimp only
    split
    · rename_i hep
      split
      · exact .of_disk rfl
      · refine retains_written (o := o) hd disk_entered fun n i hl => ?_
        rw [hblocks] at hl
        refine lists_fill (fun r hr hused hname hino => ?_) hl
        rcases mem_cons.mp hr with rfl | hr
        · exact absurd hep hused
        · exact ⟨r, mem_cons_of_mem _ hr, hused, hname, hino⟩
    · split
      · exact .of_disk rfl
      · refine retains_written (o := o) hd (disk_entered.trans (disk_load 3)) fun n i hl => ?_
        rw [hblocks] at hl
        refine lists_fill (fun r hr hused hname hino => ?_) hl
        rcases mem_cons.mp hr with rfl | hr
        · exact ⟨_, mem_cons_self, hused, hname, hino⟩
        · exact ⟨r, mem_cons_of_mem _ (mem_cons_of_mem _ hr), hused, hname, hino⟩
  · exact .of_disk rfl

theorem retains_direnter (s : DirState Dev) (o : DiskOutcome Dev) (dp : Dev × ℕ) (name : FileName)
    (ino : ℕ) : Retains dp s (s.direnter o dp name ino) := by
  rw [direnter]
  split
  · exact .of_disk rfl
  · rename_i d hd
    dsimp only
    split
    · split
      · rename_i hw
        have hadd (n : FileName) (i : ℕ) (hl : Lists d.blocks n i) :
            Lists (d.blocks ++ [[⟨ino, dirblksiz, name⟩]]) n i := by
          obtain ⟨b, hb, hr⟩ := hl
          exact ⟨b, mem_append_left _ hb, hr⟩
        refine retains_written (o := o) hd ?_ hadd
        rw [if_pos hw, disk_enterCached]
        rfl
      · exact .of_disk rfl
    · split
      · exact retains_enterAt hd _ name ino
      · exact .of_disk rfl

theorem aside_call (s : DirState Dev) (o : DiskOutcome Dev) {c : DirCall Dev}
    (hdp : ∀ j ∈ c.dir, j = dp) : Aside dp s (s.call o c) := by
  cases c with
  | lookup j name =>
    obtain rfl := hdp j rfl
    exact aside_load s o j 0
  | direnter j name ino =>
    obtain rfl := hdp j rfl
    have hnamei := aside_namei s o j name
    simp only [call]
    generalize s.namei o j name = answer at hnamei
    obtain ⟨s', _ | e⟩ := answer
    · exact hnamei.trans (aside_direnter s' o j name ino)
    · exact hnamei
  | dirremove j name =>
    obtain rfl := hdp j rfl
    have hnamei := aside_namei s o j name
    simp only [call]
    generalize s.namei o j name = answer at hnamei
    obtain ⟨s', _ | e⟩ := answer
    · exact hnamei
    · exact hnamei.trans (aside_dirremove o j name e.reclen 2 s')
  | dirrewrite j name ino =>
    obtain rfl := hdp j rfl
    have hnamei := aside_namei s o j name
    simp only [call]
    generalize s.namei o j name = answer at hnamei
    obtain ⟨s', _ | e⟩ := answer
    · exact hnamei
    · exact hnamei.trans (aside_dirrewrite s' o j name e.reclen ino)
  | inval p => exact aside_evict s p dp

end DirState

open Relation Transition

def rootino : ℕ := 2

def IsDot (n : FileName) : Prop := n.val = [0x2e] ∨ n.val = [0x2e, 0x2e]

instance (n : FileName) : Decidable (IsDot n) := inferInstanceAs (Decidable (_ ∨ _))

namespace DirState

variable {Dev : Type} (s s' : DirState Dev) {o : DiskOutcome Dev} {dp j k : Dev × ℕ}
  {d : Directory} {name n : FileName}

def Names (j : Dev × ℕ) (n : FileName) (k : Dev × ℕ) : Prop :=
  j.1 = k.1 ∧ ¬IsDot n ∧ ∃ d, s.disk j = some d ∧ Lists d.blocks n k.2

def Reachable (k : Dev × ℕ) : Prop := k.2 = rootino ∨ ∃ j n, s.Names j n k

def Known : Prop := ∀ k h, s.cache k = some h → s.Reachable k

variable {s s'}

theorem lists_mem {b : List DirBlock} {i : ℕ} (h : Lists b n i) :
    ∃ e ∈ entries b, e.name = n ∧ e.ino = i := by
  obtain ⟨x, hx, r, hr, hused, rfl, rfl⟩ := h
  obtain ⟨before, after, rfl⟩ := append_of_mem hx
  obtain ⟨left, rest, rfl⟩ := append_of_mem hr
  refine ⟨Place.entry ⟨before, left, [], after⟩ r, ?_, rfl, rfl⟩
  have := entries_fill_cons ⟨before, left, [], after⟩ r rest
  rw [Place.fill] at this
  rw [this, if_neg hused]
  simp

theorem lists_ino {b : List DirBlock} {i : ℕ} (hwf : WellFormed b) (h : Lists b n i)
    {e : HashEntry} (he : Keyed.find bytesOf n.val (entries b) = some e) : e.ino = i := by
  obtain ⟨x, hx, rfl, rfl⟩ := lists_mem h
  have := Keyed.find_of_mem (nodup_bytes hwf.names) hx
  rw [← Option.some.inj (this.symm.trans he)]

theorem Names.aside (h : s.Names j n k) (ha : Aside dp s s') (hj : j ≠ dp) : s'.Names j n k := by
  obtain ⟨hdev, hdot, d, hd, hl⟩ := h
  exact ⟨hdev, hdot, d, (ha.disk j hj).trans hd, hl⟩

theorem Known.retained (hs : s.Known) (ha : Aside dp s s') (hr : Retains dp s s')
    (hdp : s.Reachable dp) : s'.Known := by
  intro k h hk
  have hreach : s.Reachable k := by
    by_cases heq : k = dp
    · exact heq ▸ hdp
    · rcases ha.cache k heq with hc | hc
      · exact hs k h (hc ▸ hk)
      · exact nomatch hc.symm.trans hk
  refine hreach.imp_right fun ⟨j, n, hn⟩ => ⟨j, n, ?_⟩
  by_cases hj : j = dp
  · obtain ⟨hdev, hdot, d, hd, hl⟩ := hn
    subst hj
    obtain ⟨d', hd', hl'⟩ := hr d hd
    exact ⟨hdev, hdot, d', hd', hl' n _ hl⟩
  · exact hn.aside ha hj

theorem Known.dropped {e : HashEntry} (hs : s.Known) (ha : Aside dp s s') (hdp : s.Reachable dp)
    (hwf : WellFormed d.blocks) (hd : s.disk dp = some d)
    (he : Keyed.find bytesOf name.val (entries d.blocks) = some e)
    (hkept : ∃ d', s'.disk dp = some d' ∧
      ∀ n i, n ≠ name → Lists d.blocks n i → Lists d'.blocks n i)
    (hgone : IsDot name ∨ s'.cache (dp.1, e.ino) = none ∨ s'.Reachable (dp.1, e.ino)) :
    s'.Known := by
  intro k h hk
  have hreach : s.Reachable k := by
    by_cases heq : k = dp
    · exact heq ▸ hdp
    · rcases ha.cache k heq with hc | hc
      · exact hs k h (hc ▸ hk)
      · exact nomatch hc.symm.trans hk
  rcases hreach with hroot | ⟨j, n, hn⟩
  · exact inl hroot
  by_cases hj : j = dp
  · obtain ⟨hdev, hdot, d₁, hd₁, hl⟩ := hn
    subst hj
    cases hd.symm.trans hd₁
    by_cases hname : n = name
    · subst hname
      obtain rfl : k = (j.1, e.ino) := Prod.ext hdev.symm (lists_ino hwf hl he).symm
      rcases hgone with hdot' | hnone | hreach
      · exact absurd hdot' hdot
      · exact nomatch hnone.symm.trans hk
      · exact hreach
    · obtain ⟨d', hd', hl'⟩ := hkept
      exact inr ⟨j, n, hdev, hdot, d', hd', hl' n _ hname hl⟩
  · exact inr ⟨j, n, hn.aside ha hj⟩

theorem Reachable.congr (hdisk : s'.disk = s.disk) (h : s.Reachable k) : s'.Reachable k := by
  simpa only [Reachable, Names, hdisk] using h

variable [DecidableEq Dev]

@[simp] theorem disk_namei (o : DiskOutcome Dev) (dp : Dev × ℕ) (name : FileName) :
    (s.namei o dp name).1.disk = s.disk := disk_load 0

theorem Known.namei (hs : s.Known) (hdp : s.Reachable dp) (o : DiskOutcome Dev) (name : FileName) :
    (s.namei o dp name).1.Known :=
  hs.retained (aside_namei s o dp name) (.of_disk (disk_namei o dp name)) hdp

theorem Known.load (hs : s.Known) (hdp : s.Reachable dp) (o : DiskOutcome Dev) (n : ℕ) :
    (s.load o dp n).Known :=
  hs.retained (aside_load s o dp n) (.of_disk (disk_load n)) hdp

def Spares (s : DirState Dev) (o : DiskOutcome Dev) (dp : Dev × ℕ) (name : FileName) (ino : ℕ) :
    Prop :=
  ∀ d ∈ s.disk dp, ∀ e ∈ Keyed.find bytesOf name.val (entries d.blocks),
    e.ino = ino ∨ IsDot name ∨ e.ino = rootino ∨
      (∃ j n, (j, n) ≠ (dp, name) ∧ s.Names j n (dp.1, e.ino)) ∨
      ((s.namei o dp name).1.load o dp 2).cache (dp.1, e.ino) = none

theorem Known.direnter (hs : s.Known) (hdp : s.Reachable dp) (o : DiskOutcome Dev) (name : FileName)
    (ino : ℕ) : (s.direnter o dp name ino).Known :=
  hs.retained (aside_direnter s o dp name ino) (retains_direnter s o dp name ino) hdp

section

variable (hs : s.Known) (hcoh : s.Coherent) (hdp : s.Reachable dp) (hreads : ∀ n, o.reads n = none)

include hs hcoh hdp hreads

theorem Known.dirremove (hmeets : s.RemoveMeets o dp name) (hd : s.disk dp = some d)
    {e : HashEntry} (he : Keyed.find bytesOf name.val (entries d.blocks) = some e) (fuel : ℕ) :
    (dirremove o dp name e.reclen (fuel + 1) s).Known := by
  have hload := hs.load hdp o 2
  have hd' : (s.load o dp 2).disk dp = some d := by
    rw [disk_load, hd]
  rcases hcoh.dirremove_cases hreads hmeets hd he fuel with heq | hdrops
  · exact Eq.mpr (congrArg Known heq) hload
  · exact hload.dropped hdrops.aside (hdp.congr (disk_load 2)) ((hcoh.settled dp).formed d hd) hd' he
      (hdrops.kept d hd') (inr (inl hdrops.gone))

theorem Known.dirrewrite (hmeets : s.RewriteMeets o dp name) (hd : s.disk dp = some d)
    {e : HashEntry} (he : Keyed.find bytesOf name.val (entries d.blocks) = some e) {ino : ℕ}
    (hino : ino ≠ 0)
    (hspares : e.ino = ino ∨ IsDot name ∨ e.ino = rootino ∨
      (∃ j n, (j, n) ≠ (dp, name) ∧ s.Names j n (dp.1, e.ino)) ∨
      (s.load o dp 2).cache (dp.1, e.ino) = none) :
    (s.dirrewrite o dp name e.reclen ino).Known := by
  have hload := hs.load hdp o 2
  have hd' : (s.load o dp 2).disk dp = some d := by
    rw [disk_load, hd]
  have hdrops := hcoh.dirrewrite_drops hreads hmeets hd he hino
  refine hload.dropped hdrops.aside (hdp.congr (disk_load 2)) ((hcoh.settled dp).formed d hd) hd' he
    (hdrops.kept d hd') ?_
  rcases hspares with rfl | hdot | hroot | ⟨j, n, hne, hn⟩ | hnone
  · exact inr (inl hdrops.gone)
  · exact inl hdot
  · exact inr (inr (inl hroot))
  · have hn' : (s.load o dp 2).Names j n (dp.1, e.ino) := by
      simpa only [Names, disk_load] using hn
    refine inr (inr (inr ⟨j, n, ?_⟩))
    by_cases hj : j = dp
    · subst hj
      obtain ⟨hdev, hdot, d₁, hd₁, hl⟩ := hn'
      obtain ⟨d', hd'', hl'⟩ := hdrops.kept d₁ hd₁
      exact ⟨hdev, hdot, d', hd'', hl' n _ (fun h => hne (by rw [h])) hl⟩
    · exact hn'.aside hdrops.aside hj
  · have hne : (dp.1, e.ino) ≠ dp := by
      intro heq
      obtain ⟨h, hh⟩ := load_cached (o := o) hd 2
      rw [heq] at hnone
      exact nomatch hnone.symm.trans hh
    rcases hdrops.aside.cache _ hne with hc | hc
    · exact inr (inl (hc.trans hnone))
    · exact inr (inl hc)

end

end DirState

end MachUS.Ufs
