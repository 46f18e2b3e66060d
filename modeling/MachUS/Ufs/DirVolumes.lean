import MachUS.Ufs.DirFrames

namespace MachUS.Ufs

open Relation Transition Function DirState Option

structure Volume (Dev : Type) where
  dirs : DirState Dev
  made : ℕ

inductive VolumeEvent (Dev : Type) where
  | call (o : DiskOutcome Dev) (c : DirCall Dev)
  | release (k : Dev × ℕ)
  | mkdir (k : Dev × ℕ) (blocks : List DirBlock)

def Directory.Emptied (d : Directory) : Prop :=
  ∀ b ∈ d.blocks, ∀ r ∈ b, r.ino ≠ 0 → IsDot r.name

instance (d : Directory) : Decidable d.Emptied :=
  inferInstanceAs (Decidable (∀ b ∈ d.blocks, ∀ r ∈ b, r.ino ≠ 0 → IsDot r.name))

namespace Volume

variable {Dev : Type} [DecidableEq Dev] {v v' : Volume Dev}

def mount (disk : Dev × ℕ → Option (List DirBlock)) : Volume Dev :=
  ⟨.start fun k => (disk k).map fun blocks => ⟨blocks, 0⟩, 1⟩

def step (v : Volume Dev) : VolumeEvent Dev → Volume Dev
  | .call o c => { v with dirs := v.dirs.call o c }
  | .release k => { v with dirs := { v.dirs with disk := update v.dirs.disk k none } }
  | .mkdir k blocks =>
    ⟨{ v.dirs with disk := update v.dirs.disk k (some ⟨blocks, v.made⟩) }, v.made + 1⟩

def next (v : Volume Dev) (e : VolumeEvent Dev) : Option (Volume Dev) := some (v.step e)

def Allowed (v : Volume Dev) : VolumeEvent Dev → Prop
  | .call _ _ => True
  | .release k => ¬v.dirs.Reachable k ∧ ∀ d ∈ v.dirs.disk k, d.Emptied
  | .mkdir k blocks => v.dirs.disk k = none ∧ WellFormed blocks

def CallSpares (v : Volume Dev) (o : DiskOutcome Dev) : DirCall Dev → Prop
  | .dirrewrite dp name ino => v.dirs.Spares o dp name ino
  | _ => True

def Meets (v : Volume Dev) : VolumeEvent Dev → Prop
  | .call o c => v.dirs.Meets (o, c) ∧ (∀ dp ∈ c.dir, v.dirs.Reachable dp) ∧ v.CallSpares o c
  | _ => True

structure Kept (v : Volume Dev) : Prop where
  coherent : v.dirs.Coherent
  known : v.dirs.Known

theorem known_call {s : DirState Dev} {o : DiskOutcome Dev} {c : DirCall Dev} (hcoh : s.Coherent)
    (hs : s.Known) (hreads : ∀ n, o.reads n = none) (hmeets : s.CallMeets o c)
    (hdir : ∀ dp ∈ c.dir, s.Reachable dp) (hspares : CallSpares ⟨s, 0⟩ o c) :
    (s.call o c).Known := by
  cases c with
  | lookup dp name => exact hs.load (hdir dp rfl) o 0
  | direnter dp name ino =>
    have hdp := (hdir dp rfl).congr (disk_namei o dp name)
    have hnamei := hs.namei (hdir dp rfl) o name
    simp only [call]
    generalize s.namei o dp name = answer at hdp hnamei
    obtain ⟨s', _ | e⟩ := answer
    · exact hnamei.direnter hdp o name ino
    · exact hnamei
  | dirremove dp name =>
    obtain ⟨hcoh', hdisk, -⟩ := hcoh.namei hreads dp name
    have hdp := (hdir dp rfl).congr hdisk
    have hnamei := hs.namei (hdir dp rfl) o name
    have hfound := hcoh.namei_found hreads dp name
    simp only [call]
    generalize s.namei o dp name = answer at hcoh' hdisk hdp hnamei hfound
    obtain ⟨s', _ | e⟩ := answer
    · exact hnamei
    · obtain ⟨d, hd, he⟩ := hfound e rfl
      have hmeets' : s'.RemoveMeets o dp name := by
        rw [RemoveMeets, hdisk]
        exact hmeets
      exact hnamei.dirremove hcoh' hdp hreads hmeets' (hdisk ▸ hd) he 1
  | dirrewrite dp name ino =>
    obtain ⟨hcoh', hdisk, -⟩ := hcoh.namei hreads dp name
    have hdp := (hdir dp rfl).congr hdisk
    have hnamei := hs.namei (hdir dp rfl) o name
    have hfound := hcoh.namei_found hreads dp name
    simp only [CallSpares, Spares] at hspares
    simp only [call]
    generalize s.namei o dp name = answer at hcoh' hdisk hdp hnamei hfound hspares
    obtain ⟨s', _ | e⟩ := answer
    · exact hnamei
    · obtain ⟨d, hd, he⟩ := hfound e rfl
      have hmeets' : s'.RewriteMeets o dp name := by
        rw [RewriteMeets, hdisk]
        exact hmeets
      have hspare := hspares d hd e he
      simp only [Names, ← hdisk] at hspare
      exact hnamei.dirrewrite hcoh' hdp hreads hmeets' (hdisk ▸ hd) he ino.ne_zero hspare
  | inval p =>
    exact fun k h hk => hs k h ((cache_evict (s := s) p k).elim (fun hc => hc ▸ hk)
      fun hc => absurd (hc.symm.trans hk) (by simp))

theorem disk_release (k : Dev × ℕ) : (v.step (.release k)).dirs.disk k = none :=
  update_self _ _ _

theorem disk_mkdir (k : Dev × ℕ) (blocks : List DirBlock) :
    (v.step (.mkdir k blocks)).dirs.disk k = some ⟨blocks, v.made⟩ := update_self _ _ _

theorem Kept.release (h : v.Kept) {k : Dev × ℕ} (hk : ¬v.dirs.Reachable k)
    (hempty : ∀ d ∈ v.dirs.disk k, d.Emptied) : (v.step (.release k)).Kept := by
  have hcache : v.dirs.cache k = none := by
    cases hc : v.dirs.cache k with
    | none => rfl
    | some x => exact absurd (h.known k x hc) hk
  refine ⟨⟨fun j => ?_, h.coherent.whole⟩, fun j x hx => ?_⟩
  · by_cases hj : j = k
    · subst hj
      refine ⟨fun d hd => ?_, fun x hx => ?_⟩
      · cases (disk_release j).symm.trans hd
      · cases hcache.symm.trans hx
    · exact (h.coherent.settled j).shrink (update_of_ne hj _ _) (Or.inl rfl)
  · refine (h.known j x hx).imp_right fun ⟨i, n, hdev, hdot, d, hd, hl⟩ =>
      ⟨i, n, hdev, hdot, d, ?_, hl⟩
    refine (update_of_ne ?_ _ _).trans hd
    rintro rfl
    obtain ⟨b, hb, r, hr, hused, rfl, -⟩ := hl
    exact hdot (hempty d hd b hb r hr hused)

theorem Kept.mkdir (h : v.Kept) {k : Dev × ℕ} {blocks : List DirBlock}
    (hk : v.dirs.disk k = none) (hwf : WellFormed blocks) : (v.step (.mkdir k blocks)).Kept := by
  have hcache : v.dirs.cache k = none := by
    cases hc : v.dirs.cache k with
    | none => rfl
    | some x =>
      obtain ⟨d, hd, -⟩ := (h.coherent.settled k).cached x hc
      cases hk.symm.trans hd
  refine ⟨⟨fun j => ?_, h.coherent.whole⟩, fun j x hx => ?_⟩
  · by_cases hj : j = k
    · subst hj
      refine ⟨fun d hd => ?_, fun x hx => ?_⟩
      · cases (disk_mkdir j blocks).symm.trans hd
        exact hwf
      · cases hcache.symm.trans hx
    · exact (h.coherent.settled j).shrink (update_of_ne hj _ _) (Or.inl rfl)
  · refine (h.known j x hx).imp_right fun ⟨i, n, hdev, hdot, d, hd, hl⟩ =>
      ⟨i, n, hdev, hdot, d, ?_, hl⟩
    refine (update_of_ne ?_ _ _).trans hd
    rintro rfl
    cases hk.symm.trans hd

theorem Kept.step (h : v.Kept) {e : VolumeEvent Dev} (hallowed : v.Allowed e)
    (hmeets : v.Meets e) : (v.step e).Kept := by
  cases e with
  | call o c =>
    obtain ⟨⟨hreads, hcall⟩, hdir, hspares⟩ := hmeets
    exact ⟨h.coherent.call hreads hcall, known_call h.coherent h.known hreads hcall hdir hspares⟩
  | release k => exact h.release hallowed.1 hallowed.2
  | mkdir k blocks => exact h.mkdir hallowed.1 hallowed.2

omit [DecidableEq Dev] in
theorem kept_mount {disk : Dev × ℕ → Option (List DirBlock)}
    (hdisk : ∀ k blocks, disk k = some blocks → WellFormed blocks) : (mount disk).Kept := by
  refine ⟨coherent_start fun k d hd => ?_, fun _ _ hk => nomatch hk⟩
  obtain ⟨blocks, hblocks, rfl⟩ := map_eq_some_iff.mp hd
  exact hdisk k blocks hblocks

structure Fresh (v : Volume Dev) : Prop where
  own : ∀ k h, v.dirs.cache k = some h → ∃ d, v.dirs.disk k = some d ∧ h.stamp = d.stamp
  answers : ∀ (o : DiskOutcome Dev) k d name, (∀ n, o.reads n = none) → v.dirs.disk k = some d →
    (v.dirs.namei o k name).2 = Keyed.find bytesOf name.val (entries d.blocks)
  hint : ∀ k h d, v.dirs.cache k = some h → v.dirs.disk k = some d →
    h.lastOff = 0 ∨ Describes d.blocks h.lastOff h.lastUnused

theorem Kept.fresh (h : v.Kept) : v.Fresh := by
  refine ⟨fun k x hx => ?_, fun o k d name hreads hd => ?_, fun k x d hx hd => ?_⟩
  · obtain ⟨d, hd, hm⟩ := (h.coherent.settled k).cached x hx
    exact ⟨d, hd, hm.stamp⟩
  · exact (h.coherent.namei hreads k name).2.2 d hd
  · obtain ⟨d', hd', hm⟩ := (h.coherent.settled k).cached x hx
    cases hd.symm.trans hd'
    exact hm.hint

theorem no_stale_directory {disk : Dev × ℕ → Option (List DirBlock)}
    (hdisk : ∀ k blocks, disk k = some blocks → WellFormed blocks) {v : Volume Dev}
    (hrun : ReflTransGen (Under next fun v e => v.Allowed e ∧ v.Meets e) (mount disk) v) :
    v.Fresh := by
  refine Kept.fresh (invariant (fun x e y hx he hy => ?_) hrun (kept_mount hdisk))
  cases hy
  exact hx.step he.1 he.2

omit [DecidableEq Dev] in
theorem not_reachable {s : DirState Dev} {k : Dev × ℕ} (hroot : k.2 ≠ rootino)
    (h : ∀ j d, s.disk j = some d → ∀ b ∈ d.blocks, ∀ r ∈ b, r.ino = k.2 → IsDot r.name) :
    ¬s.Reachable k := by
  rintro (hk | ⟨j, n, -, hdot, d, hd, b, hb, r, hr, -, rfl, hino⟩)
  · exact hroot hk
  · exact hdot (h j d hd b hb r hr hino)

end Volume

namespace ReuseSample

open DirSample Volume

def root : Unit × ℕ := ((), 2)

def old : Unit × ℕ := ((), 5)

def other : Unit × ℕ := ((), 7)

def disk : Unit × ℕ → Option (List DirBlock) := fun k =>
  if k = root then
    some [[⟨2, 12, dot⟩, ⟨2, 12, dotdot⟩, ⟨5, 12, fileName 0x6f⟩, ⟨6, 12, fileName 0x6e⟩,
      ⟨7, 464, fileName 0x64⟩]]
  else if k = old then some (dirTemplate 5 2)
  else if k = other then some (dirTemplate 7 2)
  else none

theorem disk_formed (k : Unit × ℕ) (blocks : List DirBlock) (h : disk k = some blocks) :
    WellFormed blocks := by
  rw [disk] at h
  split_ifs at h
  all_goals
    cases h
    refine ⟨fun b hb => ?_, by decide⟩
    obtain rfl := List.mem_singleton.mp hb
    exact ⟨by decide, by decide, by decide⟩

theorem unnamed {s : DirState Unit} (hother : ∀ j, j ≠ root → s.disk j = (mount disk).dirs.disk j)
    (hroot : ∀ d ∈ s.disk root, ∀ b ∈ d.blocks, ∀ r ∈ b, r.ino = 5 → IsDot r.name) :
    ¬s.Reachable old := by
  refine not_reachable (by decide) fun j d hd b hb r hr hino => ?_
  by_cases hj : j = root
  · subst hj
    exact hroot d hd b hb r hr hino
  · rw [hother j hj] at hd
    obtain ⟨blocks, hblocks, rfl⟩ := map_eq_some_iff.mp hd
    rw [disk, if_neg hj] at hblocks
    split_ifs at hblocks
    all_goals
      cases hblocks
      obtain rfl := List.mem_singleton.mp hb
      revert hino
      revert hr
      revert r
      decide

def look : VolumeEvent Unit := .call fine (.lookup old dot)

def afterRemoval : Volume Unit :=
  ((mount disk).step look).step (.call fine (.dirremove root (fileName 0x6f)))

def remade : Volume Unit :=
  ((afterRemoval.step (.release old)).step (.mkdir old (dirTemplate 5 2))).step
    (.call fine (.direnter root (fileName 0x70) (Nat.succPNat 4)))

theorem gone (c : DirCall Unit) (hdir : ∀ j ∈ c.dir, j = root) (j : Unit × ℕ) (hj : j ≠ root) :
    (((mount disk).step look).step (.call fine c)).dirs.disk j = (mount disk).dirs.disk j := by
  have hlook : ((mount disk).step look).dirs.disk = (mount disk).dirs.disk :=
    disk_load 0
  rw [← hlook]
  exact (aside_call _ fine hdir).disk j hj

theorem release_allowed (c : DirCall Unit) (hdir : ∀ j ∈ c.dir, j = root)
    (hroot : ∀ d ∈ (((mount disk).step look).step (.call fine c)).dirs.disk root,
      ∀ b ∈ d.blocks, ∀ r ∈ b, r.ino = 5 → IsDot r.name) :
    (((mount disk).step look).step (.call fine c)).Allowed (.release old) := by
  refine ⟨unnamed (gone c hdir) hroot, fun d hd => ?_⟩
  rw [gone c hdir old (by decide)] at hd
  obtain rfl : (⟨dirTemplate 5 2, 0⟩ : Directory) = d := some.inj hd
  decide

theorem template_formed (ino parent : ℕ) (hino : ino ≠ 0) (hparent : parent ≠ 0) :
    WellFormed (dirTemplate ino parent) := by
  refine ⟨fun b hb => ?_, ?_⟩
  · obtain rfl := List.mem_singleton.mp hb
    refine ⟨rfl, ?_, ?_⟩ <;> simp [Direct.size, hino, hparent]
    decide
  · simp [entries, entriesFrom, dirTemplate, blockEntries, hino, hparent]
    decide

theorem remake_allowed (v : Volume Unit) (parent : ℕ) (hparent : parent ≠ 0) :
    (v.step (.release old)).Allowed (.mkdir old (dirTemplate 5 parent)) :=
  ⟨disk_release old, template_formed 5 parent (by decide) hparent⟩

theorem names_old (v : Volume Unit) (n : FileName) (hdot : ¬IsDot n)
    (h : ∃ d ∈ v.dirs.disk root, Lists d.blocks n 5) : v.dirs.Reachable old := by
  obtain ⟨d, hd, hl⟩ := h
  exact Or.inr ⟨root, n, rfl, hdot, d, hd, hl⟩

instance (b : List DirBlock) (n : FileName) (i : ℕ) : Decidable (Lists b n i) :=
  inferInstanceAs (Decidable (∃ x ∈ b, ∃ r ∈ x, r.ino ≠ 0 ∧ r.name = n ∧ r.ino = i))

theorem fine_meets {v : Volume Unit} {c : DirCall Unit} (h : v.dirs.CallMeets fine c) :
    v.dirs.Meets (fine, c) := ⟨fun _ => rfl, h⟩

end ReuseSample

open ReuseSample DirSample Volume

theorem no_stale_directory_remade :
    (((remade.step look).dirs.find old dotdot.val).map HashEntry.ino = some 2 ∧
      ((remade.step look).dirs.cache old).map DirHash.stamp = some 1) ∧
      (remade.step look).Fresh := by
  refine ⟨by decide +kernel, no_stale_directory disk_formed ?_⟩
  refine .tail (.tail (.tail (.tail (.tail (.tail .refl ⟨look, ⟨trivial, ?_⟩, rfl⟩)
    ⟨.call fine (.dirremove root (fileName 0x6f)), ⟨trivial, ?_⟩, rfl⟩)
    ⟨.release old, ⟨?_, trivial⟩, rfl⟩)
    ⟨.mkdir old (dirTemplate 5 2), ⟨?_, trivial⟩, rfl⟩)
    ⟨.call fine (.direnter root (fileName 0x70) 5), ⟨trivial, ?_⟩, rfl⟩)
    ⟨look, ⟨trivial, ?_⟩, rfl⟩
  · refine ⟨fine_meets trivial, ?_, trivial⟩
    rintro _ ⟨rfl⟩
    exact names_old _ (fileName 0x6f) (by decide) (by decide +kernel)
  · refine ⟨fine_meets (by decide +kernel), ?_, trivial⟩
    rintro _ ⟨rfl⟩
    exact Or.inl rfl
  · exact release_allowed _ (by rintro _ ⟨rfl⟩; rfl) (by decide +kernel)
  · exact remake_allowed _ 2 (by decide)
  · refine ⟨fine_meets (by decide +kernel), ?_, trivial⟩
    rintro _ ⟨rfl⟩
    exact Or.inl rfl
  · refine ⟨fine_meets trivial, ?_, trivial⟩
    rintro _ ⟨rfl⟩
    exact names_old _ (fileName 0x70) (by decide) (by decide +kernel)

theorem rewritten_directory_stays_cached : ∃ v, ReflTransGen (Under Volume.next Volume.Allowed)
    (mount ReuseSample.disk) v ∧ ¬v.Fresh := by
  let c : DirCall Unit := .dirrewrite root (fileName 0x6f) 6
  let v := ((((mount ReuseSample.disk).step look).step (.call fine c)).step (.release old)).step
    (.mkdir old (dirTemplate 5 7))
  refine ⟨v, ?_, fun hfresh => ?_⟩
  · exact .tail (.tail (.tail (.tail .refl ⟨look, trivial, rfl⟩) ⟨.call fine c, trivial, rfl⟩)
      ⟨.release old, release_allowed c (by rintro _ ⟨rfl⟩; rfl) (by decide +kernel), rfl⟩)
      ⟨.mkdir old (dirTemplate 5 7), remake_allowed _ 7 (by decide), rfl⟩
  · have hnew : v.dirs.disk old = some ⟨dirTemplate 5 7, 1⟩ := disk_mkdir old _
    have hanswer := hfresh.answers fine old _ dotdot (fun _ => rfl) hnew
    revert hanswer
    decide +kernel

end MachUS.Ufs
