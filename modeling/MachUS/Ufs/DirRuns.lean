import MachUS.Ufs.DirSteps

namespace MachUS.Ufs

open List Option Place

def SameSpace (x y : Direct) : Prop := x.reclen = y.reclen ∧ x.space = y.space

theorem cutBlock_congr {b b' left right : List Direct} {off : ℕ}
    (hb : Forall₂ SameSpace b b') (h : cutBlock b off = some (left, right)) :
    ∃ left' right', cutBlock b' off = some (left', right') ∧ Forall₂ SameSpace right right' := by
  induction hb generalizing off left with
  | nil =>
    cases off with
    | zero =>
      cases some.inj h
      exact ⟨[], [], rfl, .nil⟩
    | succ n => cases h
  | @cons x y b b' hxy hb ih =>
    cases off with
    | zero =>
      cases some.inj h
      exact ⟨[], y :: b', rfl, .cons hxy hb⟩
    | succ n =>
      simp only [cutBlock] at h ⊢
      rw [← hxy.1]
      split at h
      · cases h
      · rename_i hlt
        obtain ⟨⟨l, r⟩, hcut, heq⟩ := map_eq_some_iff.mp h
        cases heq
        obtain ⟨l', r', hcut', hr⟩ := ih hcut
        exact ⟨y :: l', r', by simp [hlt, hcut'], hr⟩

theorem describes_congr {d d' : List DirBlock} {off unused : ℕ}
    (hd : Forall₂ (Forall₂ SameSpace) d d') (h : Describes d off unused) :
    Describes d' off unused := by
  obtain ⟨p, r, rest, hloc, hright, hspace⟩ := h
  have hdrop := forall₂_drop (off / dirblksiz) hd
  rw [locate] at hloc
  split at hloc
  · cases hloc
  · rename_i b after heq
    rw [heq] at hdrop
    obtain ⟨⟨left, right⟩, hcut, rfl⟩ := map_eq_some_iff.mp hloc
    obtain rfl : right = r :: rest := hright
    cases hd' : d'.drop (off / dirblksiz) with
    | nil =>
      rw [hd'] at hdrop
      cases hdrop
    | cons b' after' =>
      rw [hd', forall₂_cons] at hdrop
      obtain ⟨left', right', hcut', hr⟩ := cutBlock_congr hdrop.1 hcut
      cases hr with
      | @cons _ y _ rest' hry hrest =>
        refine ⟨⟨d'.take (off / dirblksiz), left', y :: rest', after'⟩, y, rest', ?_, rfl,
          hspace.trans_eq hry.2⟩
        simp [locate, hd', hcut']

theorem rewrite_sameSpace (p : Place) {r : Direct} (rest : List Direct) {ino : ℕ} (hr : r.ino ≠ 0)
    (hino : ino ≠ 0) : Forall₂ (Forall₂ SameSpace) (p.fill (r :: rest))
      (p.fill ({ r with ino := ino } :: rest)) := by
  have hrefl (l : List Direct) : Forall₂ SameSpace l l :=
    forall₂_same.mpr fun x _ => ⟨rfl, rfl⟩
  have hblocks (d : List DirBlock) : Forall₂ (Forall₂ SameSpace) d d :=
    forall₂_same.mpr fun b _ => hrefl b
  have hrec : SameSpace r { r with ino := ino } := by
    simp [SameSpace, Direct.space, Direct.size, hr, hino]
  exact rel_append (hblocks _) (.cons (rel_append (hrefl _) (.cons hrec (hrefl _))) (hblocks _))

namespace DirState

variable {Dev : Type} [DecidableEq Dev] {s s' : DirState Dev} {o : DiskOutcome Dev}
  {dp k : Dev × ℕ} {d : Directory} {h : DirHash} {name : FileName}

theorem tell_cached (hh : s.cache dp = some h) (rest : List Direct) (v n : ℕ) :
    (s.tell o dp n (rest.head?.map fun x => x.name.val) v).cache dp =
      some { h with table := tellNext rest v h.table } := by
  cases rest with
  | nil => exact hh
  | cons x rest =>
    have hload : s.tell o dp n ((x :: rest).head?.map fun x => x.name.val) v =
        s.amend dp x.name.val fun e => { e with prev := v } := by
      simp only [head?_cons, map_some, tell, load_of_cached hh]
    rw [hload, amend, cache_setHash, hh]
    rfl

theorem grow_cached (hh : s.cache dp = some h) (ep : Direct) (reclen : ℕ) :
    (s.grow o dp ep reclen).cache dp = some { h with table := growTable ep reclen h.table } := by
  by_cases hep : ep.ino = 0
  · simp only [grow, growTable, hep, if_true, hh]
  · simp only [grow, growTable, hep, if_false, load_of_cached hh, amend, cache_setHash, hh]
    rfl

theorem aside_grow (s : DirState Dev) (o : DiskOutcome Dev) (dp : Dev × ℕ) (ep : Direct)
    (reclen : ℕ) : Aside dp s (s.grow o dp ep reclen) := by
  rw [grow]
  split
  · exact .refl dp s
  · exact (aside_load s o dp 3).trans (aside_setHash _ dp _)

@[simp] theorem disk_grow (ep : Direct) (reclen : ℕ) : (s.grow o dp ep reclen).disk = s.disk := by
  rw [grow]
  split
  · rfl
  · exact disk_load 3

@[simp] theorem wrecked_grow (ep : Direct) (reclen : ℕ) :
    (s.grow o dp ep reclen).wrecked = s.wrecked := by
  rw [grow]
  split
  · rfl
  · exact wrecked_load 3

theorem forget_eq (hh : s.cache dp = some h) (name : FileName) (ino : ℕ) :
    s.forget dp name ino =
      ((s.setHash dp fun h => { h with lastOff := 0 }).fileRemove dp name).dirRemove (dp.1, ino) := by
  simp [forget, hh]

theorem cache_forget (hh : s.cache dp = some h) {ino : ℕ} {h' : DirHash}
    (h'eq : (s.forget dp name ino).cache dp = some h') :
    h' = { h with lastOff := 0, table := Keyed.drop bytesOf name.val h.table } := by
  rw [forget_eq hh] at h'eq
  rcases cache_dirRemove (s := (s.setHash dp fun h => { h with lastOff := 0 }).fileRemove dp name)
      (dp.1, ino) dp with heq | heq
  · rw [heq, fileRemove, cache_setHash, cache_setHash, hh] at h'eq
    exact (some.inj h'eq).symm
  · rw [heq] at h'eq
    cases h'eq

theorem aside_forget (s : DirState Dev) (dp : Dev × ℕ) (name : FileName) (ino : ℕ) :
    Aside dp s (s.forget dp name ino) := by
  rw [forget]
  split
  · exact .refl dp s
  · exact ((aside_setHash s dp _).trans (aside_setHash _ dp _)).trans (aside_dirRemove _ _ dp)

@[simp] theorem disk_forget (ino : ℕ) : (s.forget dp name ino).disk = s.disk := by
  rw [forget]
  split <;> rfl

@[simp] theorem wrecked_forget (ino : ℕ) : (s.forget dp name ino).wrecked = s.wrecked := by
  rw [forget]
  split <;> rfl

structure Drops (dp : Dev × ℕ) (name : FileName) (ino : ℕ) (s s' : DirState Dev) : Prop where
  coherent : s'.Coherent
  aside : Aside dp s s'
  kept : ∀ d, s.disk dp = some d → ∃ d', s'.disk dp = some d' ∧
    ∀ n i, n ≠ name → Lists d.blocks n i → Lists d'.blocks n i
  gone : s'.cache (dp.1, ino) = none

theorem forget_drops {s₀ : DirState Dev} {d₀ : Directory} (hs : s₀.Coherent)
    (hd₀ : s₀.disk dp = some d₀) (ha : Aside dp s₀ s) (hwhole : s.wrecked = false)
    (hd : s.disk dp = some d) (hwf : WellFormed d.blocks)
    (hkept : ∀ n i, n ≠ name → Lists d₀.blocks n i → Lists d.blocks n i)
    (hh : s.cache dp = some h) (hstamp : h.stamp = d.stamp)
    (htable : (Keyed.drop bytesOf name.val h.table).Perm (entries d.blocks)) (ino : ℕ) :
    Drops dp name ino s₀ (s.forget dp name ino) := by
  have haside := ha.trans (aside_forget s dp name ino)
  refine ⟨haside.coherent hs ⟨fun d' hd' => ?_, fun h' hh' => ?_⟩ ?_, haside, fun d' hd' => ?_, ?_⟩
  · rw [disk_forget, hd] at hd'
    cases hd'
    exact hwf
  · obtain rfl := cache_forget hh hh'
    exact ⟨d, by rw [disk_forget, hd], hstamp, htable, Or.inl rfl⟩
  · rw [wrecked_forget, hwhole]
  · cases hd₀.symm.trans hd'
    exact ⟨d, by rw [disk_forget, hd], hkept⟩
  · rw [forget_eq hh]
    exact Function.update_self _ _ _

def EntryMeets (o : DiskOutcome Dev) (d : List DirBlock) (e : HashEntry) : Prop :=
  if e.prev = 0 then o.written = true
  else o.blockRead = false ∨ (o.written = true ∧
    ∀ p ∈ locate d e.off, ∀ x ∈ p.right.tail.head?, Terminated o x.name)

def RemoveMeets (s : DirState Dev) (o : DiskOutcome Dev) (dp : Dev × ℕ) (name : FileName) : Prop :=
  ∀ d ∈ s.disk dp, ∀ e ∈ Keyed.find bytesOf name.val (entries d.blocks), EntryMeets o d.blocks e

section Removal

variable {p : Place} {r : Direct} {rest : List Direct} (hs : s.Coherent)
  (hd : s.disk dp = some d) (hh : s.cache dp = some h) (hblocks : d.blocks = p.fill (r :: rest))
  (hwritten : o.written = true)

include hs hd hh hblocks

theorem blank_drops (hright : p.right = r :: rest) (hr : r.ino ≠ 0) (hprev : p.prev = 0)
    (ino : ℕ) : Drops dp r.name ino s
      ((s.blank dp d (p.entry r) r.reclen r.name).forget dp r.name ino) := by
  have hwf : WellFormed (p.fill (r :: rest)) := hblocks ▸ (hs.settled dp).formed d hd
  obtain ⟨d', hd', hm⟩ := (hs.settled dp).cached h hh
  cases hd.symm.trans hd'
  have hloc : locate d.blocks (p.entry r).off = some p := hblocks ▸ locate_fill hwf hright
  obtain ⟨before, left, right, after⟩ := p
  obtain rfl : right = r :: rest := hright
  have heq : s.blank dp d (entry ⟨before, left, r :: rest, after⟩ r) r.reclen r.name =
      s.write dp d (fill ⟨before, left, r :: rest, after⟩ ({ r with ino := 0 } :: rest)) := by
    simp only [blank, hloc]
    rfl
  rw [heq]
  refine forget_drops hs hd (aside_write s dp d _) hs.whole (disk_write d _)
    (blank_formed hwf hr hprev) (fun n i hn => ?_) (h := h) hh hm.stamp ?_ ino
  · rw [hblocks]
    refine lists_fill fun x hx hused hname hino => ?_
    rcases mem_cons.mp hx with rfl | hx
    · exact absurd hname (Ne.symm hn)
    · exact ⟨x, mem_cons_of_mem _ hx, hused, hname, hino⟩
  · exact blank_perm hwf hr (hblocks ▸ hm.table)

end Removal

section Collapsing

variable {p : Place} {ep r : Direct} {rest : List Direct} (hs : s.Coherent)
  (hd : s.disk dp = some d) (hh : s.cache dp = some h)
  (hblocks : d.blocks = p.fill (ep :: r :: rest)) (hwritten : o.written = true)
  (hnext : ∀ x ∈ rest.head?, Terminated o x.name)

include hs hd hh hblocks hwritten hnext

theorem collapse_drops (ino : ℕ) : Drops dp r.name ino s
    ((s.collapse o dp d p ep r rest ((p.shift ep).entry r)).forget dp r.name ino) := by
  have hwf : WellFormed (p.fill (ep :: r :: rest)) := hblocks ▸ (hs.settled dp).formed d hd
  obtain ⟨d', hd', hm⟩ := (hs.settled dp).cached h hh
  cases hd.symm.trans hd'
  have hshift : WellFormed ((p.shift ep).fill (r :: rest)) := by
    rw [fill_shift]
    exact hwf
  have hnn : nextName o (((p.shift ep).entry r).off + ((p.shift ep).entry r).reclen) rest =
      rest.head?.map fun x => x.name.val := nextName_terminated hshift hnext
  have hnew := collapse_formed hwf
  have hperm := collapse_perm hwf (hblocks ▸ hm.table)
  simp only [collapse, hnn, hwritten, if_true]
  rw [if_neg (by simp [entry])]
  have hcache : (s.write dp d (p.fill ({ ep with reclen := ep.reclen + r.reclen } :: rest))).cache
      dp = some h := hh
  refine forget_drops (d := { d with blocks := p.fill _ }) hs hd
    ((aside_write s dp d _).trans ((aside_grow _ o dp ep _).trans (aside_tell _ o dp 4 _ _))) ?_ ?_
    hnew (fun n i hn => ?_) (tell_cached (grow_cached hcache ep _) rest _ 4) hm.stamp hperm ino
  · rw [wrecked_tell, wrecked_grow]
    exact hs.whole
  · rw [disk_tell, disk_grow]
    exact disk_write d _
  · rw [hblocks]
    refine lists_fill fun x hx hused hname hino => ?_
    rcases mem_cons.mp hx with rfl | hx
    · exact ⟨_, mem_cons_self, hused, hname, hino⟩
    · rcases mem_cons.mp hx with rfl | hx
      · exact absurd hname.symm hn
      · exact ⟨x, mem_cons_of_mem _ hx, hused, hname, hino⟩

end Collapsing

theorem exists_shift (p : Place) (r : Direct) (rest : List Direct) (hne : p.left ≠ []) :
    ∃ (q : Place) (ep : Direct), q.right = ep :: r :: rest ∧
      p.fill (r :: rest) = q.fill (ep :: r :: rest) ∧ p.entry r = (q.shift ep).entry r := by
  obtain hnil | ⟨l, ep, hl⟩ := eq_nil_or_concat p.left
  · exact absurd hnil hne
  · rw [concat_eq_append] at hl
    refine ⟨⟨p.before, l, ep :: r :: rest, p.after⟩, ep, rfl, ?_, ?_⟩
    · simp [fill, hl]
    · simp [entry, offset, Place.prev, shift, hl]

theorem Coherent.dirremove_cases (hs : s.Coherent) (hreads : ∀ n, o.reads n = none)
    (hmeets : s.RemoveMeets o dp name) (hd : s.disk dp = some d) {e : HashEntry}
    (he : Keyed.find bytesOf name.val (entries d.blocks) = some e) (fuel : ℕ) :
    DirState.dirremove o dp name e.reclen (fuel + 1) s = s.load o dp 2 ∨
      Drops dp name e.ino (s.load o dp 2) (DirState.dirremove o dp name e.reclen (fuel + 1) s) := by
  have hs' : (s.load o dp 2).Coherent := hs.load (hreads 2)
  have hd' : (s.load o dp 2).disk dp = some d := by
    rw [disk_load, hd]
  obtain ⟨h, hh⟩ := load_cached (o := o) hd 2
  have hfind : (s.load o dp 2).find dp name = some e := (hs'.find_eq hh hd' name.val).trans he
  have hmeet := hmeets d hd e he
  obtain ⟨hmem, hname⟩ := Keyed.mem_of_find he
  obtain ⟨p, r, rest, hblocks, hright, hr, rfl⟩ := mem_entries hmem
  obtain rfl : r.name = name := Subtype.ext hname
  have hwf : WellFormed (p.fill (r :: rest)) := hblocks ▸ (hs.settled dp).formed d hd
  simp only [DirState.dirremove, hfind, hd']
  rw [EntryMeets] at hmeet
  split_ifs at hmeet ⊢ with hprev hread
  · exact Or.inr (blank_drops hs' hd' hh hblocks hright hr hprev _)
  · have hne : p.left ≠ [] := fun hnil => hprev ((prev_eq_zero hwf).mpr hnil)
    obtain ⟨q, ep, hq, hfill, hentry⟩ := exists_shift p r rest hne
    obtain ⟨hwritten, hnames⟩ := hmeet.resolve_left (by simp [hread])
    have hnext : ∀ x ∈ rest.head?, Terminated o x.name := by
      have := hnames p (hblocks ▸ locate_fill hwf hright)
      rwa [hright] at this
    have hoff : (p.entry r).off - (p.entry r).prev = q.offset := by
      rw [hentry]
      simp [entry, offset_shift, prev_shift]
    have hep : ep.reclen = (p.entry r).prev := by
      rw [hentry]
      exact (prev_shift q ep).symm
    rw [hfill] at hblocks hwf
    have hloc : locate d.blocks q.offset = some q := hblocks ▸ locate_fill hwf hq
    rw [hoff, hloc]
    obtain ⟨before, left, right, after⟩ := q
    obtain rfl : right = ep :: r :: rest := hq
    simp only [hep, ne_eq, not_true_eq_false, if_false, hentry]
    exact Or.inr (collapse_drops (p := ⟨before, left, [], after⟩) hs' hd' hh hblocks hwritten hnext _)
  · exact Or.inl rfl

def RewriteMeets (s : DirState Dev) (o : DiskOutcome Dev) (dp : Dev × ℕ) (name : FileName) : Prop :=
  ∀ d ∈ s.disk dp, (Keyed.find bytesOf name.val (entries d.blocks)).isSome → o.written = true

theorem Coherent.dirrewrite_drops (hs : s.Coherent) (hreads : ∀ n, o.reads n = none)
    (hmeets : s.RewriteMeets o dp name) (hd : s.disk dp = some d) {e : HashEntry}
    (he : Keyed.find bytesOf name.val (entries d.blocks) = some e) {ino : ℕ} (hino : ino ≠ 0) :
    Drops dp name ino (s.load o dp 2) (s.dirrewrite o dp name e.reclen ino) := by
  have hs' : (s.load o dp 2).Coherent := hs.load (hreads 2)
  have hd' : (s.load o dp 2).disk dp = some d := by
    rw [disk_load, hd]
  obtain ⟨h, hh⟩ := load_cached (o := o) hd 2
  have hfind : (s.load o dp 2).find dp name = some e := (hs'.find_eq hh hd' name.val).trans he
  have hwritten := hmeets d hd (by rw [he]; rfl)
  obtain ⟨hmem, hname⟩ := Keyed.mem_of_find he
  obtain ⟨p, r, rest, hblocks, hright, hr, rfl⟩ := mem_entries hmem
  obtain rfl : r.name = name := Subtype.ext hname
  have hwf : WellFormed (p.fill (r :: rest)) := hblocks ▸ (hs.settled dp).formed d hd
  have hloc : locate d.blocks (p.entry r).off = some p := hblocks ▸ locate_fill hwf hright
  obtain ⟨d', hd'', hm⟩ := (hs'.settled dp).cached h hh
  cases hd'.symm.trans hd''
  simp only [DirState.dirrewrite, hfind, hd', hwritten, if_true]
  obtain ⟨before, left, right, after⟩ := p
  obtain rfl : right = r :: rest := hright
  simp only [overwrite, hloc]
  refine ⟨Coherent.dirRemove (((aside_setHash _ dp _).trans (aside_write _ dp d _)).coherent hs'
      ⟨fun d' hd' => ?_, fun h' hh' => ?_⟩ hs'.whole) _,
    ((aside_setHash _ dp _).trans (aside_write _ dp d _)).trans (aside_dirRemove _ _ dp),
    fun d' hd'' => ⟨_, disk_write d _, ?_⟩, Function.update_self _ _ _⟩
  · cases (disk_write d _).symm.trans hd'
    exact rewrite_formed hwf hr hino
  · refine ⟨_, disk_write d _, ?_⟩
    simp only [cache_write, cache_setHash, hh, map_some] at hh'
    cases hh'
    refine ⟨hm.stamp, rewrite_perm hwf hr hino (hblocks ▸ hm.table), ?_⟩
    refine hm.hint.imp_right (describes_congr ?_)
    rw [hblocks]
    exact rewrite_sameSpace ⟨before, left, r :: rest, after⟩ rest hr hino
  · cases hd'.symm.trans hd''
    intro n i hn
    rw [hblocks]
    refine lists_fill fun x hx hused hx' hi => ?_
    rcases mem_cons.mp hx with rfl | hx
    · exact absurd hx' (Ne.symm hn)
    · exact ⟨x, mem_cons_of_mem _ hx, hused, hx', hi⟩

end DirState

end MachUS.Ufs

namespace MachUS.Ufs

open Relation Transition DirState

namespace DirState

variable {Dev : Type} [DecidableEq Dev] {s s' : DirState Dev} {o : DiskOutcome Dev}
  {dp : Dev × ℕ} {name : FileName}

def start (disk : Dev × ℕ → Option Directory) : DirState Dev := ⟨disk, fun _ => none, false⟩

def CallMeets (s : DirState Dev) (o : DiskOutcome Dev) : DirCall Dev → Prop
  | .lookup _ _ => True
  | .direnter dp name _ => (s.namei o dp name).2 = none → (s.namei o dp name).1.EnterMeets o dp name
  | .dirremove dp name => s.RemoveMeets o dp name
  | .dirrewrite dp name _ => s.RewriteMeets o dp name
  | .inval _ => True

def Meets (s : DirState Dev) (e : DiskOutcome Dev × DirCall Dev) : Prop :=
  (∀ n, e.1.reads n = none) ∧ s.CallMeets e.1 e.2

def next (s : DirState Dev) (e : DiskOutcome Dev × DirCall Dev) : Option (DirState Dev) :=
  some (s.call e.1 e.2)

instance (o : DiskOutcome Dev) (name : FileName) : Decidable (Terminated o name) :=
  inferInstanceAs (Decidable (_ ∨ _))

instance (s : DirState Dev) (o : DiskOutcome Dev) (dp : Dev × ℕ) :
    ∀ b, Decidable (s.PlaceMeets o dp b)
  | [] => inferInstanceAs (Decidable True)
  | _ :: rest => inferInstanceAs (Decidable (_ ∧ ∀ x ∈ rest.head?, _))

instance (s : DirState Dev) (o : DiskOutcome Dev) (dp : Dev × ℕ) (name : FileName) :
    Decidable (s.EnterMeets o dp name) := inferInstanceAs (Decidable (∀ d ∈ s.disk dp, _))

instance (o : DiskOutcome Dev) (d : List DirBlock) (e : HashEntry) :
    Decidable (EntryMeets o d e) :=
  if h : e.prev = 0 then decidable_of_iff (o.written = true) (by rw [EntryMeets, if_pos h])
  else decidable_of_iff (o.blockRead = false ∨ (o.written = true ∧
    ∀ p ∈ locate d e.off, ∀ x ∈ p.right.tail.head?, Terminated o x.name))
    (by rw [EntryMeets, if_neg h])

instance (s : DirState Dev) (o : DiskOutcome Dev) (dp : Dev × ℕ) (name : FileName) :
    Decidable (s.RemoveMeets o dp name) := inferInstanceAs (Decidable (∀ d ∈ s.disk dp, _))

instance (s : DirState Dev) (o : DiskOutcome Dev) (dp : Dev × ℕ) (name : FileName) :
    Decidable (s.RewriteMeets o dp name) := inferInstanceAs (Decidable (∀ d ∈ s.disk dp, _))

instance (s : DirState Dev) (o : DiskOutcome Dev) : ∀ c, Decidable (s.CallMeets o c)
  | .lookup _ _ | .inval _ => inferInstanceAs (Decidable True)
  | .direnter _ _ _ => inferInstanceAs (Decidable (_ → _))
  | .dirremove dp name => inferInstanceAs (Decidable (s.RemoveMeets o dp name))
  | .dirrewrite dp name _ => inferInstanceAs (Decidable (s.RewriteMeets o dp name))

theorem admits_meets {es : List (DiskOutcome Dev × DirCall Dev)}
    (hreads : ∀ e ∈ es, ∀ n, e.1.reads n = none)
    (hmeets : Admits next (fun s e => s.CallMeets e.1 e.2) s es) : Admits next Meets s es := by
  induction es generalizing s with
  | nil => trivial
  | cons e es ih =>
    exact ⟨⟨hreads e (by simp), hmeets.1⟩,
      fun y hy => ih (fun e he => hreads e (by simp [he])) (hmeets.2 y hy)⟩

structure Sound (s : DirState Dev) : Prop where
  table : ∀ k h d, s.cache k = some h → s.disk k = some d → h.table.Perm (entries d.blocks)
  answers : ∀ k h d name, s.cache k = some h → s.disk k = some d →
    s.find k name = Keyed.find bytesOf name (entries d.blocks)
  whole : s.wrecked = false

omit [DecidableEq Dev] in
theorem Coherent.sound (hs : s.Coherent) : s.Sound := by
  refine ⟨fun k h d hh hd => ?_, fun k h d name hh hd => hs.find_eq hh hd name, hs.whole⟩
  obtain ⟨d', hd', hm⟩ := (hs.settled k).cached h hh
  cases hd.symm.trans hd'
  exact hm.table

omit [DecidableEq Dev] in
theorem coherent_start {disk : Dev × ℕ → Option Directory}
    (h : ∀ k d, disk k = some d → WellFormed d.blocks) : (start disk).Coherent :=
  ⟨fun k => ⟨h k, fun _ hh => nomatch hh⟩, rfl⟩

section

variable (hs : s.Coherent) (hreads : ∀ n, o.reads n = none)

include hs hreads

theorem Coherent.namei (dp : Dev × ℕ)
    (name : FileName) : (s.namei o dp name).1.Coherent ∧ (s.namei o dp name).1.disk = s.disk ∧
      ∀ d, s.disk dp = some d →
        (s.namei o dp name).2 = Keyed.find bytesOf name.val (entries d.blocks) := by
  have hload : (s.load o dp 0).Coherent := hs.load (hreads 0)
  refine ⟨hload.evict _, disk_load 0, fun d hd => ?_⟩
  obtain ⟨h, hh⟩ := load_cached (o := o) hd 0
  exact hload.find_eq hh (by rw [disk_load, hd]) name.val

theorem Coherent.namei_found (dp : Dev × ℕ)
    (name : FileName) (e : HashEntry) (h : (s.namei o dp name).2 = some e) :
    ∃ d, s.disk dp = some d ∧ Keyed.find bytesOf name.val (entries d.blocks) = some e := by
  have hload : (s.load o dp 0).Coherent := hs.load (hreads 0)
  obtain ⟨x, hx, -⟩ := Option.bind_eq_some_iff.mp h
  obtain ⟨d, hd, -⟩ := (hload.settled dp).cached x hx
  rw [disk_load] at hd
  exact ⟨d, hd, ((hs.namei hreads dp name).2.2 d hd).symm.trans h⟩

theorem Coherent.call {c : DirCall Dev} (hmeets : s.CallMeets o c) : (s.call o c).Coherent := by
  cases c with
  | lookup dp name => exact hs.load (hreads 0)
  | direnter dp name ino =>
    obtain ⟨hs', hdisk, hfind⟩ := hs.namei hreads dp name
    simp only [CallMeets] at hmeets
    simp only [DirState.call]
    generalize s.namei o dp name = answer at hs' hdisk hfind hmeets
    obtain ⟨s', found⟩ := answer
    cases found with
    | some e => exact hs'
    | none =>
      refine hs'.direnter hreads ino.ne_zero (fun d hd hmem => ?_) (hmeets rfl)
      obtain ⟨e, he, rfl⟩ := List.mem_map.mp hmem
      have hnone := hfind d (hdisk ▸ hd)
      have := List.find?_eq_none.mp hnone.symm e he
      simp at this
  | dirremove dp name =>
    obtain ⟨hs', hdisk, -⟩ := hs.namei hreads dp name
    have hfound := hs.namei_found hreads dp name
    simp only [DirState.call]
    generalize s.namei o dp name = answer at hs' hdisk hfound
    obtain ⟨s', found⟩ := answer
    cases found with
    | none => exact hs'
    | some e =>
      obtain ⟨d, hd, he⟩ := hfound e rfl
      have hmeets' : s'.RemoveMeets o dp name := by
        rw [RemoveMeets, hdisk]
        exact hmeets
      rcases hs'.dirremove_cases hreads hmeets' (hdisk ▸ hd) he 1 with heq | hdrops
      · exact Eq.mpr (congrArg Coherent heq) (hs'.load (hreads 2))
      · exact hdrops.coherent
  | dirrewrite dp name ino =>
    obtain ⟨hs', hdisk, -⟩ := hs.namei hreads dp name
    have hfound := hs.namei_found hreads dp name
    simp only [DirState.call]
    generalize s.namei o dp name = answer at hs' hdisk hfound
    obtain ⟨s', found⟩ := answer
    cases found with
    | none => exact hs'
    | some e =>
      obtain ⟨d, hd, he⟩ := hfound e rfl
      have hmeets' : s'.RewriteMeets o dp name := by
        rw [RewriteMeets, hdisk]
        exact hmeets
      exact (hs'.dirrewrite_drops hreads hmeets' (hdisk ▸ hd) he ino.ne_zero).coherent
  | inval p => exact hs.evict p

end

theorem Coherent.next (hs : s.Coherent) {e : DiskOutcome Dev × DirCall Dev} (hmeets : s.Meets e)
    (h : s.next e = some s') : s'.Coherent := by
  cases h
  exact hs.call hmeets.1 hmeets.2

end DirState

theorem directory_cache_coherent {Dev : Type} [DecidableEq Dev] {disk : Dev × ℕ → Option Directory}
    (hdisk : ∀ k d, disk k = some d → WellFormed d.blocks) {s : DirState Dev}
    (hrun : ReflTransGen (Under next Meets) (.start disk) s) : s.Sound :=
  (invariant (fun _ _ _ hs hmeets h => Coherent.next hs hmeets h) hrun (coherent_start hdisk)).sound

namespace DirSample

def fileName (c : UInt8) : FileName := ⟨[c], by simp [maxnamlen]⟩

def dot : FileName := fileName 0x2e

def dotdot : FileName := ⟨[0x2e, 0x2e], by simp [maxnamlen]⟩

def dirTemplate (ino parent : ℕ) : List DirBlock := [[⟨ino, 12, dot⟩, ⟨parent, 500, dotdot⟩]]

def home : Unit × ℕ := ((), 4)

def disk : Unit × ℕ → Option Directory := fun k =>
  if k = home then some ⟨dirTemplate 4 2, 0⟩ else none

def fine : DiskOutcome Unit := ⟨fun _ _ => false, fun _ => none, none, true, true, []⟩

def evicting : DiskOutcome Unit := { fine with evict := fun n k => n = 1 && k = home }

def create (c : UInt8) (ino : ℕ+) : DirCall Unit := .direnter home (fileName c) ino

theorem disk_formed (k : Unit × ℕ) (d : Directory) (h : disk k = some d) : WellFormed d.blocks := by
  rw [disk] at h
  split at h
  · cases h
    refine ⟨?_, by decide⟩
    intro b hb
    obtain rfl := List.mem_singleton.mp hb
    exact ⟨by decide, by decide, by decide⟩
  · cases h

def worked : List (DiskOutcome Unit × DirCall Unit) :=
  [(fine, create 0x61 5), (fine, create 0x62 6), (fine, .dirremove home (fileName 0x61)),
    (fine, .dirrewrite home (fileName 0x62) 7)]

end DirSample

theorem directory_cache_coherent_worked : ∃ s,
    exec next (.start DirSample.disk) DirSample.worked = some s ∧
      (s.find DirSample.home [0x61] = none ∧
        (s.find DirSample.home [0x62]).map HashEntry.ino = some 7) ∧ s.Sound := by
  have h : check next (.start DirSample.disk) DirSample.worked (fun s =>
      decide (s.find DirSample.home [0x61] = none ∧
        (s.find DirSample.home [0x62]).map HashEntry.ino = some 7)) = true := by
    decide +kernel
  obtain ⟨s, hs, ht⟩ := exec_of_check h
  have hreads : ∀ e ∈ DirSample.worked, ∀ n, e.1.reads n = none := by
    simp [DirSample.worked, DirSample.fine]
  exact ⟨s, hs, of_decide_eq_true ht, directory_cache_coherent DirSample.disk_formed
    (run_of_exec (admits_meets hreads (by decide +kernel)) hs)⟩

theorem evicted_directory_listed_twice : ∃ s, exec next (.start DirSample.disk)
    [(DirSample.evicting, DirSample.create 0x61 5)] = some s ∧ ¬s.Sound := by
  have h : check next (.start DirSample.disk)
      [(DirSample.evicting, DirSample.create 0x61 5)] (fun s =>
        (s.cache DirSample.home).any fun h => (s.disk DirSample.home).any fun d =>
          decide (h.table.length = 4 ∧ (entries d.blocks).length = 3)) = true := by
    decide +kernel
  obtain ⟨s, hs, ht⟩ := exec_of_check h
  obtain ⟨h, hh, ht⟩ := (Option.any_eq_true _ _).mp ht
  obtain ⟨d, hd, ht⟩ := (Option.any_eq_true _ _).mp ht
  refine ⟨s, hs, fun hsound => ?_⟩
  have hlen := (hsound.table _ h d hh hd).length_eq
  obtain ⟨hfour, hthree⟩ := of_decide_eq_true ht
  omega

end MachUS.Ufs
