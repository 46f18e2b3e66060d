import MachUS.Ufs.BufferViews

namespace MachUS.Ufs

open Function ReadPhase List Owner Ledger BufEntry Or

namespace ReadCache

variable {Thread β : Type} [DecidableEq Thread] {s : ReadCache Thread β} {g : Ledger Thread}
  {t : Thread} {bp i blksize page : ℕ} {r : BlockRange} {why : Linking β} {cur : CacheNode}

theorem cursor_next {l pre : List ℕ} {chain : LinkRing CacheNode} {head : CacheNode}
    (hring : chain.Holds head (l.map .desc)) (h : Cursor l pre CacheNode.desc head (.desc bp))
    (hhead : ∀ x, head ≠ .desc x) :
    Cursor l (pre ++ [bp]) CacheNode.desc head (chain.next (.desc bp)) ∧ bp ∈ l := by
  obtain ⟨post, rfl, hcur⟩ := h
  cases post with
  | nil => exact absurd hcur.symm (hhead bp)
  | cons x post =>
    obtain rfl : bp = x := CacheNode.desc.inj hcur
    refine ⟨⟨post, by simp, ?_⟩, by simp⟩
    rw [map_append, map_cons] at hring
    rw [hring.next_eq, head?_map]

theorem cursor_end {l pre : List ℕ} {head : CacheNode} (h : Cursor l pre CacheNode.desc head head)
    (hhead : ∀ x, head ≠ .desc x) : pre = l := by
  obtain ⟨post, rfl, hcur⟩ := h
  cases post with
  | nil => simp
  | cons x post => exact absurd hcur (hhead x)

omit [DecidableEq Thread] in
theorem Inv.plain (h : s.Inv g) {ph : ReadPhase β} (hph : s.phase t = ph) : ph.Plain :=
  hph ▸ h.threads.plain t

omit [DecidableEq Thread] in
theorem Inv.hashed (h : s.Inv g) : bp ∈ g.bucket i ↔
    (g.entry bp).owner.InHash ∧ s.bucketOf bp = i := (h.settled bp).bucket i

omit [DecidableEq Thread] in
theorem Inv.inRegion (h : s.Inv g) (hr : (g.entry bp).owner.Ranged) :
    (s.desc bp).range.InRegion := (h.settled bp).region hr

omit [DecidableEq Thread] in
theorem assert_true {b : Bool} (hb : b = true) : s.assert b = s := by
  simp [ReadCache.assert, hb]

omit [DecidableEq Thread] in
theorem Inv.notMem_unlinked (h : s.Inv g) (j : ℕ) : bp ∉
    (g.withBucket (s.bucketOf bp) ((g.bucket (s.bucketOf bp)).erase bp)).bucket j := by
  by_cases hj : j = s.bucketOf bp
  · subst hj
    have hnd : (g.bucket (s.bucketOf bp)).Nodup := h.rings.nodup_bucket (cacheHash_lt _)
    simp [hnd.not_mem_erase]
  · simp only [withBucket, update_of_ne hj]
    exact fun hmem => hj (h.hashed.mp hmem).2.symm

omit [DecidableEq Thread] in
theorem Inv.asleep (h : s.Inv g) (howner : ∀ t', (g.entry bp).owner ≠ .thread t' .taking) :
    s.sleepers bp = [] := by
  refine eq_nil_iff_forall_not_mem.mpr fun t' ht' => howner t' (h.owner ?_)
  have hsl := (h.threads.sleeping t' bp).mp ht'
  cases hph : s.phase t' <;> rw [hph] at hsl <;> simp [sleeping] at hsl
  rw [hsl]
  rfl

omit [DecidableEq Thread] in
theorem Inv.stays_apart (h : s.Inv g) {d : BufDesc β} (hin : (g.entry bp).owner.InHash)
    (hd : d.range = (s.desc bp).range) (y : ℕ) (hy : y ≠ bp) (hyin : (g.entry y).owner.InHash) :
    d.range.Apart (s.desc y).range := by
  rw [hd]
  exact h.apart bp y hy.symm hin hyin

theorem Inv.pop_free (h : s.Inv g) (ha : s.Alert) (hph : s.phase t = .acquire r blksize)
    (hnext : s.chain.next .rfree = .desc bp) :
    ((s.popFree bp).goto t (.fill r blksize bp)).Sane := by
  obtain ⟨l, hl⟩ : ∃ l, g.free = bp :: l := by
    have hfirst := h.rings.free.first
    rw [hnext] at hfirst
    cases hl : g.free with
    | nil => simp [hl] at hfirst
    | cons x l =>
      obtain rfl : bp = x := by simpa [hl] using hfirst
      exact ⟨l, rfl⟩
  have hset := h.settled bp
  have howner : (g.entry bp).owner = .free := hset.free.mp (by simp [view, hl])
  have hfits := hset.fits
  simp only [view, Fits, howner] at hfits
  obtain ⟨-, hop, hhook, -⟩ := hfits
  have hnd := h.rings.nodup_free
  rw [hl, nodup_cons] at hnd
  let e' : BufEntry Thread := { g.entry bp with owner := .thread t .filling }
  have hh : Handles s ((s.popFree bp).goto t (.fill r blksize bp)) g ((g.withFree l).put bp e') t bp
      (.fill r blksize bp) e' := by
    refine ⟨rfl, rfl, ?_, (h.rings.popFree h.listsApart hl).put, fun x hx => ?_, ?_, ?_,
      fun _ _ => rfl, h.awake bp, h.openedOnce, h.hitsOnce, False.elim, rfl, inl rfl, by simp [hph]⟩
    · constructor <;> grind [role, hooking, operating]
    · apply view_eq <;> simp [popFree, hx, hl]
    · have hpop := hset.popped howner (t := t)
      simpa [view, put, withFree, e', popFree, hnd.1] using hpop
    · exact h.quiet hph rfl rfl (h.plain hph :) (keeps_desc rfl) rfl rfl rfl rfl (fun _ _ _ => rfl)
        (fun _ _ => rfl) trivial rfl
  exact h.sane hh (fun x _ => ha x) (by simp) (by simp [howner])

theorem Inv.alloc (h : s.Inv g) (ha : s.Alert) {rl : Option Thread} {ph : ReadPhase β}
    (hph : s.phase t = ph) (hrole : ph.role = none) (hhook : ph.hooking = none)
    (hoper : ph.operating = none) (hpanic : ∀ r, ph ≠ .panicked r)
    (ho : Orderly s ((s.lockReclaim rl).alloc t r blksize) g
      (g.put s.made { g.entry s.made with owner := .thread t .filling }) t (.fill r blksize s.made)) :
    ((s.lockReclaim rl).alloc t r blksize).Sane := by
  have hset := h.settled s.made
  have howner : (g.entry s.made).owner = .unmade := hset.unmade.mp le_rfl
  have hfits := hset.fits
  simp only [view, Fits, howner] at hfits
  have hh : Handles s ((s.lockReclaim rl).alloc t r blksize) g
      (g.put s.made { g.entry s.made with owner := .thread t .filling }) t s.made
      (.fill r blksize s.made) { g.entry s.made with owner := .thread t .filling } := by
    refine ⟨rfl, rfl, ?_, h.rings.put, fun x hx => ?_, ?_, ho, fun _ _ => rfl, fun hsl => ?_,
      h.openedOnce, h.hitsOnce, False.elim, rfl, inl rfl, by simpa [hph] using hpanic⟩
    · constructor <;> grind [role, hooking, operating]
    · apply view_eq <;> simp [ReadCache.alloc, hx]
      omega
    · have hnew := hset.allocated howner (t := t)
      have hmade : ¬s.made + 1 ≤ s.made := by omega
      simpa [view, ReadCache.alloc, hmade] using hnew
    · have := h.awake s.made hsl
      simpa [ReadCache.alloc] using this
  exact h.sane hh (fun x _ => ha x) (by simp) (by simp [howner])

omit [DecidableEq Thread] in
theorem Inv.reclaim_next (h : s.Inv g) {pre post : List ℕ} (hl : g.reclaim = pre ++ [bp] ++ post) :
    s.reclaimChain.prev (some bp) = pre.getLast? := by
  have hring := h.rings.reclaim
  rw [hl, append_assoc, map_append] at hring
  have hprev : s.reclaimChain.prev (some bp) = ((pre.map some).getLast?).getD none :=
    LinkRing.Holds.prev_eq hring
  rw [hprev, getLast?_map]
  cases pre.getLast? <;> rfl

section

variable (h : s.Inv g)

include h

omit [DecidableEq Thread] in
theorem Inv.reclaimable (hbp : bp ∈ g.reclaim) (hst : (s.desc bp).state = .cachedValid) :
    (g.entry bp).owner = .linked ∧ (g.entry bp).op = .none ∧ (g.entry bp).hooker = none := by
  have hfits := (h.settled bp).fits
  simp only [view, Fits, Cached, Claimed, Over, hst] at hfits
  grind

theorem Inv.reclaim_take (ha : s.Alert) (hph : s.phase t = .reclaim r blksize (some bp))
    (hst : (s.desc bp).state = .cachedValid) :
    ((((s.setState bp .limbo).unlinkReclaim bp).lockReclaim none).goto t
      (.evict r blksize bp)).Sane := by
  obtain ⟨pre, post, hl, hcur⟩ : ∃ pre post, g.reclaim = pre ++ post ∧ some bp = pre.getLast? := by
    have := h.threads.placed t
    rw [hph] at this
    exact this
  have hbp : bp ∈ g.reclaim := by
    rw [hl]
    exact mem_append_left _ (mem_of_getLast? hcur.symm)
  obtain ⟨howner, hop, hhook⟩ := h.reclaimable hbp hst
  have hset := h.settled bp
  have hlisted : s.record.reclaimable bp = true := hset.reclaimable.mpr hbp
  have hnd := h.rings.nodup_reclaim
  let e' : BufEntry Thread := { g.entry bp with owner := .thread t .evicting }
  let s' := (((s.setState bp .limbo).unlinkReclaim bp).lockReclaim none).goto t (.evict r blksize bp)
  have hdesc : ∀ x, x ≠ bp → s'.desc x = s.desc x := fun x hx => update_of_ne hx _ _
  have hh : Handles s s' g ((g.withReclaim (g.reclaim.erase bp)).put bp e') t bp
      (.evict r blksize bp) e' := by
    refine ⟨rfl, rfl, ?_, (h.rings.unlinkReclaim hbp).put, fun x hx => ?_, ?_, ?_, fun _ _ => rfl,
      fun hsl => ?_, h.openedOnce, h.hitsOnce, fun _ => ?_, ?_, inl rfl, by simp [hph]⟩
    · constructor <;> grind [role, hooking, operating]
    · apply view_eq <;> simp [s', unlinkReclaim, hx, mem_erase_of_ne]
    · have hnew := hset.reclaimed howner hst hbp (t := t)
      simpa [s', e', view, unlinkReclaim, hnd.not_mem_erase] using hnew
    · exact h.unlockReclaim hph rfl rfl (h.plain hph :) (keeps_at hdesc (inl (by simp [s', ReadCache.goto,
        unlinkReclaim]))) rfl rfl rfl rfl rfl rfl
        (fun _ => rfl) trivial rfl
    · cases (h.awake bp hsl).symm.trans hst
    · exact h.stays_apart (by simp [howner, InHash]) (by simp [s', unlinkReclaim])
    · simp [s', unlinkReclaim, hlisted]
  exact h.sane hh (fun x _ => ha x) (by simp) (by simp [howner])

theorem Inv.detach (ha : s.Alert) {ph ph' : ReadPhase β} {ro ro' : Role}
    (hph : s.phase t = ph) (hl : ph.Loose) (hrole : ph.role = some (bp, ro))
    (hhook : ph.hooking = none) (hoper : ph.operating = none) (hl' : ph'.Loose)
    (hrole' : ph'.role = some (bp, ro')) (hhook' : ph'.hooking = none) (hoper' : ph'.operating = none)
    (hplain : ph'.Plain) (hnew' : ∀ x r, ph' ≠ .woken x r) (hin : (thread t ro).InHash)
    (hout : ¬(thread t ro').InHash) (hro : ro ≠ .taking)
    (hfree : s.hashLock (s.bucketOf bp) = none) (hnew : BufView.Settled { s.view g bp with
      entry := { g.entry bp with owner := .thread t ro' }, bucket := fun _ => False,
      linked := false }) : ((s.unlinkRead bp).goto t ph').Sane := by
  have howner : (g.entry bp).owner = .thread t ro := h.owner (hph ▸ hrole)
  have hin : (g.entry bp).owner.InHash := howner ▸ hin
  have hmem : bp ∈ g.bucket (s.bucketOf bp) := h.hashed.mpr ⟨hin, rfl⟩
  have hlinked : s.record.linked bp = true := (h.settled bp).linked.mpr hin
  have hopers := h.tokens.operating t bp
  have hhooks := h.tokens.hooking t bp
  rw [hph] at hopers hhooks
  let e' : BufEntry Thread := { g.entry bp with owner := .thread t ro' }
  let s' := (s.unlinkRead bp).goto t ph'
  have hh : Handles s s' g ((g.withBucket (s.bucketOf bp) ((g.bucket (s.bucketOf bp)).erase bp)).put
      bp e') t bp ph' e' := by
    refine ⟨rfl, rfl, ?_, (h.rings.unlinkRead h.listsApart hmem (cacheHash_lt _)).put,
      fun x hx => ?_, ?_, ?_, fun _ _ => rfl, h.awake bp, h.openedOnce, h.hitsOnce,
      fun hin' => absurd hin' hout, ?_, inl rfl, hph ▸ Loose.ne_panicked hl⟩
    · constructor <;> grind
    · refine view_eq ?_ ?_ ?_ (fun _ => mem_unlinked hx) ?_ ?_ ?_ ?_ ?_ ?_ ?_ <;>
        simp [s', unlinkRead, hx]
    · have hgone := @Inv.notMem_unlinked _ _ _ _ bp h
      simp only [withBucket] at hgone
      simpa [s', e', view, unlinkRead, hgone] using hnew
    · refine h.loose hph (Loose.sleeping hl) (Loose.sleeping hl') hplain hl hl' (keeps_desc rfl) rfl
        rfl (fun j hj => ?_) (fun _ => rfl) rfl
      have hne : j ≠ s.bucketOf bp := by
        rintro rfl
        exact hj hfree
      exact update_of_ne hne _ _
    · simp [s', unlinkRead, hlinked]
  refine h.sane hh (fun x _ => ha x) hnew' fun t' _ ht' => ?_
  rw [howner] at ht'
  cases ht'
  exact absurd rfl hro

theorem Inv.evict (ha : s.Alert) (hph : s.phase t = .evict r blksize bp)
    (hfree : s.hashLock (s.bucketOf bp) = none) :
    ((s.unlinkRead bp).goto t (.strip r blksize bp)).Sane :=
  h.detach ha hph trivial rfl rfl rfl trivial rfl rfl rfl (h.plain hph :) nofun trivial id nofun hfree
    ((h.settled bp).evicted (h.owner (by rw [hph]; rfl)))

theorem Inv.strip (ha : s.Alert) (hph : s.phase t = .strip r blksize bp) :
    ((s.setDesc bp (s.desc bp).initBuf).goto t (.fill r blksize bp)).Sane := by
  have howner : (g.entry bp).owner = .thread t .filling := h.owner (by rw [hph]; rfl)
  have hset := h.settled bp
  have hfits := hset.fits
  simp only [view, Fits, howner] at hfits
  let s' := (s.setDesc bp (s.desc bp).initBuf).goto t (.fill r blksize bp)
  have hdesc : ∀ x, x ≠ bp → s'.desc x = s.desc x := fun x hx => update_of_ne hx _ _
  have hh : Handles s s' g (g.put bp (g.entry bp)) t bp (.fill r blksize bp) (g.entry bp) := by
    refine ⟨rfl, rfl, ?_, h.rings.put, fun x hx => ?_, ?_, ?_, fun _ _ => rfl, fun hsl => ?_,
      h.openedOnce, h.hitsOnce, fun hin => ?_, rfl, inl rfl, by simp [hph]⟩
    · constructor <;> grind [role, hooking, operating]
    · apply view_eq <;> simp [s', hx]
    · have hnew := hset.stripped howner
      simpa [s', view] using hnew
    · exact h.quiet hph rfl rfl (h.plain hph :) (keeps_at hdesc (inr ⟨.filling, howner, by
        simp [howner, InHash]⟩)) rfl rfl rfl rfl (fun _ _ _ => rfl) (fun _ _ => rfl) trivial rfl
    · simpa [s', BufDesc.initBuf] using h.awake bp hsl
    · simp [howner, InHash] at hin
  exact h.sane hh (fun x _ => ha x) (by simp) (by simp [howner])

theorem Inv.fill (ha : s.Alert) (hph : s.phase t = .fill r blksize bp) :
    (s.fill t bp r blksize).Sane := by
  have hr : r.InRegion := h.plain hph
  have howner : (g.entry bp).owner = .thread t .filling := h.owner (by rw [hph]; rfl)
  have hset := h.settled bp
  have hfits := hset.fits
  simp only [view, Fits, howner] at hfits
  let e' : BufEntry Thread := { g.entry bp with owner := .thread t (.linking true), op := .soon }
  have hdesc : ∀ x, x ≠ bp → (s.fill t bp r blksize).desc x = s.desc x :=
    fun x hx => update_of_ne hx _ _
  have hasleep : s.sleepers bp = [] := h.asleep (by simp [howner])
  have hh : Handles s (s.fill t bp r blksize) g (g.put bp e') t bp (.link bp .setup) e' := by
    refine ⟨rfl, rfl, ?_, h.rings.put, fun x hx => ?_, ?_, ?_, fun _ _ => rfl, fun hsl => ?_,
      h.openedOnce, h.hitsOnce, False.elim, rfl, inl ?_, by simp [hph]⟩
    · constructor <;> grind [role, hooking, operating, Linking.fresh]
    · apply view_eq <;> simp [ReadCache.fill, hx]
    · have hnew := hset.filled howner hr (n := blksize)
      simpa [ReadCache.fill, e', view] using hnew
    · exact h.quiet hph rfl rfl trivial (keeps_at hdesc (inr ⟨.filling, howner, by
        simp [howner, InHash]⟩)) rfl rfl rfl rfl (fun _ _ _ => rfl) (fun _ _ => rfl) trivial rfl
    · exact absurd hasleep hsl
    · simp [ReadCache.fill, hr]
  exact h.sane hh (fun x _ => ha x) (by simp) (by simp [howner])

theorem Inv.link_in (ha : s.Alert) (hph : s.phase t = .scan bp why (.bucket (s.bucketOf bp))) :
    (((s.linkRead bp).lockHash (s.bucketOf bp) none).goto t (.hook bp why)).Sane := by
  have howner : (g.entry bp).owner = .thread t (.linking why.fresh) := h.owner (by rw [hph]; rfl)
  have hset := h.settled bp
  obtain ⟨hhook, hop⟩ := hset.installing howner
  simp only [view] at hhook hop
  have hout : g.Out bp := h.out (by simp [howner]) (by simp [howner, InHash])
  have hregion : (s.desc bp).range.InRegion := h.inRegion (by simp [howner, Ranged])
  obtain ⟨pre, hcur, hpre⟩ : ∃ pre, Cursor (g.bucket (s.bucketOf bp)) pre CacheNode.desc
      (.bucket (s.bucketOf bp)) (.bucket (s.bucketOf bp)) ∧
      ∀ x ∈ pre, ¬(s.desc x).range.Conflicts (s.desc bp).range := by
    have := h.threads.placed t
    rw [hph] at this
    exact this
  obtain rfl := cursor_end hcur (by simp)
  have hlinked : s.record.linked bp = false := by
    have := hset.linked
    simp only [view, howner, InHash] at this
    simpa using this
  let e' : BufEntry Thread := { g.entry bp with owner := .linked, hooker := some (t, why.fresh) }
  let s' := ((s.linkRead bp).lockHash (s.bucketOf bp) none).goto t (.hook bp why)
  have hh : Handles s s' g ((g.withBucket (s.bucketOf bp) (bp :: g.bucket (s.bucketOf bp))).put
      bp e') t bp (.hook bp why) e' := by
    refine ⟨rfl, rfl, ?_, (h.rings.linkRead h.listsApart hout (cacheHash_lt _)).put,
      fun x hx => ?_, ?_, ?_, fun _ _ => rfl, h.awake bp, h.openedOnce, h.hitsOnce,
      fun _ y hy hin => ?_, ?_, inl rfl, by simp [hph]⟩
    · constructor <;> grind [role, hooking, operating]
    · refine view_eq ?_ ?_ ?_ (fun j => mem_linked hx) ?_ ?_ ?_ ?_ ?_ ?_ ?_ <;>
        simp [s', linkRead, hx]
    · have hnew := hset.linkedIn howner
      have hin := fun j => hout.mem_linked (i := s.bucketOf bp) (j := j)
      simp only [withBucket, bucketOf] at hin
      simpa [s', e', view, linkRead, hin, bucketOf] using hnew
    · exact h.unlock hph rfl rfl trivial (keeps_desc rfl) rfl rfl rfl rfl rfl rfl
        (fun j hj => update_of_ne hj _ _) rfl trivial rfl
    · by_cases hsame : s.bucketOf y = s.bucketOf bp
      · exact (BlockRange.apart_of_not_conflicts (hpre y (h.hashed.mpr ⟨hin, hsame⟩))).symm
      · exact BlockRange.apart_of_hash_ne hregion (h.inRegion (ranged_of_inHash hin))
          (Ne.symm hsame)
    · simp [s', linkRead, hlinked]
  exact h.sane hh (fun x _ => ha x) (by simp) (by simp [howner])

theorem Inv.give_up (ha : s.Alert) {reply : ReadReply β} (hph : s.phase t = .scan bp why cur) :
    ((s.lockHash (s.bucketOf bp) none).goto t (.free bp (.done reply))).Sane := by
  have howner : (g.entry bp).owner = .thread t (.linking why.fresh) := h.owner (by rw [hph]; rfl)
  have hset := h.settled bp
  obtain ⟨hhook, hop⟩ := hset.installing howner
  simp only [view] at hhook hop
  let e' : BufEntry Thread := { g.entry bp with owner := .thread t .freeing, op := .none }
  let s' := (s.lockHash (s.bucketOf bp) none).goto t (.free bp (.done reply))
  have hh : Handles s s' g (g.put bp e') t bp (.free bp (.done reply)) e' := by
    refine ⟨rfl, rfl, ?_, h.rings.put, fun x hx => ?_, ?_, ?_, fun _ _ => rfl, h.awake bp,
      h.openedOnce, h.hitsOnce, False.elim, rfl, inl rfl, by simp [hph]⟩
    · constructor <;> grind [role, hooking, operating]
    · apply view_eq <;> simp [s', hx]
    · have hnew := hset.givenUp howner
      simpa [s', e', view] using hnew
    · exact h.unlock hph rfl rfl trivial (keeps_desc rfl) rfl rfl rfl rfl rfl rfl
        (fun _ _ => rfl) rfl trivial rfl
  exact h.sane hh (fun x _ => ha x) (by simp) (by simp [howner])

theorem Inv.hooked (ha : s.Alert) (hph : s.phase t = .hook bp why)
    (hfree : s.reclaimLock = none) : (s.hooked t bp why).Sane := by
  have hhook : (g.entry bp).hooker = some (t, why.fresh) :=
    (h.tokens.hooking t bp _).mp (by rw [hph]; rfl)
  have hset := h.settled bp
  obtain ⟨hout, hnot, hsoon, hnone⟩ := hset.hooking hhook
  simp only [view] at hout hnot hsoon hnone
  have hlisted : s.record.reclaimable bp = false := by
    have := hset.reclaimable
    simpa [view, hout] using this
  have hrole := h.tokens.role t bp
  rw [hph] at hrole
  have hfresh : why.fresh = true → bp ∉ s.opened := by
    intro hwhy hmem
    have hop := hset.opened.mp hmem
    simp [view, hsoon hwhy] at hop
  let e' : BufEntry Thread :=
    { g.entry bp with hooker := none, op := if why.fresh then .opened else (g.entry bp).op }
  have hh (reply : ReadReply β) (o : List ℕ) (ho : o = if why.fresh then bp :: s.opened else s.opened) :
      Handles s ({ s.linkReclaim bp with opened := o }.goto t (.idle reply)) g
        ((g.withReclaim (bp :: g.reclaim)).put bp e') t bp (.idle reply) e' := by
    refine ⟨rfl, rfl, ?_, (h.rings.linkReclaim hout).put, fun x hx => ?_, ?_, ?_, fun _ _ => rfl,
      h.awake bp, ?_, h.hitsOnce, fun hin => ?_, ?_, inl rfl, by simp [hph]⟩
    · constructor <;> grind [role, hooking, operating]
    · subst ho
      cases why.fresh <;> apply view_eq <;> simp [linkReclaim, hx]
    · have hnew := hset.hookedIn hhook
      subst ho
      cases hwhy : why.fresh <;> simpa [e', view, linkReclaim, hwhy] using hnew
    · refine h.quiet hph rfl rfl trivial (keeps_desc rfl) rfl rfl rfl rfl (fun _ _ _ => rfl)
        (fun hl _ => absurd hfree hl) trivial rfl
    · subst ho
      split
      · exact nodup_cons.mpr ⟨hfresh ‹_›, h.openedOnce⟩
      · exact h.openedOnce
    · exact h.stays_apart hin rfl
    · simp [linkReclaim, hlisted]
  cases why with
  | setup => exact h.sane (hh _ _ rfl) (fun x _ => ha x) (by simp) fun t' _ hown => absurd hown (hnone t')
  | reinstall data =>
    exact h.sane (hh _ _ rfl) (fun x _ => ha x) (by simp) fun t' _ hown => absurd hown (hnone t')

end

end ReadCache

end MachUS.Ufs
