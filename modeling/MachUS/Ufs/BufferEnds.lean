import MachUS.Ufs.BufferSteps

namespace MachUS.Ufs

open ReadPhase

namespace ReadCache

variable {Thread β : Type} [DecidableEq Thread] {s : ReadCache Thread β} {g : Ledger Thread}
  {t : Thread} {bp i page err : ℕ} {r : BlockRange} {n : Next β} {ph ph' : ReadPhase β}

omit [DecidableEq Thread] in
theorem Inv.cached (h : s.Inv g) (hmem : bp ∈ g.bucket i)
    (hst : (s.desc bp).state ≠ .limbo) (hst' : (s.desc bp).state ≠ .mustFree) :
    (g.entry bp).owner = .linked := by
  have hin := (h.hashed.mp hmem).1
  have hfits := (h.settled bp).fits
  simp only [view, BufEntry.Fits] at hfits
  revert hin hfits
  rcases (g.entry bp).owner with _ | _ | _ | _ | ⟨t', _ | _ | _ | (_ | _) | _ | _ | _ | _⟩ <;>
    simp [Owner.InHash] <;> grind

section

variable (h : s.Inv g)

include h

omit [DecidableEq Thread] in
theorem Inv.visited (hph : s.phase t = .search r (.desc bp) ∨
    s.phase t = .remove r (.desc bp)) : bp ∈ g.bucket (cacheHash r.blkno) := by
  have hplaced := h.threads.placed t
  obtain ⟨pre, hcur⟩ : ∃ pre, Cursor (g.bucket (cacheHash r.blkno)) pre CacheNode.desc
      (.bucket (cacheHash r.blkno)) (.desc bp) := by
    rcases hph with hph | hph <;> rw [hph] at hplaced <;> exact hplaced
  exact (cursor_next (h.rings.bucket _ (cacheHash_lt _)) hcur nofun).2

theorem Inv.take_out (ha : s.Alert) {st : BufState} {k : Unhooking β} {ro : Role}
    (hph : s.phase t = ph) (hlock : s.lockOf ph = some i) (hsl : ph.sleeping = none)
    (hrec : ph.reclaiming = false) (hrole : ph.role = none) (hhook : ph.hooking = none)
    (hoper : ph.operating = none) (hpanic : ∀ r, ph ≠ .panicked r) (hmem : bp ∈ g.bucket i)
    (howner : (g.entry bp).owner = .linked) (hro : (unhook bp k).role = some (bp, ro))
    (hplain : (unhook bp k).Plain)
    (hnew : BufView.Settled { s.view g bp with
      entry := { g.entry bp with owner := .thread t ro }, bucket := fun _ => False,
      linked := false, desc := { s.desc bp with state := st } }) :
    ((((s.setState bp st).unlinkRead bp).lockHash i none).goto t (.unhook bp k)).Sane := by
  obtain ⟨hin, rfl⟩ := h.hashed.mp hmem
  have hlinked : s.record.linked bp = true := (h.settled bp).linked.mpr hin
  have hasleep : s.sleepers bp = [] := h.asleep (by simp [howner])
  have hrole' := h.tokens.role t bp
  have hhook' := h.tokens.hooking t bp
  have hoper' := h.tokens.operating t bp
  rw [hph] at hrole' hhook' hoper'
  let e' : BufEntry Thread := { g.entry bp with owner := .thread t ro }
  let s' := (((s.setState bp st).unlinkRead bp).lockHash (s.bucketOf bp) none).goto t (.unhook bp k)
  have hdesc : ∀ x, x ≠ bp → s'.desc x = s.desc x := fun x hx => Function.update_of_ne hx _ _
  have hh : Handles s s' g ((g.withBucket (s.bucketOf bp) ((g.bucket (s.bucketOf bp)).erase bp)).put
      bp e') t bp (.unhook bp k) e' := by
    refine ⟨rfl, rfl, ?_, (h.rings.unlinkRead h.listsApart hmem (cacheHash_lt _)).put,
      fun x hx => ?_, ?_, ?_, fun _ _ => rfl, fun hne => absurd hasleep hne, h.openedOnce,
      h.hitsOnce, ?_, ?_, Or.inl rfl, by simpa [hph] using hpanic⟩
    · have hhook₂ : (unhook bp k).hooking = none := by cases k <;> rfl
      have hoper₂ : (unhook bp k).operating = none := by cases k <;> rfl
      constructor <;> grind
    · refine view_eq ?_ ?_ ?_ (fun _ => Ledger.mem_unlinked hx) ?_ ?_ ?_ ?_ ?_ ?_ ?_ <;>
        simp [s', unlinkRead, hx]
    · have hout := @Inv.notMem_unlinked _ _ _ _ bp h
      simp only [Ledger.withBucket] at hout
      simpa [s', e', view, unlinkRead, hout] using hnew
    · refine h.unlock hph hsl ?_ hplain (keeps_at hdesc (Or.inl (by simp [s', unlinkRead]))) hlock
        rfl ?_ rfl hrec ?_ (fun j hj => Function.update_of_ne hj _ _) rfl ?_ rfl <;> cases k <;> trivial
    · intro hin'
      cases k <;> cases hro <;> exact absurd hin' (by simp [e', Owner.InHash])
    · simp [s', unlinkRead, hlinked]
  exact h.sane hh (fun x _ => ha x) (by cases k <;> simp) (by simp [howner])

theorem Inv.unhooked_give (ha : s.Alert) (hph : s.phase t = .unhook bp (.give r))
    (hfree : s.reclaimLock = none) (hhook : (g.entry bp).hooker = none) :
    (s.unhooked t bp (.give r)).Sane := by
  have howner : (g.entry bp).owner = .thread t .giving := h.owner (by rw [hph]; rfl)
  have hset := h.settled bp
  have hfits := hset.fits
  simp only [view, BufEntry.Fits, howner] at hfits
  have hmem : bp ∈ g.reclaim := hfits.2.mpr hhook
  have hlisted : s.record.reclaimable bp = true := hset.reclaimable.mpr hmem
  have hnd := h.rings.nodup_reclaim
  have hhit : bp ∉ s.hits.map Prod.fst := by
    intro hin
    have := hset.hit.mp hin
    simp [view, howner] at this
  have hoper := h.tokens.operating t bp
  rw [hph] at hoper
  let e' : BufEntry Thread := { g.entry bp with owner := .hit }
  have hh : Handles s (s.unhooked t bp (.give r)) g
      ((g.withReclaim (g.reclaim.erase bp)).put bp e') t bp (.idle (.search (some bp))) e' := by
    refine ⟨rfl, rfl, ?_, (h.rings.unlinkReclaim hmem).put, fun x hx => ?_, ?_, ?_, fun _ _ => rfl,
      h.awake bp, h.openedOnce, List.nodup_cons.mpr ⟨hhit, h.hitsOnce⟩, False.elim, ?_, Or.inl rfl,
      by simp [hph]⟩
    · constructor <;> grind [role, hooking, operating]
    · apply view_eq <;> simp [unhooked, unlinkReclaim, hx, List.mem_erase_of_ne hx]
    · have hnew := hset.given howner hhook
      simpa [e', view, unhooked, unlinkReclaim, hnd.not_mem_erase] using hnew
    · exact h.quiet hph rfl rfl trivial (keeps_desc rfl) rfl rfl rfl rfl (fun _ _ _ => rfl)
        (fun hl _ => absurd hfree hl) trivial rfl
    · simp [unhooked, unlinkReclaim, hlisted]
  exact h.sane hh (fun x _ => ha x) (by simp) (by simp [howner])

theorem Inv.unhooked_discard (ha : s.Alert)
    (hph : s.phase t = .unhook bp (.discard n)) (hfree : s.reclaimLock = none)
    (hhook : (g.entry bp).hooker = none) : (s.unhooked t bp (.discard n)).Sane := by
  have howner : (g.entry bp).owner = .thread t .discarding := h.owner (by rw [hph]; rfl)
  have hset := h.settled bp
  have hfits := hset.fits
  simp only [view, BufEntry.Fits, howner] at hfits
  have hmem : bp ∈ g.reclaim := hfits.2.2.mpr hhook
  have hlisted : s.record.reclaimable bp = true := hset.reclaimable.mpr hmem
  have hnd := h.rings.nodup_reclaim
  have hoper := h.tokens.operating t bp
  have hplain := h.threads.plain t
  rw [hph] at hoper hplain
  let e' : BufEntry Thread := { g.entry bp with owner := .thread t .freeing }
  have hh : Handles s (s.unhooked t bp (.discard n)) g
      ((g.withReclaim (g.reclaim.erase bp)).put bp e') t bp (.free bp n) e' := by
    refine ⟨rfl, rfl, ?_, (h.rings.unlinkReclaim hmem).put, fun x hx => ?_, ?_, ?_, fun _ _ => rfl,
      h.awake bp, h.openedOnce, h.hitsOnce, False.elim, ?_, Or.inl rfl, by simp [hph]⟩
    · constructor <;> grind [role, hooking, operating]
    · apply view_eq <;> simp [unhooked, unlinkReclaim, hx, List.mem_erase_of_ne hx]
    · have hnew := hset.discarded howner hhook
      simpa [e', view, unhooked, unlinkReclaim, hnd.not_mem_erase] using hnew
    · exact h.quiet hph rfl rfl hplain (keeps_desc rfl) rfl rfl rfl rfl (fun _ _ _ => rfl)
        (fun hl _ => absurd hfree hl) trivial rfl
    · simp [unhooked, unlinkReclaim, hlisted]
  exact h.sane hh (fun x _ => ha x) (by simp) (by simp [howner])

theorem Inv.begin_take (ha : s.Alert) {reply : ReadReply β}
    (hph : s.phase t = .idle reply) (hmem : (bp, r) ∈ s.hits) :
    Sane { s.goto t (.take bp r) with hits := s.hits.erase (bp, r) } := by
  have hset := h.settled bp
  have hin : bp ∈ s.hits.map Prod.fst := List.mem_map.mpr ⟨_, hmem, rfl⟩
  have howner : (g.entry bp).owner = .hit := hset.hit.mp hin
  have hperm : (s.hits.map Prod.fst).Perm (bp :: (s.hits.erase (bp, r)).map Prod.fst) :=
    (List.perm_cons_erase hmem).map Prod.fst
  have hnd := hperm.nodup_iff.mp h.hitsOnce
  rw [List.nodup_cons] at hnd
  have hoper := h.tokens.operating t bp
  have hhook := h.tokens.hooking t bp
  rw [hph] at hoper hhook
  let e' : BufEntry Thread := { g.entry bp with owner := .thread t .taking }
  let s' : ReadCache Thread β := { s.goto t (.take bp r) with hits := s.hits.erase (bp, r) }
  have hh : Handles s s' g (g.put bp e') t bp (.take bp r) e' := by
    refine ⟨rfl, rfl, ?_, h.rings.put, fun x hx => ?_, ?_, ?_, fun _ _ => rfl, h.awake bp,
      h.openedOnce, hnd.2, False.elim, rfl, Or.inl rfl, by simp [hph]⟩
    · constructor <;> grind [role, hooking, operating]
    · refine view_eq ?_ ?_ ?_ ?_ ?_ ?_ ?_ ?_ ?_ ?_ ?_ <;> simp [s', hx]
    · have hnew := hset.taken howner (t := t)
      have hout : (bp ∈ (s.hits.erase (bp, r)).map Prod.fst) = False := eq_false hnd.1
      simpa only [s', e', view, ReadCache.goto, Ledger.put, Function.update_self, hout] using hnew
    · exact h.quiet hph rfl rfl trivial (keeps_desc rfl) rfl rfl rfl rfl (fun _ _ _ => rfl)
        (fun _ _ => rfl) trivial rfl
  exact h.sane hh (fun x _ => ha x) (by simp) (by simp [howner])

theorem Inv.begin_report (ha : s.Alert) {reply : ReadReply β}
    (hph : s.phase t = .idle reply) (hmem : bp ∈ s.opened) (hrole : ph'.role = none)
    (hhook : ph'.hooking = none) (hoper : ph'.operating = some bp) (hplain : ph'.Plain) :
    Sane { s.goto t ph' with opened := s.opened.erase bp } := by
  have hset := h.settled bp
  have hop : (g.entry bp).op = .opened := hset.opened.mp hmem
  have hrole' := h.tokens.role t bp
  have hhook' := h.tokens.hooking t bp
  rw [hph] at hrole' hhook'
  let e' : BufEntry Thread := { g.entry bp with op := .thread t }
  let s' : ReadCache Thread β := { s.goto t ph' with opened := s.opened.erase bp }
  have hh : Handles s s' g (g.put bp e') t bp ph' e' := by
    refine ⟨rfl, rfl, ?_, h.rings.put, fun x hx => ?_, ?_, ?_, fun _ _ => rfl, h.awake bp,
      h.openedOnce.erase bp, h.hitsOnce, fun hin => ?_, rfl, Or.inl rfl, by simp [hph]⟩
    · constructor <;> grind [role, hooking, operating]
    · apply view_eq <;> simp [s', hx, List.mem_erase_of_ne hx]
    · have hnew := hset.called hop (t := t)
      simpa [s', e', view, h.openedOnce.not_mem_erase] using hnew
    · refine h.quiet hph rfl ?_ hplain (keeps_desc rfl) rfl ?_ rfl ?_ (fun _ _ _ => rfl)
        (fun _ _ => rfl) ?_ rfl <;> cases ph' <;> simp_all [operating, lockOf] <;> trivial
    · exact h.stays_apart hin rfl
  refine ⟨_, h.handle hh, ha.pass hh.phase (fun x r hx => ?_) rfl⟩
  rw [hx] at hoper
  simp [operating] at hoper

end

end ReadCache

end MachUS.Ufs

namespace MachUS.Ufs

open Function Or

namespace ReadCache

variable {Thread β : Type} [DecidableEq Thread] {s : ReadCache Thread β} {g : Ledger Thread}
  {t : Thread} {bp i page err : ℕ} {r : BlockRange} {n : Next β} {ph ph' : ReadPhase β}
  {d : BufDesc β} {data : Option (List β)}

omit [DecidableEq Thread] in
theorem Inv.sleepers_eq (h : s.Inv g) {t' : Thread} (ht' : t' ∈ s.sleepers bp) :
    s.sleepers bp = [t'] ∧ (∃ r, s.phase t' = .wait bp r) := by
  have htaking {t₁ : Thread} (ht₁ : t₁ ∈ s.sleepers bp) : ∃ r, s.phase t₁ = .wait bp r := by
    have hsl := (h.threads.sleeping t₁ bp).mp ht₁
    cases hph : s.phase t₁ <;> rw [hph] at hsl <;> simp [ReadPhase.sleeping] at hsl
    exact ⟨_, by rw [hsl]⟩
  have hone (t₁ : Thread) (ht₁ : t₁ ∈ s.sleepers bp) : t₁ = t' := by
    obtain ⟨r₁, hr₁⟩ := htaking ht₁
    obtain ⟨r', hr'⟩ := htaking ht'
    have h₁ : (g.entry bp).owner = .thread t₁ .taking := h.owner (by rw [hr₁]; rfl)
    have h' : (g.entry bp).owner = .thread t' .taking := h.owner (by rw [hr']; rfl)
    rw [h₁] at h'
    cases h'
    rfl
  refine ⟨?_, htaking ht'⟩
  have hnd := h.threads.sleepers bp
  cases hl : s.sleepers bp with
  | nil => simp [hl] at ht'
  | cons x l =>
    rw [hl] at hone hnd
    cases l with
    | nil => rw [hone x (by simp)]
    | cons y l =>
      have hx := hone x (by simp)
      have hy := hone y (by simp)
      simp [hx, hy] at hnd

theorem wakeup_setDesc : (s.setDesc bp d).wakeup bp = (s.wakeup bp).setDesc bp d := by
  simp only [wakeup, setDesc]
  cases s.sleepers bp <;> rfl

@[simp]
theorem wakeup_desc : (s.wakeup bp).desc = s.desc := by
  simp only [wakeup]
  cases s.sleepers bp <;> rfl

@[simp]
theorem wakeup_view (x : ℕ) : (s.wakeup bp).view g x = s.view g x := by
  simp only [wakeup]
  cases s.sleepers bp <;> rfl

theorem Inv.wakeup (h : s.Inv g) (bp : ℕ) :
    (s.wakeup bp).Inv g ∧ (s.wakeup bp).sleepers bp = [] := by
  cases hl : s.sleepers bp with
  | nil => simpa [ReadCache.wakeup, hl] using h
  | cons t l =>
    obtain ⟨hone, r, hph⟩ : s.sleepers bp = [t] ∧ ∃ r, s.phase t = .wait bp r :=
      h.sleepers_eq (by simp [hl])
    obtain rfl : l = [] := by simpa [hl] using hone
    have heq : s.wakeup bp = { s with
        phase := update s.phase t (.woken bp r)
        sleepers := update s.sleepers bp [] } := by
      simp [ReadCache.wakeup, hl, hph, rouse]
    rw [heq]
    have hupdate (x : ℕ) : update s.sleepers bp [] x = [] ∨
        update s.sleepers bp [] x = s.sleepers x := by
      by_cases hx : x = bp
      · subst hx
        simp
      · simp [hx]
    refine ⟨h.pass (fun x hx => ?_) ?_ ?_ ?_ ?_ ?_, by simp⟩
    · rcases hupdate x with hnil | hsame
      · exact absurd hnil hx
      · exact h.awake x (hsame ▸ hx)
    · rw [hph]
      rfl
    · rw [hph]
      rfl
    · rw [hph]
      rfl
    · simp [hph]
    · refine ⟨keeps_desc rfl, fun _ _ _ => Iff.rfl, fun j => ?_, fun _ _ => Iff.rfl, ?_,
        fun _ _ _ _ => rfl, fun _ _ _ => rfl, trivial, trivial, fun t' x ht' => ?_, fun x => ?_,
        fun x => ?_⟩
      · have := h.threads.hash j t
        rw [hph] at this
        exact this
      · have := h.threads.reclaim t
        rw [hph] at this
        exact this
      · by_cases hx : x = bp
        · subst hx
          simp [hl, ht']
        · simp [hx]
      · have := h.threads.sleeping t x
        rw [hph] at this
        by_cases hx : x = bp
        · subst hx
          simp [ReadPhase.sleeping]
        · simpa [hx, ReadPhase.sleeping, Ne.symm hx] using this
      · rcases hupdate x with hnil | hsame
        · change (update s.sleepers bp [] x).Nodup
          rw [hnil]
          exact List.nodup_nil
        · change (update s.sleepers bp [] x).Nodup
          rw [hsame]
          exact h.threads.sleepers x

theorem wakeup_phase (hsl : (s.phase t).sleeping = none) (h : s.Inv g) :
    (s.wakeup bp).phase t = s.phase t := by
  cases hl : s.sleepers bp with
  | nil => simp [ReadCache.wakeup, hl]
  | cons t' l =>
    obtain ⟨hone, r, hph⟩ : s.sleepers bp = [t'] ∧ ∃ r, s.phase t' = .wait bp r :=
      h.sleepers_eq (by simp [hl])
    have hne : t ≠ t' := by
      rintro rfl
      simp [hph, ReadPhase.sleeping] at hsl
    simp [ReadCache.wakeup, hl, hne]

theorem Alert.wakeup (ha : s.Alert) (h : s.Inv g) (x : ℕ) (hx : x ≠ bp) : (s.wakeup bp).AlertAt x := by
  intro t r hph
  cases hl : s.sleepers bp with
  | nil =>
    simp only [ReadCache.wakeup, hl] at hph ⊢
    exact ha x t r hph
  | cons t' l =>
    obtain ⟨hone, r', hph'⟩ : s.sleepers bp = [t'] ∧ ∃ r, s.phase t' = .wait bp r :=
      h.sleepers_eq (by simp [hl])
    simp only [ReadCache.wakeup, hl, hph', rouse] at hph ⊢
    by_cases ht : t = t'
    · subst ht
      simp only [update_self] at hph
      cases hph
      exact absurd rfl hx
    · rw [update_of_ne ht] at hph
      exact ha x t r hph

omit [DecidableEq Thread] in
theorem Inv.pending (h : s.Inv g) (hoper : (s.phase t).operating = some bp) :
    (g.entry bp).op = .thread t ∧ (g.entry bp).hooker = none ∧
      ((g.entry bp).owner = .linked ∧
        ((s.desc bp).state = .cachedNotValid ∨ (s.desc bp).state = .mustFree) ∨
      ((g.entry bp).owner = .hit ∨
          ∃ t, (g.entry bp).owner = .thread t .giving ∨ (g.entry bp).owner = .thread t .taking) ∧
        (s.desc bp).state = .claimedNotValid) := by
  have hop := (h.tokens.operating t bp).mp hoper
  have hset := h.settled bp
  exact ⟨hop, hset.pending (by simp [view, hop]) (by simp [view, hop])⟩

omit [DecidableEq Thread] in
theorem Inv.pending_state (h : s.Inv g) (hoper : (s.phase t).operating = some bp) :
    (s.desc bp).state = .cachedNotValid ∨ (s.desc bp).state = .claimedNotValid ∨
      (s.desc bp).state = .mustFree := by
  obtain ⟨-, -, ⟨-, hst | hst⟩ | ⟨-, hst⟩⟩ := h.pending hoper <;> simp [hst]

theorem Inv.end_op (h : s.Inv g) (ha : ∀ x, x ≠ bp → s.AlertAt x) {own : Owner Thread}
    (hoper : (s.phase t).operating = some bp) (hasleep : s.sleepers bp = [])
    (hown : own = (g.entry bp).owner ∧ ph'.role = none ∨
      (g.entry bp).owner = .linked ∧ own = .thread t .unlinking ∧ ph'.role = some (bp, .unlinking))
    (hdone : (g.entry bp).owner = .linked ∨ d.state = .claimedValid ∨ d.state = .mustFree)
    (hrange : d.range = (s.desc bp).range) (hhook' : ph'.hooking = none)
    (hoper' : ph'.operating = none) (hl' : ph'.Loose) (hnew' : ∀ x r, ph' ≠ .woken x r)
    (hplain : ph'.Plain) (hnew : BufView.Settled { s.view g bp with
      entry := { g.entry bp with owner := own, op := .none }, desc := d }) :
    ((s.setDesc bp d).goto t ph').Sane := by
  obtain ⟨hop, hhook, -⟩ := h.pending hoper
  obtain ⟨hrole, hhook₂, hl⟩ := reporting hoper
  have hroles := h.tokens.role t bp
  let e' : BufEntry Thread := { g.entry bp with owner := own, op := .none }
  let s' := (s.setDesc bp d).goto t ph'
  have hdesc : ∀ x, x ≠ bp → s'.desc x = s.desc x := fun x hx => update_of_ne hx _ _
  have hh : Handles s s' g (g.put bp e') t bp ph' e' := by
    refine ⟨rfl, rfl, ?_, h.rings.put, fun x hx => ?_, ?_, ?_, fun _ _ => rfl,
      fun hsl => absurd hasleep hsl, h.openedOnce, h.hitsOnce, fun hin => ?_, rfl, inl rfl,
      Loose.ne_panicked hl⟩
    · constructor <;> grind
    · apply view_eq <;> simp [s', hx]
    · simpa [s', e', view] using hnew
    · exact h.loose rfl (Loose.sleeping hl) (Loose.sleeping hl') hplain hl hl'
        (keeps_at hdesc (inl (by simp [s', hrange]))) rfl rfl (fun _ _ => rfl) (fun _ => rfl) rfl
    · refine h.stays_apart ?_ (by simp [s', hrange])
      rcases hown with ⟨rfl, -⟩ | ⟨hlinked, -⟩
      · exact hin
      · simp [hlinked, Owner.InHash]
  refine h.sane hh ha hnew' fun t' _ ht' => ?_
  rcases hdone with hlinked | hstate
  · simp [hlinked] at ht'
  · simpa [s'] using hstate

theorem resume_eq (hn : n.Plain) : ∃ ph', s.resume t n = s.goto t ph' ∧ ph'.role = none ∧
    ph'.hooking = none ∧ ph'.operating = none ∧ ph'.Loose ∧ ph'.Plain ∧ ∀ x r, ph' ≠ .woken x r := by
  cases n with
  | done reply => exact ⟨_, rfl, rfl, rfl, rfl, trivial, trivial, nofun⟩
  | remove r => exact ⟨_, rfl, rfl, rfl, rfl, trivial, trivial, nofun⟩
  | finish bp data => exact hn.elim

section

variable (h : s.Inv g) (ha : s.Alert)

include h ha

theorem Inv.end_claimed (hoper : (s.phase t).operating = some bp)
    (hst : (s.desc bp).state = .claimedNotValid) (hd : d.state = .claimedValid ∨ d.state = .mustFree)
    (hrange : d.range = (s.desc bp).range) (hrole : ph'.role = none) (hhook' : ph'.hooking = none)
    (hoper' : ph'.operating = none) (hl' : ph'.Loose) (hnew' : ∀ x r, ph' ≠ .woken x r)
    (hplain : ph'.Plain) : (((s.setDesc bp d).wakeup bp).goto t ph').Sane := by
  obtain ⟨hop, -⟩ := h.pending hoper
  obtain ⟨hw, hasleep⟩ := h.wakeup bp
  have hphase : (s.wakeup bp).phase t = s.phase t :=
    wakeup_phase (Loose.sleeping (reporting hoper).2.2) h
  rw [wakeup_setDesc]
  refine hw.end_op (ha.wakeup h) (hphase ▸ hoper) hasleep (inl ⟨rfl, hrole⟩) (inr hd) ?_ hhook'
    hoper' hl' hnew' hplain ?_
  · rw [wakeup_desc, hrange]
  · rw [wakeup_view]
    exact (h.settled bp).concluded hop hst hrange hd

theorem Inv.abortRead (hph : s.phase t = .abort bp err n) : (s.abortRead t bp err n).Sane := by
  have hoper : (s.phase t).operating = some bp := by rw [hph]; rfl
  have hplain := h.threads.plain t
  rw [hph] at hplain
  obtain ⟨hop, hhook, hcase⟩ := h.pending hoper
  have hstate := h.pending_state hoper
  rw [ReadCache.abortRead, assert_true (by simpa [or_assoc] using hstate)]
  rcases hcase with ⟨hlinked, hst⟩ | ⟨hclaimed, hst⟩
  · simp only [if_pos hst]
    exact h.end_op (fun x _ => ha x) hoper (h.asleep (by simp [hlinked]))
      (inr ⟨hlinked, rfl, rfl⟩) (inl hlinked) rfl rfl rfl trivial nofun hplain
      ((h.settled bp).abandoned hop hst)
  · simp only [hst, reduceCtorEq, or_self, if_false]
    obtain ⟨ph', hres, hrole, hhook', hoper', hl', hplain', hnew'⟩ :=
      resume_eq (s := (s.setDesc bp { s.desc bp with state := .mustFree, error := err }).wakeup bp)
        (t := t) hplain
    rw [hres]
    exact h.end_claimed ha hoper hst (inr rfl) rfl hrole hhook' hoper' hl' hnew' hplain'

theorem Inv.finishRead (hph : s.phase t = .finish bp data) : (s.finishRead t bp data).Sane := by
  have hoper : (s.phase t).operating = some bp := by rw [hph]; rfl
  have hset := h.settled bp
  obtain ⟨hop, hhook, hcase⟩ := h.pending hoper
  have hstate := h.pending_state hoper
  rw [ReadCache.finishRead, assert_true (by simpa [or_assoc] using hstate)]
  rcases hcase with ⟨hlinked, hst | hst⟩ | ⟨hclaimed, hst⟩
  · simp only [hst]
    exact h.end_op (fun x _ => ha x) hoper (h.asleep (by simp [hlinked])) (inl ⟨rfl, rfl⟩)
      (inl hlinked) rfl rfl rfl trivial nofun trivial (hset.validated hop hst rfl rfl)
  · simp only [hst]
    exact h.end_op (fun x _ => ha x) hoper (h.asleep (by simp [hlinked]))
      (inr ⟨hlinked, rfl, rfl⟩) (inl hlinked) rfl rfl rfl trivial nofun trivial
      (hset.dismissed hop hst rfl rfl)
  · simp only [hst]
    exact h.end_claimed ha hoper hst (inl rfl) rfl rfl rfl rfl trivial nofun trivial

theorem Inv.unlink (hph : s.phase t = .unlink bp n) (hfree : s.hashLock (s.bucketOf bp) = none) :
    ((s.unlinkRead bp).goto t (.unhook bp (.discard n))).Sane := by
  have hplain := h.threads.plain t
  rw [hph] at hplain
  exact h.detach ha hph trivial rfl rfl rfl trivial rfl rfl rfl hplain nofun trivial id nofun hfree
    ((h.settled bp).unlinked (h.owner (by rw [hph]; rfl)))

end

end ReadCache

end MachUS.Ufs
