import MachUS.Ufs.BufferEnds

namespace MachUS.Ufs

open Function ReadPhase List

namespace ReadCache

variable {Thread β : Type} [DecidableEq Thread] {s : ReadCache Thread β} {g : Ledger Thread}
  {t : Thread} {bp i page err : ℕ} {r : BlockRange} {n : Next β} {ph ph' : ReadPhase β}
  {d : BufDesc β} {cur : CacheNode}

theorem Inv.hand_on (h : s.Inv g) (ha : s.Alert) {ro : Role} (hph : s.phase t = ph)
    (hl : ph.Loose) (hrole : ph.role = some (bp, .taking)) (hhook : ph.hooking = none)
    (hoper : ph.operating = none) (hst : (s.desc bp).state ≠ .claimedNotValid) (hl' : ph'.Loose)
    (hrole' : ph'.role = some (bp, ro)) (hhook' : ph'.hooking = none) (hoper' : ph'.operating = none)
    (hplain : ph'.Plain) (hnew' : ∀ x r, ph' ≠ .woken x r) (hout : ¬(Owner.thread t ro).InHash)
    (hnew : BufView.Settled { s.view g bp with
      entry := { g.entry bp with owner := .thread t ro }, desc := d }) :
    ((s.setDesc bp d).goto t ph').Sane := by
  have howner : (g.entry bp).owner = .thread t .taking := h.owner (hph ▸ hrole)
  have hasleep : s.sleepers bp = [] := by
    by_contra hne
    exact hst (h.awake bp hne)
  have hopers := h.tokens.operating t bp
  have hhooks := h.tokens.hooking t bp
  rw [hph] at hopers hhooks
  let e' : BufEntry Thread := { g.entry bp with owner := .thread t ro }
  let s' := (s.setDesc bp d).goto t ph'
  have hdesc : ∀ x, x ≠ bp → s'.desc x = s.desc x := fun x hx => update_of_ne hx _ _
  have hh : Handles s s' g (g.put bp e') t bp ph' e' := by
    refine ⟨rfl, rfl, ?_, h.rings.put, fun x hx => ?_, ?_, ?_, fun _ _ => rfl,
      fun hne => absurd hasleep hne, h.openedOnce, h.hitsOnce, fun hin => absurd hin hout, rfl,
      Or.inl rfl, hph ▸ Loose.ne_panicked hl⟩
    · constructor <;> grind
    · apply view_eq <;> simp [s', hx]
    · simpa [s', e', view] using hnew
    · exact h.loose hph (Loose.sleeping hl) (Loose.sleeping hl') hplain hl hl'
        (keeps_at hdesc (Or.inr ⟨_, howner, by simp [howner, Owner.InHash]⟩)) rfl rfl
        (fun _ _ => rfl) (fun _ => rfl) rfl
  refine h.sane hh (fun x _ => ha x) hnew' fun t' ht hown => ?_
  rw [howner] at hown
  cases hown
  exact absurd rfl ht

omit [DecidableEq Thread] in
theorem Inv.taking (h : s.Inv g) (hrole : (s.phase t).role = some (bp, .taking)) :
    (g.entry bp).owner = .thread t .taking ∧ ((s.desc bp).state = .claimedNotValid ∨
      (s.desc bp).state = .claimedValid ∨ (s.desc bp).state = .mustFree) := by
  have howner := h.owner hrole
  have hfits := (h.settled bp).fits
  simp only [view, BufEntry.Fits, howner, Claimed] at hfits
  exact ⟨howner, by tauto⟩

theorem shrink_inRegion {k : ℕ} (h : d.range.InRegion) (hp : d.Partial page k) :
    (d.shrink page k).range.InRegion := by
  refine h.drop ?_
  exact Nat.div_lt_of_lt_mul hp.2

section

variable (h : s.Inv g) (ha : s.Alert)

include h ha

theorem Inv.receive (hph : s.phase t = ph) (hl : ph.Loose)
    (hrole : ph.role = some (bp, .taking)) (hhook : ph.hooking = none) (hoper : ph.operating = none)
    (hst : (s.desc bp).state = .claimedValid ∨ (s.desc bp).state = .mustFree) :
    (s.receive page t bp r).Sane := by
  obtain ⟨howner, -⟩ := h.taking (hph ▸ hrole)
  have hset := h.settled bp
  have hregion : (s.desc bp).range.InRegion := h.inRegion (by simp [howner, Owner.Ranged])
  simp only [ReadCache.receive]
  by_cases hvalid : (s.desc bp).state = .claimedValid
  · rw [if_pos hvalid]
    split
    case isTrue hp =>
      exact h.hand_on ha hph hl hrole hhook hoper (by simp [hvalid]) trivial rfl rfl rfl trivial (by simp)
        id (hset.shrunk howner hvalid rfl (shrink_inRegion hregion hp))
    case isFalse =>
      exact h.hand_on ha hph hl hrole hhook hoper (by simp [hvalid]) trivial rfl rfl rfl trivial (by simp)
        id (hset.emptied howner hst)
  · rw [if_neg hvalid]
    have hsame : s.setDesc bp (s.desc bp) = s := by simp [setDesc]
    have hfree : (s.desc bp).state = .mustFree := hst.resolve_left hvalid
    rw [← hsame]
    exact h.hand_on ha hph hl hrole hhook hoper (by simp [hfree]) trivial rfl rfl rfl trivial (by simp) id
      (hset.emptied howner hst)

theorem Inv.wait (hph : s.phase t = .take bp r)
    (hst : (s.desc bp).state = .claimedNotValid) : Sane { s.goto t (.wait bp r) with
      sleepers := update s.sleepers bp (s.sleepers bp ++ [t]) } := by
  have hsl := h.threads.sleeping t
  rw [hph] at hsl
  have hupdate (x : ℕ) : x = bp ∧
      update s.sleepers bp (s.sleepers bp ++ [t]) x = s.sleepers bp ++ [t] ∨
      x ≠ bp ∧ update s.sleepers bp (s.sleepers bp ++ [t]) x = s.sleepers x := by
    by_cases hx : x = bp
    · subst hx
      simp
    · simp [hx]
  refine ⟨g, h.pass (fun x hx => ?_) (by rw [hph]; rfl) (by rw [hph]; rfl) (by rw [hph]; rfl)
    (by simp [hph]) ?_, ha.pass rfl nofun rfl⟩
  · rcases hupdate x with ⟨rfl, -⟩ | ⟨-, hsame⟩
    · exact hst
    · exact h.awake x (hsame ▸ hx)
  · refine ⟨keeps_desc rfl, fun _ _ _ => Iff.rfl, fun j => ?_, fun _ _ => Iff.rfl, ?_,
      fun _ _ _ _ => rfl, fun _ _ _ => rfl, trivial, trivial, fun t' x ht' => ?_, fun x => ?_,
      fun x => ?_⟩
    · have := h.threads.hash j t
      rw [hph] at this
      exact this
    · have := h.threads.reclaim t
      rw [hph] at this
      exact this
    all_goals dsimp only
    all_goals rcases hupdate x with ⟨rfl, heq⟩ | ⟨hx, heq⟩ <;> rw [heq]
    · simp [ht']
    · simp [sleeping]
    · simpa [sleeping, Ne.symm hx] using hsl x
    · refine nodup_append.mpr ⟨h.threads.sleepers x, nodup_singleton t, ?_⟩
      intro y hy z hz
      obtain rfl := mem_singleton.mp hz
      rintro rfl
      simp [hsl, sleeping] at hy
    · exact h.threads.sleepers x

theorem Inv.takeData (hph : s.phase t = .take bp r) : (s.takeData page t bp r).Sane := by
  have hrole : (s.phase t).role = some (bp, .taking) := by rw [hph]; rfl
  obtain ⟨howner, hst⟩ := h.taking hrole
  rw [ReadCache.takeData, assert_true (by simp; tauto)]
  rcases hst with hst | hst
  · simp only [hst, if_true]
    exact h.wait ha hph hst
  · have hne : (s.desc bp).state ≠ .claimedNotValid := by rcases hst with hst | hst <;> simp [hst]
    simp only [if_neg hne]
    exact h.receive ha hph trivial rfl rfl rfl hst

theorem Inv.wakeData (hph : s.phase t = .woken bp r) : (s.wakeData page t bp r).Sane := by
  have hst := ha bp t r hph
  rw [ReadCache.wakeData, assert_true (by simpa using hst)]
  exact h.receive ha hph trivial rfl rfl rfl hst

theorem Inv.free (hph : s.phase t = .free bp n) : ((s.freeRead bp).resume t n).Sane := by
  have howner : (g.entry bp).owner = .thread t .freeing := h.owner (by rw [hph]; rfl)
  have hset := h.settled bp
  have hout : g.Out bp := h.out (by simp [howner]) (by simp [howner, Owner.InHash])
  have hplain := h.threads.plain t
  have hopers := h.tokens.operating t bp
  have hhooks := h.tokens.hooking t bp
  rw [hph] at hplain hopers hhooks
  obtain ⟨ph', hres, hrole', hhook', hoper', hl', hplain', hnew'⟩ :=
    resume_eq (s := s.freeRead bp) (t := t) hplain
  rw [hres]
  have hop : (g.entry bp).op = .none := by
    have hfits := hset.fits
    simp only [view, BufEntry.Fits, howner] at hfits
    exact hfits.1
  have hproper : s.record.freed bp = false ∧ s.record.linked bp = false ∧ bp ∉ s.opened := by
    have hfreed := hset.freed
    have hlinked := hset.linked
    have hopened := hset.opened
    simp only [view, howner, hop, Owner.InHash] at hfreed hlinked hopened
    exact ⟨by simpa using hfreed, by simpa using hlinked, by simpa using hopened⟩
  let e' : BufEntry Thread := { g.entry bp with owner := .free }
  let s' := (s.freeRead bp).goto t ph'
  have hdesc : ∀ x, x ≠ bp → s'.desc x = s.desc x := fun x hx => update_of_ne hx _ _
  have hh : Handles s s' g ((g.withFree (g.free ++ [bp])).put bp e') t bp ph' e' := by
    refine ⟨rfl, rfl, ?_, (h.rings.freeRead h.listsApart hout).put, fun x hx => ?_, ?_, ?_,
      fun _ _ => rfl, fun hne => absurd (h.asleep (by simp [howner])) hne, h.openedOnce, h.hitsOnce,
      False.elim, ?_, Or.inl rfl, by simp [hph]⟩
    · constructor <;> grind [role, hooking, operating]
    · apply view_eq <;> simp [s', freeRead, hx]
    · have hnew := hset.freeing (d := { (s.desc bp).initBuf with state := .rfreeList }) howner rfl
      simpa [s', e', view, freeRead] using hnew
    · exact h.loose hph rfl (Loose.sleeping hl') hplain' trivial hl'
        (keeps_at hdesc (Or.inr ⟨_, howner, by simp [howner, Owner.InHash]⟩)) rfl rfl
        (fun _ _ => rfl) (fun _ => rfl) rfl
    · simp [s', freeRead, hproper]
  exact h.sane hh (fun x _ => ha x) hnew' (by simp [howner])

theorem Inv.doom (hph : s.phase t = .remove r (.desc bp))
    (hst : (s.desc bp).state = .cachedNotValid) (hrange : d.range = (s.desc bp).range)
    (hd : d.state = .mustFree) :
    ((s.goto t (.remove r (s.chain.next (.desc bp)))).setDesc bp d).Sane := by
  have hmem := h.visited (Or.inr hph)
  have howner := h.cached hmem (by simp [hst]) (by simp [hst])
  have hset := h.settled bp
  have hrole := h.tokens.role t bp
  have hopers := h.tokens.operating t bp
  have hhooks := h.tokens.hooking t bp
  have hplaced := h.threads.placed t
  rw [hph] at hrole hopers hhooks hplaced
  obtain ⟨pre, hcur⟩ := hplaced
  have hnext := (cursor_next (h.rings.bucket _ (cacheHash_lt _)) hcur (by simp)).1
  let s' := (s.goto t (.remove r (s.chain.next (.desc bp)))).setDesc bp d
  have hdesc : ∀ x, x ≠ bp → s'.desc x = s.desc x := fun x hx => update_of_ne hx _ _
  have hh : Handles s s' g (g.put bp (g.entry bp)) t bp (.remove r (s.chain.next (.desc bp)))
      (g.entry bp) := by
    refine ⟨rfl, rfl, ?_, h.rings.put, fun x hx => ?_, ?_, ?_, fun _ _ => rfl,
      fun hne => absurd (h.asleep (by simp [howner])) hne, h.openedOnce, h.hitsOnce, fun hin => ?_,
      rfl, Or.inl rfl, by simp [hph]⟩
    · constructor <;> grind [role, hooking, operating]
    · apply view_eq <;> simp [s', hx]
    · have hnew := hset.doomed howner hst hrange hd
      simpa [s', view] using hnew
    · exact h.quiet hph rfl rfl trivial (keeps_at hdesc (Or.inl (by simp [s', hrange]))) rfl rfl rfl
        rfl (fun _ _ _ => rfl) (fun _ _ => rfl) ⟨_, hnext⟩ rfl
    · exact h.stays_apart hin (by simp [s', hrange])
  exact h.sane hh (fun x _ => ha x) (by simp) (by simp [howner])

end

end ReadCache

def ReadPhase.halfLinked {β : Type} : ReadPhase β → Option ℕ
  | .hook bp _ => some bp
  | _ => none

namespace ReadCache

variable {Thread β : Type} [DecidableEq Thread] {s s' : ReadCache Thread β} {g : Ledger Thread}
  {t : Thread} {bp i page blksize : ℕ} {r : BlockRange} {why : Linking β} {ph ph' : ReadPhase β}
  {cur : CacheNode}

section Passing

variable (h : s.Inv g) (ha : s.Alert) (hph : s.phase t = ph)

include h ha hph

theorem Inv.move (hl : ph.Loose) (hl' : ph'.Loose) (hrole : ph'.role = ph.role)
    (hhook : ph'.hooking = ph.hooking) (hoper : ph'.operating = ph.operating) (hplain : ph'.Plain)
    (hnew : ∀ x r, ph' ≠ .woken x r) : (s.goto t ph').Sane :=
  ⟨g, h.goto hph (Loose.sleeping hl) (Loose.sleeping hl') hplain hrole hhook hoper
    (Loose.ne_panicked hl) (by rw [Loose.lockOf hl, Loose.lockOf hl'])
    (by rw [Loose.reclaiming hl, Loose.reclaiming hl']) (Loose.placed hl'), ha.pass rfl hnew rfl⟩

theorem Inv.enter_bucket (hl : ph.Loose) (hrole : ph'.role = ph.role)
    (hhook : ph'.hooking = ph.hooking) (hoper : ph'.operating = ph.operating) (hplain : ph'.Plain)
    (hnew : ∀ x r, ph' ≠ .woken x r) (hsl' : ph'.sleeping = none) (hrec' : ph'.reclaiming = false)
    (hlock' : s.lockOf ph' = some i) (hfree : s.hashLock i = none) (hplaced : s.Placed g ph') :
    ((s.lockHash i (some t)).goto t ph').Sane :=
  ⟨g, h.goto_locked hph (Loose.sleeping hl) hsl' hplain hrole hhook hoper (Loose.ne_panicked hl)
    hfree (Loose.lockOf hl) hlock' (Loose.reclaiming hl) hrec' hplaced, ha.pass rfl hnew rfl⟩

theorem Inv.leave_bucket (hsl : ph.sleeping = none) (hrec : ph.reclaiming = false)
    (hpanic : ∀ r, ph ≠ .panicked r) (hlock : s.lockOf ph = some i) (hl' : ph'.Loose)
    (hrole : ph'.role = ph.role) (hhook : ph'.hooking = ph.hooking)
    (hoper : ph'.operating = ph.operating) (hplain : ph'.Plain) (hnew : ∀ x r, ph' ≠ .woken x r) :
    ((s.lockHash i none).goto t ph').Sane :=
  ⟨g, h.goto_unlocked hph hsl (Loose.sleeping hl') hplain hrole hhook hoper hpanic hlock
    (Loose.lockOf hl') hrec (Loose.reclaiming hl') (Loose.placed hl'), ha.pass rfl hnew rfl⟩

end Passing

section

variable (h : s.Inv g)

include h

omit [DecidableEq Thread] in
theorem Inv.first (hi : i < ncacheHash) :
    Cursor (g.bucket i) [] CacheNode.desc (.bucket i) (s.chain.next (.bucket i)) := by
  refine cursor_head ?_
  rw [(h.rings.bucket i hi).first, head?_map]

theorem Inv.acquire (ha : s.Alert) (hph : s.phase t = .acquire r blksize)
    (hstep : s.proceed page t = some s') : s'.Sane := by
  simp only [proceed, hph] at hstep
  cases hnext : s.chain.next .rfree with
  | rfree =>
    rw [hnext] at hstep
    cases hstep
    exact h.move ha hph trivial trivial rfl rfl rfl (h.plain hph :) nofun
  | desc bp =>
    rw [hnext] at hstep
    cases hstep
    exact h.pop_free ha hph hnext
  | bucket j =>
    rw [hnext] at hstep
    cases hstep

theorem Inv.tryReclaim (ha : s.Alert) (hph : s.phase t = .tryReclaim r blksize)
    (hstep : s.proceed page t = some s') : s'.Sane := by
  simp only [proceed, hph] at hstep
  split at hstep
  case isTrue => cases hstep
  case isFalse hfree =>
    have hfree : s.reclaimLock = none := not_not.mp hfree
    split at hstep
    case isTrue =>
      cases hstep
      have hsame : s.lockReclaim s.reclaimLock = s := rfl
      rw [← hsame]
      refine h.alloc ha hph rfl rfl rfl (by simp) (h.loose hph rfl rfl (h.plain hph :) trivial trivial
        (keeps_at (fun x hx => update_of_ne hx _ _) (Or.inl ?_)) rfl rfl (fun _ _ => rfl)
        (fun _ => rfl) rfl)
      simp [ReadCache.alloc]
    case isFalse =>
      cases hstep
      refine ⟨g, ?_, ha.pass rfl (by simp) rfl⟩
      have hlast : ∃ pre post, g.reclaim = pre ++ post ∧ s.reclaimChain.prev none = pre.getLast? := by
        refine ⟨g.reclaim, [], by simp, ?_⟩
        rw [h.rings.reclaim.last, getLast?_map]
        cases g.reclaim.getLast? <;> rfl
      exact h.pass h.awake (by rw [hph]; rfl) (by rw [hph]; rfl) (by rw [hph]; rfl) (by simp [hph])
        (h.lockReclaim hph rfl rfl (h.plain hph :) hfree rfl rfl rfl hlast)

theorem Inv.reclaim (ha : s.Alert) {cur : Option ℕ}
    (hph : s.phase t = .reclaim r blksize cur) : (s.visitReclaim t r blksize cur).Sane := by
  cases cur with
  | none =>
    refine h.alloc ha hph rfl rfl rfl (by simp) (h.unlockReclaim hph rfl rfl (h.plain hph :)
      (keeps_at (fun x hx => update_of_ne hx _ _) (Or.inl ?_)) rfl rfl rfl rfl rfl rfl
      (fun _ => rfl) trivial rfl)
    simp [ReadCache.alloc]
  | some bp =>
    rw [visitReclaim]
    split
    case isTrue hst => exact h.reclaim_take ha hph hst
    case isFalse =>
      have hplaced := h.threads.placed t
      rw [hph] at hplaced
      obtain ⟨pre, post, hl, hcur⟩ := hplaced
      obtain ⟨pre', rfl⟩ := getLast?_eq_some_iff.mp hcur.symm
      refine ⟨g, h.goto hph rfl rfl (h.plain hph :) rfl rfl rfl (by simp) rfl rfl ?_,
        ha.pass rfl (by simp) rfl⟩
      exact ⟨pre', [bp] ++ post, by rw [hl]; simp, h.reclaim_next hl⟩

theorem Inv.link (ha : s.Alert) (hph : s.phase t = .link bp why)
    (hfree : s.hashLock (s.bucketOf bp) = none) : ((s.lockHash (s.bucketOf bp) (some t)).goto t
      (.scan bp why (s.chain.next (.bucket (s.bucketOf bp))))).Sane :=
  h.enter_bucket ha hph trivial rfl rfl rfl trivial nofun rfl rfl rfl hfree
    ⟨[], h.first (cacheHash_lt _), nofun⟩

theorem Inv.scan (ha : s.Alert) (hph : s.phase t = .scan bp why cur)
    (hstep : s.proceed page t = some s') : s'.Sane := by
  simp only [proceed, hph] at hstep
  split at hstep
  case isTrue hend =>
    subst hend
    cases hstep
    exact h.link_in ha hph
  case isFalse =>
    cases cur with
    | rfree => cases hstep
    | bucket j => cases hstep
    | desc x =>
      simp only [visitScan] at hstep
      split at hstep
      case isTrue =>
        cases hstep
        exact h.give_up ha hph
      case isFalse hclear =>
        cases hstep
        have hplaced := h.threads.placed t
        rw [hph] at hplaced
        obtain ⟨pre, hcur, hpre⟩ := hplaced
        have hnext := (cursor_next (h.rings.bucket _ (cacheHash_lt _)) hcur nofun).1
        refine ⟨g, h.goto hph rfl rfl trivial rfl rfl rfl nofun rfl rfl ⟨_, hnext, fun y hy => ?_⟩,
          ha.pass rfl nofun rfl⟩
        rcases mem_append.mp hy with hy | hy
        · exact hpre y hy
        · obtain rfl := mem_singleton.mp hy
          exact hclear

theorem Inv.search (ha : s.Alert) (hph : s.phase t = .search r cur)
    (hstep : s.proceed page t = some s') : s'.Sane := by
  simp only [proceed, hph] at hstep
  split at hstep
  case isTrue =>
    cases hstep
    exact h.leave_bucket ha hph rfl rfl nofun rfl trivial rfl rfl rfl trivial nofun
  case isFalse =>
    cases cur with
    | rfree => cases hstep
    | bucket j => cases hstep
    | desc bp =>
      have hmem := h.visited (Or.inl hph)
      simp only [visitSearch] at hstep
      split at hstep
      case isTrue hhit =>
        cases hstep
        have howner := h.cached hmem (by rcases hhit.2 with hst | hst <;> simp [hst])
          (by rcases hhit.2 with hst | hst <;> simp [hst])
        refine h.take_out ha hph rfl rfl rfl rfl rfl rfl nofun hmem howner rfl trivial ?_
        rcases hhit.2 with hst | hst
        · rw [if_pos hst]
          exact (h.settled bp).claimedValid howner hst
        · rw [if_neg (by simp [hst])]
          exact (h.settled bp).claimedNotValid howner hst
      case isFalse =>
        cases hstep
        have hplaced := h.threads.placed t
        rw [hph] at hplaced
        obtain ⟨pre, hcur⟩ := hplaced
        have hnext := (cursor_next (h.rings.bucket _ (cacheHash_lt _)) hcur nofun).1
        exact ⟨g, h.goto hph rfl rfl trivial rfl rfl rfl nofun rfl rfl ⟨_, hnext⟩,
          ha.pass rfl nofun rfl⟩

end

omit [DecidableEq Thread] in
theorem Inv.fail (h : s.Inv g) {b : Bool} (hp : ∃ t r, s.phase t = .panicked r) :
    (s.assert b).Inv g :=
  ⟨h.rings, h.settled, ⟨h.tokens.role, h.tokens.hooking, h.tokens.operating⟩,
    ⟨h.threads.hash, h.threads.reclaim, h.threads.placed, h.threads.plain, h.threads.sleeping,
      h.threads.sleepers⟩, h.awake, h.openedOnce, h.hitsOnce, h.apart, h.proper, fun _ => hp⟩

theorem Inv.remove (h : s.Inv g) (ha : s.Alert) (hph : s.phase t = .remove r cur)
    (hstep : s.proceed page t = some s') : s'.Sane := by
  simp only [proceed, hph] at hstep
  split at hstep
  case isTrue =>
    cases hstep
    exact h.leave_bucket ha hph rfl rfl nofun rfl trivial rfl rfl rfl trivial nofun
  case isFalse =>
    cases cur with
    | rfree => cases hstep
    | bucket j => cases hstep
    | desc bp =>
      have hmem := h.visited (Or.inr hph)
      have honward : (s.goto t (.remove r (s.chain.next (.desc bp)))).Sane := by
        have hplaced := h.threads.placed t
        rw [hph] at hplaced
        obtain ⟨pre, hcur⟩ := hplaced
        have hnext := (cursor_next (h.rings.bucket _ (cacheHash_lt _)) hcur nofun).1
        exact ⟨g, h.goto hph rfl rfl trivial rfl rfl rfl nofun rfl rfl ⟨_, hnext⟩,
          ha.pass rfl nofun rfl⟩
      have hpanic : ((s.goto t (.panicked r)).assert false).Sane := by
        have hgoto : (s.goto t (.panicked r)).Inv g :=
          h.goto hph rfl rfl trivial rfl rfl rfl nofun rfl rfl trivial
        exact ⟨g, hgoto.fail ⟨t, r, by simp⟩, ha.pass rfl nofun rfl⟩
      simp only [visitRemove] at hstep
      split at hstep
      case isFalse =>
        cases hstep
        exact honward
      case isTrue =>
        cases hst : (s.desc bp).state <;> rw [hst] at hstep <;> cases hstep
        case cachedNotValid => exact h.doom ha hph hst rfl rfl
        case cachedValid =>
          have howner := h.cached hmem (by simp [hst]) (by simp [hst])
          exact h.take_out ha hph rfl rfl rfl rfl rfl rfl nofun hmem howner rfl trivial
            ((h.settled bp).removed howner hst)
        case mustFree => exact honward
        all_goals exact hpanic

end ReadCache

end MachUS.Ufs
