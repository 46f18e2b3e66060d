import MachUS.Ufs.BufferLedger

namespace MachUS.Ufs

open Function

namespace ReadCache

variable {Thread β : Type} [DecidableEq Thread] {s s' : ReadCache Thread β}
  {g g' : Ledger Thread} {t : Thread} {bp i : ℕ} {ph ph' : ReadPhase β} {e e' : BufEntry Thread}

structure Turn (t : Thread) (bp : ℕ) (ph ph' : ReadPhase β) (e e' : BufEntry Thread) : Prop where
  role : ∀ x r, ph.role = some (x, r) → x = bp
  role' : ∀ x r, ph'.role = some (x, r) ↔ x = bp ∧ e'.owner = .thread t r
  owner : ∀ t' r, t' ≠ t → (e'.owner = .thread t' r ↔ e.owner = .thread t' r)
  hooking : ∀ x f, ph.hooking = some (x, f) → x = bp
  hooking' : ∀ x f, ph'.hooking = some (x, f) ↔ x = bp ∧ e'.hooker = some (t, f)
  hooker : ∀ t' f, t' ≠ t → (e'.hooker = some (t', f) ↔ e.hooker = some (t', f))
  operating : ∀ x, ph.operating = some x → x = bp
  operating' : ∀ x, ph'.operating = some x ↔ x = bp ∧ e'.op = .thread t
  op : ∀ t', t' ≠ t → (e'.op = .thread t' ↔ e.op = .thread t')

theorem Tokens.turn (h : s.Tokens g) (hphase : s'.phase = update s.phase t ph')
    (hentry : g'.entry = update g.entry bp e')
    (ht : Turn t bp (s.phase t) ph' (g.entry bp) e') : s'.Tokens g' := by
  constructor
  · intro t' x r
    rw [hphase, hentry]
    by_cases htt : t' = t
    · subst htt
      rw [update_self, ht.role']
      by_cases hx : x = bp
      · subst hx
        simp
      · rw [update_of_ne hx, ← h.role]
        exact iff_of_false (fun hh => hx hh.1) fun hh => hx (ht.role x r hh)
    · rw [update_of_ne htt, h.role]
      by_cases hx : x = bp
      · subst hx
        rw [update_self, ht.owner t' r htt]
      · rw [update_of_ne hx]
  · intro t' x f
    rw [hphase, hentry]
    by_cases htt : t' = t
    · subst htt
      rw [update_self, ht.hooking']
      by_cases hx : x = bp
      · subst hx
        simp
      · rw [update_of_ne hx, ← h.hooking]
        exact iff_of_false (fun hh => hx hh.1) fun hh => hx (ht.hooking x f hh)
    · rw [update_of_ne htt, h.hooking]
      by_cases hx : x = bp
      · subst hx
        rw [update_self, ht.hooker t' f htt]
      · rw [update_of_ne hx]
  · intro t' x
    rw [hphase, hentry]
    by_cases htt : t' = t
    · subst htt
      rw [update_self, ht.operating']
      by_cases hx : x = bp
      · subst hx
        simp
      · rw [update_of_ne hx, ← h.operating]
        exact iff_of_false (fun hh => hx hh.1) fun hh => hx (ht.operating x hh)
    · rw [update_of_ne htt, h.operating]
      by_cases hx : x = bp
      · subst hx
        rw [update_self, ht.op t' htt]
      · rw [update_of_ne hx]

omit [DecidableEq Thread] in
theorem Tokens.congr (h : s.Tokens g) (hentry : g'.entry = g.entry)
    (hrole : ∀ t, (s'.phase t).role = (s.phase t).role)
    (hhooking : ∀ t, (s'.phase t).hooking = (s.phase t).hooking)
    (hoperating : ∀ t, (s'.phase t).operating = (s.phase t).operating) : s'.Tokens g' := by
  refine ⟨fun t x r => ?_, fun t x f => ?_, fun t x => ?_⟩
  · rw [hrole, hentry]
    exact h.role t x r
  · rw [hhooking, hentry]
    exact h.hooking t x f
  · rw [hoperating, hentry]
    exact h.operating t x

def Keeps (s s' : ReadCache Thread β) (g : Ledger Thread) (t : Thread) : Prop :=
  ∀ x, (s'.desc x).range = (s.desc x).range ∨
    (¬(g.entry x).owner.InHash ∧ ∀ t' r, (g.entry x).owner = .thread t' r → t' = t)

omit [DecidableEq Thread] in
theorem lockOf_keeps (htok : s.Tokens g) (hk : Keeps s s' g t) {t' : Thread} (ht : t' ≠ t) :
    s'.lockOf (s.phase t') = s.lockOf (s.phase t') := by
  cases hph : s.phase t' with
  | scan x why cur =>
    have hrole : (g.entry x).owner = .thread t' (.linking why.fresh) :=
      (htok.role t' x _).mp (by rw [hph]; rfl)
    rcases hk x with hr | ⟨-, hr⟩
    · simp only [lockOf, bucketOf, hr]
    · exact absurd (hr t' _ hrole) ht
  | _ => rfl

omit [DecidableEq Thread] in
theorem placed_keeps (hset : ∀ x, (s.view g x).Settled) (htok : s.Tokens g)
    (hk : Keeps s s' g t) {t' : Thread} (ht : t' ≠ t)
    (hb : ∀ j, s.lockOf (s.phase t') = some j → g'.bucket j = g.bucket j)
    (hr : (s.phase t').reclaiming = true → g'.reclaim = g.reclaim)
    (h : s.Placed g (s.phase t')) : s'.Placed g' (s.phase t') := by
  cases hph : s.phase t' with
  | scan x why cur =>
    have hrole : (g.entry x).owner = .thread t' (.linking why.fresh) :=
      (htok.role t' x _).mp (by rw [hph]; rfl)
    have hrange : (s'.desc x).range = (s.desc x).range := by
      rcases hk x with heq | ⟨-, heq⟩
      · exact heq
      · exact absurd (heq t' _ hrole) ht
    rw [hph] at hb h
    obtain ⟨pre, hcur, hpre⟩ := h
    have hlock := hb _ rfl
    have hbucket : s'.bucketOf x = s.bucketOf x := by
      rw [bucketOf, hrange]
      rfl
    refine ⟨pre, ?_, fun y hy => ?_⟩
    · rw [hbucket, hlock]
      exact hcur
    · obtain ⟨post, hlist, -⟩ := hcur
      have hmem : y ∈ g.bucket (s.bucketOf x) := hlist ▸ List.mem_append_left _ hy
      rcases hk y with heq | ⟨hout, -⟩
      · rw [heq, hrange]
        exact hpre y hy
      · exact absurd (((hset y).bucket _).mp hmem).1 hout
  | search r cur =>
    rw [hph] at hb h
    obtain ⟨pre, hcur⟩ := h
    exact ⟨pre, (hb _ rfl).symm ▸ hcur⟩
  | remove r cur =>
    rw [hph] at hb h
    obtain ⟨pre, hcur⟩ := h
    exact ⟨pre, (hb _ rfl).symm ▸ hcur⟩
  | reclaim r blksize cur =>
    rw [hph] at hr h
    obtain ⟨pre, post, hlist, hcur⟩ := h
    exact ⟨pre, post, (hr rfl).trans hlist, hcur⟩
  | _ => trivial

structure Orderly (s s' : ReadCache Thread β) (g g' : Ledger Thread) (t : Thread)
    (ph' : ReadPhase β) : Prop where
  keeps : Keeps s s' g t
  hash : ∀ j t', t' ≠ t → (s'.hashLock j = some t' ↔ s.hashLock j = some t')
  hash' : ∀ j, s'.hashLock j = some t ↔ s'.lockOf ph' = some j
  reclaim : ∀ t', t' ≠ t → (s'.reclaimLock = some t' ↔ s.reclaimLock = some t')
  reclaim' : s'.reclaimLock = some t ↔ ph'.reclaiming = true
  buckets : ∀ j t', t' ≠ t → s.hashLock j = some t' → g'.bucket j = g.bucket j
  reclaims : ∀ t', t' ≠ t → s.reclaimLock = some t' → g'.reclaim = g.reclaim
  placed : s'.Placed g' ph'
  plain : ph'.Plain
  sleeping : ∀ t' x, t' ≠ t → (t' ∈ s'.sleepers x ↔ t' ∈ s.sleepers x)
  sleeping' : ∀ x, t ∈ s'.sleepers x ↔ ph'.sleeping = some x
  sleepers : ∀ x, (s'.sleepers x).Nodup

theorem Threads.turn (h : s.Threads g) (hset : ∀ x, (s.view g x).Settled) (htok : s.Tokens g)
    (hphase : s'.phase = update s.phase t ph') (ho : Orderly s s' g g' t ph') :
    s'.Threads g' := by
  have hother {t' : Thread} (ht : t' ≠ t) : s'.phase t' = s.phase t' := by
    rw [hphase, update_of_ne ht]
  have hself : s'.phase t = ph' := by
    rw [hphase, update_self]
  refine ⟨fun j t' => ?_, fun t' => ?_, fun t' => ?_, fun t' => ?_, fun t' x => ?_, ho.sleepers⟩
  all_goals by_cases ht : t' = t
  · subst ht
    rw [hself]
    exact ho.hash' j
  · rw [hother ht, ho.hash j t' ht, lockOf_keeps htok ho.keeps ht]
    exact h.hash j t'
  · subst ht
    rw [hself]
    exact ho.reclaim'
  · rw [hother ht, ho.reclaim t' ht]
    exact h.reclaim t'
  · subst ht
    rw [hself]
    exact ho.placed
  · rw [hother ht]
    refine placed_keeps hset htok ho.keeps ht (fun j hj => ?_) (fun hr => ?_) (h.placed t')
    · exact ho.buckets j t' ht ((h.hash j t').mpr hj)
    · exact ho.reclaims t' ht ((h.reclaim t').mpr hr)
  · subst ht
    rw [hself]
    exact ho.plain
  · rw [hother ht]
    exact h.plain t'
  · subst ht
    rw [hself]
    exact ho.sleeping' x
  · rw [hother ht, ho.sleeping t' x ht]
    exact h.sleeping t' x

theorem Inv.pass (h : s.Inv g) {hl : ℕ → Option Thread} {rl : Option Thread}
    {sl : ℕ → List Thread} (hawake : ∀ x, sl x ≠ [] → (s.desc x).state = .claimedNotValid)
    (hrole : ph'.role = (s.phase t).role) (hhooking : ph'.hooking = (s.phase t).hooking)
    (hoperating : ph'.operating = (s.phase t).operating)
    (hpanic : ∀ r, s.phase t ≠ .panicked r)
    (ho : Orderly s { s with
      phase := update s.phase t ph', hashLock := hl, reclaimLock := rl
      sleepers := sl } g g t ph') :
    Inv { s with
      phase := update s.phase t ph', hashLock := hl, reclaimLock := rl
      sleepers := sl } g := by
  have hsame {γ : Type} (f : ReadPhase β → γ) (hf : f ph' = f (s.phase t)) (t' : Thread) :
      f (update s.phase t ph' t') = f (s.phase t') := by
    by_cases ht : t' = t
    · subst ht
      rw [update_self, hf]
    · rw [update_of_ne ht]
  refine ⟨h.rings, h.settled, h.tokens.congr rfl (hsame _ hrole) (hsame _ hhooking)
    (hsame _ hoperating), h.threads.turn h.settled h.tokens rfl ho, hawake, h.openedOnce,
    h.hitsOnce, h.apart, h.proper, fun hf => ?_⟩
  obtain ⟨t', r, hr⟩ := h.failed hf
  refine ⟨t', r, ?_⟩
  have hne : t' ≠ t := by
    rintro rfl
    exact hpanic r hr
  exact (update_of_ne hne _ _).trans hr

structure Handles (s s' : ReadCache Thread β) (g g' : Ledger Thread) (t : Thread) (bp : ℕ)
    (ph' : ReadPhase β) (e' : BufEntry Thread) : Prop where
  phase : s'.phase = update s.phase t ph'
  entry : g'.entry = update g.entry bp e'
  turn : Turn t bp (s.phase t) ph' (g.entry bp) e'
  rings : Rings g' s'.chain s'.reclaimChain
  others : ∀ x, x ≠ bp → s'.view g' x = s.view g x
  settled : (s'.view g' bp).Settled
  orderly : Orderly s s' g g' t ph'
  asleep : ∀ x, x ≠ bp → s'.sleepers x = s.sleepers x
  awake : s'.sleepers bp ≠ [] → (s'.desc bp).state = .claimedNotValid
  openedOnce : s'.opened.Nodup
  hitsOnce : (s'.hits.map Prod.fst).Nodup
  apart : e'.owner.InHash → ∀ y, y ≠ bp → (g.entry y).owner.InHash →
    (s'.desc bp).range.Apart (s.desc y).range
  misused : s'.record.misused = s.record.misused
  failed : s'.record.failed = s.record.failed ∨ ∃ r, ph' = .panicked r
  panicked : ∀ r, s.phase t ≠ .panicked r

theorem Inv.handle (h : s.Inv g) (hh : Handles s s' g g' t bp ph' e') : s'.Inv g' := by
  have hself : g'.entry bp = e' := by
    rw [hh.entry, update_self]
  have hdesc {x : ℕ} (hx : x ≠ bp) : s'.desc x = s.desc x := congrArg BufView.desc (hh.others x hx)
  have hentry {x : ℕ} (hx : x ≠ bp) : g'.entry x = g.entry x :=
    congrArg BufView.entry (hh.others x hx)
  refine ⟨hh.rings, fun x => ?_, h.tokens.turn hh.phase hh.entry hh.turn,
    h.threads.turn h.settled h.tokens hh.phase hh.orderly, fun x hx => ?_, hh.openedOnce,
    hh.hitsOnce, fun x y hxy hx hy => ?_, hh.misused.trans h.proper, fun hf => ?_⟩
  · by_cases hx : x = bp
    · exact hx ▸ hh.settled
    · rw [hh.others x hx]
      exact h.settled x
  · by_cases hxb : x = bp
    · subst hxb
      exact hh.awake hx
    · rw [hh.asleep x hxb] at hx
      rw [hdesc hxb]
      exact h.awake x hx
  · by_cases hxb : x = bp
    · subst hxb
      rw [hself] at hx
      rw [hentry hxy.symm] at hy
      rw [hdesc hxy.symm]
      exact hh.apart hx y hxy.symm hy
    · rw [hentry hxb] at hx
      rw [hdesc hxb]
      by_cases hyb : y = bp
      · subst hyb
        rw [hself] at hy
        exact (hh.apart hy x hxb hx).symm
      · rw [hentry hyb] at hy
        rw [hdesc hyb]
        exact h.apart x y hxy hx hy
  · rcases hh.failed with heq | ⟨r, rfl⟩
    · obtain ⟨t', r, hr⟩ := h.failed (heq ▸ hf)
      have hne : t' ≠ t := by
        rintro rfl
        exact hh.panicked r hr
      exact ⟨t', r, by rw [hh.phase, update_of_ne hne, hr]⟩
    · exact ⟨t, r, by rw [hh.phase, update_self]⟩

end ReadCache

end MachUS.Ufs

namespace MachUS.Ufs

namespace ReadCache

variable {Thread β : Type} [DecidableEq Thread] {s s' : ReadCache Thread β}
  {g g' : Ledger Thread} {t : Thread} {bp i : ℕ} {ph ph' : ReadPhase β} {e e' : BufEntry Thread}
  {r : BlockRange}

def AlertAt (s : ReadCache Thread β) (x : ℕ) : Prop := ∀ t r, s.phase t = .woken x r →
  (s.desc x).state = .claimedValid ∨ (s.desc x).state = .mustFree

def Alert (s : ReadCache Thread β) : Prop := ∀ x, s.AlertAt x

def Sane (s : ReadCache Thread β) : Prop := ∃ g, s.Inv g ∧ s.Alert

omit [DecidableEq Thread] in
theorem Inv.owner (h : s.Inv g) {r : Role} (hr : (s.phase t).role = some (bp, r)) :
    (g.entry bp).owner = .thread t r := (h.tokens.role t bp r).mp hr

omit [DecidableEq Thread] in
theorem Inv.listsApart (h : s.Inv g) : g.Apart := by
  refine ⟨fun x i hx hx' => ?_, fun x i j hi hj => ?_⟩
  · have hfree := (h.settled x).free.mp hx
    have hin := (((h.settled x).bucket i).mp hx').1
    change (g.entry x).owner.InHash at hin
    change (g.entry x).owner = .free at hfree
    rw [hfree] at hin
    exact hin
  · exact (((h.settled x).bucket i).mp hi).2.symm.trans (((h.settled x).bucket j).mp hj).2

omit [DecidableEq Thread] in
theorem Inv.out (h : s.Inv g) (hfree : (g.entry bp).owner ≠ .free)
    (hin : ¬(g.entry bp).owner.InHash) : g.Out bp :=
  ⟨fun hx => hfree ((h.settled bp).free.mp hx), fun i hx => hin (((h.settled bp).bucket i).mp hx).1⟩

omit [DecidableEq Thread] in
theorem keeps_desc (hd : s'.desc = s.desc) : Keeps s s' g t := fun x => Or.inl (by rw [hd])

omit [DecidableEq Thread] in
theorem keeps_at (hd : ∀ x, x ≠ bp → s'.desc x = s.desc x)
    (hbp : (s'.desc bp).range = (s.desc bp).range ∨ ∃ r, (g.entry bp).owner = .thread t r ∧
      ¬(g.entry bp).owner.InHash) : Keeps s s' g t := by
  intro x
  by_cases hx : x = bp
  · subst hx
    rcases hbp with heq | ⟨r, howner, hin⟩
    · exact Or.inl heq
    · refine Or.inr ⟨hin, fun t' r' ho => ?_⟩
      rw [howner] at ho
      cases ho
      rfl
  · exact Or.inl (by rw [hd x hx])

omit [DecidableEq Thread] in
theorem cursor_head {α : Type} {l : List ℕ} {node : ℕ → α} {head cur : α} (hcur : cur =
    (l.head?.map node).getD head) : Cursor l [] node head cur := ⟨l, rfl, hcur⟩

section Loose

omit [DecidableEq Thread] in
theorem Loose.lockOf (hl : ph.Loose) : s.lockOf ph = none := by
  cases ph <;> first | rfl | exact hl.elim

omit [DecidableEq Thread] in
theorem Loose.placed (hl : ph.Loose) : s.Placed g ph := by
  cases ph <;> trivial

theorem Loose.sleeping (hl : ph.Loose) : ph.sleeping = none := by
  cases ph <;> first | exact hl.elim | rfl

theorem Loose.reclaiming (hl : ph.Loose) : ph.reclaiming = false := by
  cases ph <;> first | rfl | exact hl.elim

theorem Loose.ne_panicked (hl : ph.Loose) (r : BlockRange) : ph ≠ .panicked r := by
  rintro rfl
  exact hl

theorem reporting (hoper : ph.operating = some bp) : ph.role = none ∧ ph.hooking = none ∧ ph.Loose := by
  cases ph <;> first | exact ⟨rfl, rfl, trivial⟩ | cases hoper

end Loose

section Orders

variable (h : s.Inv g) (hph : s.phase t = ph) (hsl : ph.sleeping = none) (hsl' : ph'.sleeping = none)
  (hplain : ph'.Plain)

include h hph hsl hsl' hplain

omit [DecidableEq Thread] in
theorem Inv.quiet (hk : Keeps s s' g t) (hhash : s'.hashLock = s.hashLock)
    (hlock : s'.lockOf ph' = s.lockOf ph) (hrl : s'.reclaimLock = s.reclaimLock)
    (hrec : ph'.reclaiming = ph.reclaiming)
    (hb : ∀ j, s.hashLock j ≠ none → s.hashLock j ≠ some t → g'.bucket j = g.bucket j)
    (hr : s.reclaimLock ≠ none → s.reclaimLock ≠ some t → g'.reclaim = g.reclaim)
    (hplaced : s'.Placed g' ph') (hs : s'.sleepers = s.sleepers) : Orderly s s' g g' t ph' where
  keeps := hk
  hash := fun j t' _ => by rw [hhash]
  hash' := fun j => by
    rw [hhash, hlock, ← hph]
    exact h.threads.hash j t
  reclaim := fun t' _ => by rw [hrl]
  reclaim' := by
    rw [hrl, hrec, ← hph]
    exact h.threads.reclaim t
  buckets := fun j t' ht hj => hb j (by simp [hj]) (by simpa [hj] using ht)
  reclaims := fun t' ht hj => hr (by simp [hj]) (by simpa [hj] using ht)
  placed := hplaced
  plain := hplain
  sleeping := fun t' x _ => by rw [hs]
  sleeping' := fun x => by rw [hs, h.threads.sleeping, hph, hsl, hsl']
  sleepers := fun x => by
    rw [hs]
    exact h.threads.sleepers x

omit [DecidableEq Thread] in
theorem Inv.loose (hl : ph.Loose) (hl' : ph'.Loose) (hk : Keeps s s' g t)
    (hhash : s'.hashLock = s.hashLock) (hrl : s'.reclaimLock = s.reclaimLock)
    (hb : ∀ j, s.hashLock j ≠ none → g'.bucket j = g.bucket j)
    (hr : s.reclaimLock ≠ none → g'.reclaim = g.reclaim) (hs : s'.sleepers = s.sleepers) :
    Orderly s s' g g' t ph' :=
  h.quiet hph hsl hsl' hplain hk hhash (by rw [Loose.lockOf hl, Loose.lockOf hl']) hrl
    (by rw [Loose.reclaiming hl, Loose.reclaiming hl']) (fun j hj _ => hb j hj) (fun hj _ => hr hj)
    (Loose.placed hl') hs

theorem Inv.lock (hnone : s.hashLock i = none) (hlock : s.lockOf ph = none)
    (hlock' : s.lockOf ph' = some i) (hrec : ph.reclaiming = false) (hrec' : ph'.reclaiming = false)
    (hplaced : s.Placed g ph') : Orderly s ((s.lockHash i (some t)).goto t ph') g g t ph' where
  keeps := keeps_desc rfl
  hash := fun j t' ht => by
    by_cases hj : j = i
    · subst hj
      simp [goto, lockHash, hnone, ht.symm]
    · simp [goto, lockHash, hj]
  hash' := fun j => by
    have hown := h.threads.hash j t
    rw [hph, hlock] at hown
    change Function.update s.hashLock i (some t) j = some t ↔ s.lockOf ph' = some j
    rw [hlock']
    by_cases hj : j = i
    · subst hj
      simp
    · rw [Function.update_of_ne hj, hown]
      simp [Ne.symm hj]
  reclaim := fun t' _ => Iff.rfl
  reclaim' := by
    rw [hrec', ← hrec, ← hph]
    exact h.threads.reclaim t
  buckets := fun _ _ _ _ => rfl
  reclaims := fun _ _ _ => rfl
  placed := hplaced
  plain := hplain
  sleeping := fun _ _ _ => Iff.rfl
  sleeping' := fun x => by
    rw [hsl', ← hsl, ← hph]
    exact h.threads.sleeping t x
  sleepers := h.threads.sleepers

omit [DecidableEq Thread] in
theorem Inv.unlock (hk : Keeps s s' g t) (hlock : s.lockOf ph = some i)
    (hhash : s'.hashLock = Function.update s.hashLock i none) (hlock' : s'.lockOf ph' = none)
    (hrl : s'.reclaimLock = s.reclaimLock) (hrec : ph.reclaiming = false)
    (hrec' : ph'.reclaiming = false) (hb : ∀ j, j ≠ i → g'.bucket j = g.bucket j)
    (hr : g'.reclaim = g.reclaim) (hplaced : s'.Placed g' ph') (hs : s'.sleepers = s.sleepers) :
    Orderly s s' g g' t ph' where
  keeps := hk
  hash := fun j t' ht => by
    rw [hhash]
    by_cases hj : j = i
    · subst hj
      have hmine := (h.threads.hash j t).mpr (hph ▸ hlock)
      simp [hmine, ht.symm]
    · rw [Function.update_of_ne hj]
  hash' := fun j => by
    rw [hhash, hlock']
    by_cases hj : j = i
    · subst hj
      simp
    · rw [Function.update_of_ne hj, h.threads.hash, hph, hlock]
      simp [Ne.symm hj]
  reclaim := fun t' _ => by rw [hrl]
  reclaim' := by
    rw [hrl, hrec', ← hrec, ← hph]
    exact h.threads.reclaim t
  buckets := fun j t' ht hj => by
    refine hb j ?_
    rintro rfl
    exact ht (Option.some.inj (hj.symm.trans ((h.threads.hash j t).mpr (hph ▸ hlock))))
  reclaims := fun _ _ _ => hr
  placed := hplaced
  plain := hplain
  sleeping := fun t' x _ => by rw [hs]
  sleeping' := fun x => by rw [hs, h.threads.sleeping, hph, hsl, hsl']
  sleepers := fun x => by
    rw [hs]
    exact h.threads.sleepers x

theorem Inv.lockReclaim (hnone : s.reclaimLock = none) (hlock : s.lockOf ph = none)
    (hlock' : s.lockOf ph' = none) (hrec' : ph'.reclaiming = true) (hplaced : s.Placed g ph') :
    Orderly s ((s.lockReclaim (some t)).goto t ph') g g t ph' where
  keeps := keeps_desc rfl
  hash := fun _ _ _ => Iff.rfl
  hash' := fun j => by
    change s.hashLock j = some t ↔ s.lockOf ph' = some j
    rw [h.threads.hash, hph, hlock, hlock']
  reclaim := fun t' ht => by simp [goto, ReadCache.lockReclaim, hnone, ht.symm]
  reclaim' := by simp [goto, ReadCache.lockReclaim, hrec']
  buckets := fun _ _ _ _ => rfl
  reclaims := fun _ _ _ => rfl
  placed := hplaced
  plain := hplain
  sleeping := fun _ _ _ => Iff.rfl
  sleeping' := fun x => by
    rw [hsl', ← hsl, ← hph]
    exact h.threads.sleeping t x
  sleepers := h.threads.sleepers

omit [DecidableEq Thread] in
theorem Inv.unlockReclaim (hk : Keeps s s' g t) (hrec : ph.reclaiming = true)
    (hlock : s.lockOf ph = none) (hlock' : s'.lockOf ph' = none) (hhash : s'.hashLock = s.hashLock)
    (hrl : s'.reclaimLock = none) (hrec' : ph'.reclaiming = false)
    (hb : ∀ j, g'.bucket j = g.bucket j) (hplaced : s'.Placed g' ph')
    (hs : s'.sleepers = s.sleepers) : Orderly s s' g g' t ph' := by
  have hmine : s.reclaimLock = some t := (h.threads.reclaim t).mpr (hph ▸ hrec)
  refine ⟨hk, fun j t' _ => by rw [hhash], fun j => ?_, fun t' ht => ?_, ?_, fun j _ _ _ => hb j,
    fun t' ht hj => ?_, hplaced, hplain, fun t' x _ => by rw [hs], fun x => ?_, fun x => ?_⟩
  · rw [hhash, h.threads.hash, hph, hlock, hlock']
  · simp [hrl, hmine, ht.symm]
  · simp [hrl, hrec']
  · exact absurd (Option.some.inj (hj.symm.trans hmine)) ht
  · rw [hs, h.threads.sleeping, hph, hsl, hsl']
  · rw [hs]
    exact h.threads.sleepers x

end Orders

section Passing

variable (h : s.Inv g) (hph : s.phase t = ph) (hsl : ph.sleeping = none) (hsl' : ph'.sleeping = none)
  (hplain : ph'.Plain) (hrole : ph'.role = ph.role) (hhooking : ph'.hooking = ph.hooking)
  (hoperating : ph'.operating = ph.operating) (hpanic : ∀ r, ph ≠ .panicked r)

include h hph hsl hsl' hplain hrole hhooking hoperating hpanic

theorem Inv.goto (hlock : s.lockOf ph' = s.lockOf ph) (hrec : ph'.reclaiming = ph.reclaiming)
    (hplaced : s.Placed g ph') : (s.goto t ph').Inv g := by
  subst hph
  exact h.pass h.awake hrole hhooking hoperating hpanic (h.quiet rfl hsl hsl' hplain (keeps_desc rfl) rfl
    hlock rfl hrec (fun _ _ _ => rfl) (fun _ _ => rfl) hplaced rfl)

theorem Inv.goto_locked (hnone : s.hashLock i = none) (hlock : s.lockOf ph = none)
    (hlock' : s.lockOf ph' = some i) (hrec : ph.reclaiming = false) (hrec' : ph'.reclaiming = false)
    (hplaced : s.Placed g ph') : ((s.lockHash i (some t)).goto t ph').Inv g := by
  subst hph
  exact h.pass h.awake hrole hhooking hoperating hpanic
    (h.lock rfl hsl hsl' hplain hnone hlock hlock' hrec hrec' hplaced)

theorem Inv.goto_unlocked (hlock : s.lockOf ph = some i) (hlock' : s.lockOf ph' = none)
    (hrec : ph.reclaiming = false) (hrec' : ph'.reclaiming = false) (hplaced : s.Placed g ph') :
    ((s.lockHash i none).goto t ph').Inv g := by
  subst hph
  exact h.pass h.awake hrole hhooking hoperating hpanic
    (h.unlock rfl hsl hsl' hplain (keeps_desc rfl) hlock rfl hlock' rfl hrec hrec'
      (fun _ _ => rfl) rfl hplaced rfl)

end Passing

theorem Alert.handle (ha : ∀ x, x ≠ bp → s.AlertAt x) (h : s.Inv g)
    (hphase : s'.phase = Function.update s.phase t ph') (hnew : ∀ x r, ph' ≠ .woken x r)
    (hother : ∀ x, x ≠ bp → s'.desc x = s.desc x)
    (hbp : ∀ t', t' ≠ t → (g.entry bp).owner = .thread t' .taking →
      (s'.desc bp).state = .claimedValid ∨ (s'.desc bp).state = .mustFree) : s'.Alert := by
  intro x t' r hx
  rw [hphase] at hx
  by_cases ht : t' = t
  · subst ht
    rw [Function.update_self] at hx
    exact absurd hx (hnew x r)
  · rw [Function.update_of_ne ht] at hx
    by_cases hxb : x = bp
    · subst hxb
      exact hbp t' ht (h.owner (by rw [hx]; rfl))
    · rw [hother x hxb]
      exact ha x hxb t' r hx

theorem Inv.sane (h : s.Inv g) (hh : Handles s s' g g' t bp ph' e')
    (ha : ∀ x, x ≠ bp → s.AlertAt x) (hnew : ∀ x r, ph' ≠ .woken x r)
    (hbp : ∀ t', t' ≠ t → (g.entry bp).owner = .thread t' .taking →
      (s'.desc bp).state = .claimedValid ∨ (s'.desc bp).state = .mustFree) : s'.Sane :=
  ⟨g', h.handle hh, Alert.handle ha h hh.phase hnew
    (fun x hx => congrArg BufView.desc (hh.others x hx)) hbp⟩

theorem Alert.pass (ha : s.Alert) (hphase : s'.phase = Function.update s.phase t ph')
    (hnew : ∀ x r, ph' ≠ .woken x r) (hd : s'.desc = s.desc) : s'.Alert := by
  intro x t' r hx
  rw [hphase] at hx
  by_cases ht : t' = t
  · subst ht
    rw [Function.update_self] at hx
    exact absurd hx (hnew x r)
  · rw [Function.update_of_ne ht] at hx
    rw [hd]
    exact ha x t' r hx

end ReadCache

end MachUS.Ufs
