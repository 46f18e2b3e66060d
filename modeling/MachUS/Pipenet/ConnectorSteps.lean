import MachUS.Pipenet.Connector

namespace MachUS.Pipenet

open Function

variable {stage : Node → Stage} {n m : Node} {s' : Stage}

namespace Stage

@[simp] theorem ledger_entries_ne : ∀ s : Stage, s.ledger.entries = 0 ↔ s = .outside
  | .outside => by simp [ledger]
  | .waiting | .taken | .answered _ | .settled _ => by simp [ledger]

theorem Advance.not_outside {s : Stage} (h : s.Advance s') : s ≠ .outside ∧ s' ≠ .outside := by
  cases h <;> simp

theorem Advance.not_settled {s : Stage} (h : s.Advance s') (code : Code) : s ≠ .settled code := by
  cases h <;> simp

theorem Advance.not_waiting {s : Stage} (h : s.Advance s') : s' ≠ .waiting := by
  cases h <;> simp

theorem Advance.pending {s : Stage} (h : s.Advance s') (hs : s'.Pending) : s.Pending := by
  cases h <;> trivial

end Stage

theorem Standing.Allows.advance {k : Standing} {s : Stage} (h : k.Allows s) (hs : s.Advance s') :
    k.Allows s' := by
  cases k with
  | outside => exact absurd h hs.not_outside.1
  | waits => exact hs.not_outside.2
  | leaves => exact fun hpending => h (hs.pending hpending)

theorem Progress.Allows.held {g : Progress} {s : Stage} (h : g.Allows s) : s.Held := by
  cases g with
  | works =>
    obtain rfl : s = .taken := h
    trivial
  | tells code =>
    obtain ⟨c, rfl, -⟩ := h
    trivial

namespace Phase

theorem Fits.advance {p : Phase} (h : p.Fits stage) (hs : (stage n).Advance s')
    (hfree : ∀ g, p.task ≠ some (n, g)) : p.Fits (update stage n s') := by
  constructor
  case owned =>
    intro m k hk
    rcases eq_or_ne m n with rfl | hm
    · rw [update_self]
      exact (h.owned m k hk).advance hs
    · rw [update_of_ne hm]
      exact h.owned m k hk
  case task =>
    intro m g hg
    rcases eq_or_ne m n with rfl | hm
    · exact absurd hg (hfree g)
    · rw [update_of_ne hm]
      exact h.task m g hg
  case gone =>
    intro m hm
    obtain ⟨c, hc⟩ := h.gone m hm
    rcases eq_or_ne m n with rfl | hne
    · exact absurd hc (hs.not_settled c)
    · exact ⟨c, by rw [update_of_ne hne, hc]⟩

theorem Fits.enters {p : Phase} (h : p.Fits stage) (hn : stage n = .outside)
    (hfree : ∀ k, p.owned ≠ some (n, k)) : p.Fits (update stage n .waiting) := by
  constructor
  case owned =>
    intro m k hk
    rcases eq_or_ne m n with rfl | hm
    · exact absurd hk (hfree k)
    · rw [update_of_ne hm]
      exact h.owned m k hk
  case task =>
    intro m g hg
    rcases eq_or_ne m n with rfl | hm
    · have := (h.task m g hg).held
      rw [hn] at this
      exact this.elim
    · rw [update_of_ne hm]
      exact h.task m g hg
  case gone =>
    intro m hm
    obtain ⟨c, hc⟩ := h.gone m hm
    rcases eq_or_ne m n with rfl | hne
    · cases hn.symm.trans hc
    · exact ⟨c, by rw [update_of_ne hne, hc]⟩

end Phase

namespace Connector

variable {T : Type} {x y : Connector T} {l : List Node} {t : T} {p : Phase}

section Books

section

variable (h : x.Books stage l)

include h

theorem Books.write {f : Conninfo → Conninfo}
    (hf : (f (x.record n)).error = (x.record n).error) : (x.write n f).Books stage l := by
  refine ⟨h.ledger, h.live, fun m hm => ?_, h.queue, h.qsize, h.waiting⟩
  rcases eq_or_ne m n with rfl | hne
  · simp [Connector.write, hf, h.error m hm]
  · simp [Connector.write, hne, h.error m hm]

theorem Books.booked {k : Ledger} (hk : k = s'.ledger) (m : Node) :
    update x.ledger n k m = (update stage n s' m).ledger := by
  rcases eq_or_ne m n with rfl | hne
  · simp [hk]
  · simp [hne, h.ledger m]

theorem Books.enter (hn : stage n = .outside) (hlive : x.live n = true)
    (herror : (x.record n).error = .objectNotStarted) (hname : n ≠ none) :
    (x.enter n).Books (update stage n .waiting) (l ++ [n]) := by
  have hmem : n ∉ l := by
    rw [h.waiting, hn]
    simp
  constructor
  case ledger => exact h.booked (by simp only [h.ledger, hn]; rfl)
  case live =>
    intro m hm
    rcases eq_or_ne m n with rfl | hne
    · exact hlive
    · rw [update_of_ne hne] at hm
      exact h.live m hm
  case error =>
    intro m hm
    rcases eq_or_ne m n with rfl | hne
    · exact herror
    · rw [update_of_ne hne] at hm
      exact h.error m hm
  case queue =>
    obtain ⟨p, m, hgap⟩ := LinkRing.exists_gap (none : Node) l []
    obtain rfl : m = none := by simpa using hgap.mem_right
    have hq : x.queue.Holds none (l ++ []) := by simpa using h.queue
    exact hq.enter hgap (by simp [hname, hmem])
  case qsize =>
    change x.qsize + 1 = _
    rw [h.qsize]
    simp
  case waiting =>
    intro m
    rcases eq_or_ne m n with rfl | hne
    · simp
    · simp [hne, h.waiting]

theorem Books.advance {f : Ledger → Ledger} (hs : (stage n).Advance s')
    (hwaits : stage n ≠ .waiting) (hf : f (stage n).ledger = s'.ledger) :
    (x.book n f).Books (update stage n s') l := by
  constructor
  case ledger => exact h.booked (by rw [h.ledger, hf])
  case live =>
    intro m hm
    rcases eq_or_ne m n with rfl | hne
    · refine h.live m ?_
      rw [update_self] at hm
      cases hk : stage m with
      | outside => exact absurd hk hs.not_outside.1
      | settled c => exact absurd hk (hs.not_settled c)
      | _ => trivial
    · rw [update_of_ne hne] at hm
      exact h.live m hm
  case error =>
    intro m hm
    rcases eq_or_ne m n with rfl | hne
    · rw [update_self] at hm
      exact h.error m (hs.pending hm)
    · rw [update_of_ne hne] at hm
      exact h.error m hm
  case queue => exact h.queue
  case qsize => exact h.qsize
  case waiting =>
    intro m
    rcases eq_or_ne m n with rfl | hne
    · rw [h.waiting, update_self]
      exact iff_of_false hwaits hs.not_waiting
    · rw [update_of_ne hne]
      exact h.waiting m

theorem Books.remove (hn : stage n = .waiting) :
    (x.remove n).Books (update stage n .taken) (l.erase n) := by
  have hmem : n ∈ l := (h.waiting n).mpr hn
  obtain ⟨l₁, l₂, rfl⟩ := List.append_of_mem hmem
  have hnodup := h.queue.nodup
  have hl₁ : n ∉ l₁ := by
    rw [List.nodup_append] at hnodup
    exact fun h => hnodup.2.2 n h n (by simp) rfl
  have herase : (l₁ ++ n :: l₂).erase n = l₁ ++ l₂ := by
    rw [List.erase_append_right _ hl₁, List.erase_cons_head]
  rw [herase]
  constructor
  case ledger => exact h.booked (by simp only [h.ledger, hn]; rfl)
  case live =>
    intro m hm
    rcases eq_or_ne m n with rfl | hne
    · exact h.live m (by rw [hn]; trivial)
    · rw [update_of_ne hne] at hm
      exact h.live m hm
  case error =>
    intro m hm
    rcases eq_or_ne m n with rfl | hne
    · exact h.error m (by rw [hn]; trivial)
    · rw [update_of_ne hne] at hm
      exact h.error m hm
  case queue => exact h.queue.remove
  case qsize =>
    change x.qsize - 1 = _
    rw [h.qsize]
    simp
    omega
  case waiting =>
    intro m
    rcases eq_or_ne m n with rfl | hne
    · have hl₂ : m ∉ l₂ := by
        rw [List.nodup_append] at hnodup
        exact (List.nodup_cons.mp hnodup.2.1).1
      simp [hl₁, hl₂]
    · rw [update_of_ne hne, ← h.waiting m]
      simp [hne]

theorem Books.settle (hn : stage n = .taken) (code : Code) :
    (x.settle n code).Books (update stage n (.answered code)) l := by
  have hb : (x.book n fun k => { k with outcomes := k.outcomes ++ [code] }).Books
      (update stage n (.answered code)) l :=
    h.advance (by rw [hn]; exact .answer code) (by simp [hn]) (by rw [hn]; rfl)
  refine ⟨hb.ledger, hb.live, fun m hm => ?_, hb.queue, hb.qsize, hb.waiting⟩
  rcases eq_or_ne m n with rfl | hne
  · rw [update_self] at hm
    exact hm.elim
  · simpa [Connector.settle, Connector.book, Connector.write, hne] using hb.error m hm

theorem Books.notify {code : Code} (hn : stage n = .answered code) :
    (x.notify n).Books (update stage n (.settled code)) l :=
  h.advance (by rw [hn]; exact .settle code) (by simp [hn]) (by rw [hn]; rfl)

theorem Books.first_mem (hsize : x.qsize ≠ 0) : stage x.first = .waiting := by
  cases l with
  | nil => exact absurd h.qsize (by simpa using hsize)
  | cons m l =>
    have hfirst : x.first = m := h.queue.first
    rw [hfirst, ← h.waiting m]
    simp

end

end Books

section Roles

variable [DecidableEq T] {stage' : Node → Stage}

section

variable (h : x.Roles stage) (hphase : y.phase = update x.phase t p) (hlive : y.live = x.live)
  (hframes : y.frames = x.frames)

include h hphase hlive hframes

theorem Roles.move (hothers : ∀ u, u ≠ t → (x.phase u).Fits stage') (hp : p.Fits stage')
    (howned : ∀ m k, p.owned = some (m, k) → ∃ k', (x.phase t).owned = some (m, k'))
    (htask : ∀ m g, p.task = some (m, g) → ∀ u, u ≠ t → ∀ g', (x.phase u).task ≠ some (m, g'))
    (hworked : ∀ m, (stage' m).Held → (∃ g, p.task = some (m, g)) ∨
      ∃ u g, u ≠ t ∧ (x.phase u).task = some (m, g))
    (hfresh : ∀ m, Phase.Fresh x.frames m → stage' m = .outside) : y.Roles stage' := by
  have hback {u : T} {m : Node} {k : Standing} (hu : (y.phase u).owned = some (m, k)) :
      ∃ k', (x.phase u).owned = some (m, k') := by
    rw [hphase] at hu
    rcases eq_or_ne u t with rfl | hne
    · rw [update_self] at hu
      exact howned m k hu
    · rw [update_of_ne hne] at hu
      exact ⟨k, hu⟩
  constructor
  case fits =>
    intro u
    rw [hphase]
    rcases eq_or_ne u t with rfl | hne
    · rwa [update_self]
    · rw [update_of_ne hne]
      exact hothers u hne
  case owner =>
    intro u v m k k' hu hv
    obtain ⟨j, hj⟩ := hback hu
    obtain ⟨j', hj'⟩ := hback hv
    exact h.owner u v m j j' hj hj'
  case worker =>
    intro u v m g g' hu hv
    rw [hphase] at hu hv
    rcases eq_or_ne u t with rfl | hut <;> rcases eq_or_ne v u with rfl | hvu
    · rfl
    · rw [update_self] at hu
      rw [update_of_ne hvu] at hv
      exact absurd hv (htask m g hu v hvu g')
    · rfl
    · rw [update_of_ne hut] at hu
      rcases eq_or_ne v t with rfl | hvt
      · rw [update_self] at hv
        exact absurd hu (htask m g' hv u hut g)
      · rw [update_of_ne hvt] at hv
        exact h.worker u v m g g' hu hv
  case worked =>
    intro m hm
    rcases hworked m hm with ⟨g, hg⟩ | ⟨u, g, hne, hg⟩
    · exact ⟨t, g, by rwa [hphase, update_self]⟩
    · exact ⟨u, g, by rwa [hphase, update_of_ne hne]⟩
  case present =>
    intro u m k hu
    obtain ⟨k', hk'⟩ := hback hu
    rw [hlive]
    exact h.present u m k' hk'
  case fresh =>
    intro m hm
    rw [hframes] at hm
    refine ⟨hfresh m hm, fun u k hu => ?_⟩
    obtain ⟨k', hk'⟩ := hback hu
    exact (h.fresh m hm).2 u k' hk'

theorem Roles.quiet (hp : p.Fits stage)
    (howned : ∀ m k, p.owned = some (m, k) → ∃ k', (x.phase t).owned = some (m, k'))
    (htask : p.task.map Prod.fst = (x.phase t).task.map Prod.fst) : y.Roles stage := by
  have hsame (m : Node) : (∃ g, p.task = some (m, g)) ↔ ∃ g, (x.phase t).task = some (m, g) := by
    have := congrArg (· = some m) htask
    simpa using this
  refine h.move hphase hlive hframes (fun u _ => h.fits u) hp howned ?_ ?_
    fun m hm => (h.fresh m hm).1
  · intro m g hg u hne g' hg'
    obtain ⟨g₀, hg₀⟩ := (hsame m).mp ⟨g, hg⟩
    exact hne (h.worker u t m g' g₀ hg' hg₀)
  · intro m hm
    obtain ⟨u, g, hg⟩ := h.worked m hm
    rcases eq_or_ne u t with rfl | hne
    · exact .inl ((hsame m).mpr ⟨g, hg⟩)
    · exact .inr ⟨u, g, hne, hg⟩

theorem Roles.advance (hs : (stage n).Advance s') (hp : p.Fits (update stage n s'))
    (howned : ∀ m k, p.owned = some (m, k) → ∃ k', (x.phase t).owned = some (m, k'))
    (hbefore : ∀ m g, (x.phase t).task = some (m, g) → m = n)
    (hafter : ∀ m g, p.task = some (m, g) → m = n)
    (hmine : (stage n).Held → ∃ g, (x.phase t).task = some (n, g))
    (hheld : s'.Held → ∃ g, p.task = some (n, g)) : y.Roles (update stage n s') := by
  have hfree (u : T) (hne : u ≠ t) (g : Progress) : (x.phase u).task ≠ some (n, g) := by
    intro hg
    obtain ⟨g', hg'⟩ := hmine (((h.fits u).task n g hg).held)
    exact hne (h.worker u t n g g' hg hg')
  refine h.move hphase hlive hframes (fun u hne => (h.fits u).advance hs (hfree u hne)) hp howned
    ?_ ?_ ?_
  · intro m g hg u hne g'
    rw [hafter m g hg]
    exact hfree u hne g'
  · intro m hm
    rcases eq_or_ne m n with rfl | hne
    · rw [update_self] at hm
      exact .inl (hheld hm)
    · rw [update_of_ne hne] at hm
      obtain ⟨u, g, hg⟩ := h.worked m hm
      exact .inr ⟨u, g, fun hut => hne (hbefore m g (hut ▸ hg)), hg⟩
  · intro m hm
    have hm' := (h.fresh m hm).1
    rcases eq_or_ne m n with rfl | hne
    · exact absurd hm' hs.not_outside.1
    · rwa [update_of_ne hne]

end

end Roles

section Limits

variable [DecidableEq T]

theorem Limits.move (h : x.Limits) (hphase : y.phase = update x.phase t p)
    (hqmax : y.qmax = x.qmax) (hqsize : y.qsize ≤ x.qsize)
    (hasked : ∀ q, p.Resizes q → 0 ≤ q ∧ 0 ≤ x.qmax) (hshrinking : p.Shrinks → 0 ≤ x.qmax)
    (hbound : (x.phase t).Shrinks → p.Shrinks ∨ y.qsize ≤ y.qmax) : y.Limits := by
  constructor
  case asked =>
    intro u q hu
    rw [hphase] at hu
    rw [hqmax]
    rcases eq_or_ne u t with rfl | hne
    · rw [update_self] at hu
      exact hasked q hu
    · rw [update_of_ne hne] at hu
      exact h.asked u q hu
  case shrinking =>
    intro u hu
    rw [hphase] at hu
    rw [hqmax]
    rcases eq_or_ne u t with rfl | hne
    · rw [update_self] at hu
      exact hshrinking hu
    · rw [update_of_ne hne] at hu
      exact h.shrinking u hu
  case bound =>
    rcases h.bound with hneg | hle | ⟨u, hu⟩
    · exact .inl (hqmax ▸ hneg)
    · exact .inr (.inl (by omega))
    · rcases eq_or_ne u t with rfl | hne
      · rcases hbound hu with hp | hle
        · exact .inr (.inr ⟨u, by rwa [hphase, update_self]⟩)
        · exact .inr (.inl hle)
      · exact .inr (.inr ⟨u, by rwa [hphase, update_of_ne hne]⟩)

theorem Limits.resize (h : x.Limits) (hphase : y.phase = update x.phase t p)
    (hqmax : 0 ≤ y.qmax) (hasked : ∀ q, ¬p.Resizes q) (hbound : y.qsize ≤ y.qmax ∨ p.Shrinks) :
    y.Limits := by
  constructor
  case asked =>
    intro u q hu
    rw [hphase] at hu
    rcases eq_or_ne u t with rfl | hne
    · rw [update_self] at hu
      exact absurd hu (hasked q)
    · rw [update_of_ne hne] at hu
      exact ⟨(h.asked u q hu).1, hqmax⟩
  case shrinking => exact fun _ _ => hqmax
  case bound =>
    rcases hbound with hle | hp
    · exact .inr (.inl hle)
    · exact .inr (.inr ⟨t, by rwa [hphase, update_self]⟩)

end Limits

section Clean

variable [DecidableEq T] {stage' : Node → Stage}

omit [DecidableEq T] in
theorem Clean.alone (h : x.Clean stage) {s : Section} (hin : x.phase t = .inside s) (u : T)
    (s' : Section) (hne : u ≠ t) : x.phase u ≠ .inside s' := by
  intro hu
  have := (h.lock u s' hu).symm.trans (h.lock t s hin)
  exact hne (Option.some.inj this)

theorem Clean.move (h : x.Clean stage) (hphase : y.phase = update x.phase t p)
    (hlock : (∃ s, x.phase t = .inside s) ∨ y.lock = x.lock)
    (hp : ∀ s, p = .inside s → y.lock = some t)
    (hsettled : ∀ m c, stage m = .settled c → stage' m = .settled c)
    (hreports : ∀ r ∈ y.reports, r ∈ x.reports ∨
      ∃ c, stage' r.node = .settled c ∧ (c = .success → r.code = .success))
    (hstrays : y.strays = x.strays) (hmisreleases : y.misreleases = x.misreleases) :
    y.Clean stage' := by
  constructor
  case lock =>
    intro u s hu
    rw [hphase] at hu
    rcases eq_or_ne u t with rfl | hne
    · rw [update_self] at hu
      exact hp s hu
    · rw [update_of_ne hne] at hu
      rcases hlock with ⟨s', hin⟩ | hlock
      · exact absurd hu (h.alone hin u s hne)
      · rw [hlock]
        exact h.lock u s hu
  case reports =>
    intro r hr
    rcases hreports r hr with hold | hnew
    · obtain ⟨c, hc, hcode⟩ := h.reports r hold
      exact ⟨c, hsettled _ _ hc, hcode⟩
    · exact hnew
  case strays => rw [hstrays, h.strays]
  case misreleases => rw [hmisreleases, h.misreleases]

theorem released (h : x.lock = some t) :
    x.misreleases + (if x.lock = some t then 0 else 1) = x.misreleases := by
  rw [if_pos h, Nat.add_zero]

omit [DecidableEq T] in
theorem touched (h : x.live n = true) :
    x.strays + (if x.live n = true then 0 else 1) = x.strays := by
  rw [if_pos h, Nat.add_zero]

end Clean

structure Same (x y : Connector T) : Prop where
  ledger : y.ledger = x.ledger
  live : y.live = x.live
  error : ∀ m, (y.record m).error = (x.record m).error
  queue : y.queue = x.queue
  qsize : y.qsize = x.qsize
  qmax : y.qmax = x.qmax
  frames : y.frames = x.frames
  reports : y.reports = x.reports
  strays : y.strays = x.strays
  misreleases : y.misreleases = x.misreleases

theorem Same.write {f : Conninfo → Conninfo} (hf : (f (x.record n)).error = (x.record n).error) :
    x.Same (x.write n f) := by
  refine ⟨rfl, rfl, fun m => ?_, rfl, rfl, rfl, rfl, rfl, rfl, rfl⟩
  rcases eq_or_ne m n with rfl | hne
  · simp [Connector.write, hf]
  · simp [Connector.write, hne]

theorem Books.same (h : x.Books stage l) (hsame : x.Same y) : y.Books stage l where
  ledger := by rw [hsame.ledger]; exact h.ledger
  live := by rw [hsame.live]; exact h.live
  error m hm := by rw [hsame.error, h.error m hm]
  queue := by rw [hsame.queue]; exact h.queue
  qsize := by rw [hsame.qsize, h.qsize]
  waiting := h.waiting

theorem Kept.quiet [DecidableEq T] (h : x.Kept stage l) (hsame : x.Same y)
    (hphase : y.phase = update x.phase t p) (hp : p.Fits stage)
    (howned : ∀ m k, p.owned = some (m, k) → ∃ k', (x.phase t).owned = some (m, k'))
    (htask : p.task.map Prod.fst = (x.phase t).task.map Prod.fst)
    (hasked : ∀ q, p.Resizes q → 0 ≤ q ∧ 0 ≤ x.qmax) (hshrinks : p.Shrinks ↔ (x.phase t).Shrinks)
    (hlock : (∃ s, x.phase t = .inside s) ∨ y.lock = x.lock)
    (hin : ∀ s, p = .inside s → y.lock = some t) : y.Kept stage l where
  books := h.books.same hsame
  roles := h.roles.quiet hphase hsame.live hsame.frames hp howned htask
  limits := h.limits.move hphase hsame.qmax (Int.le_of_eq hsame.qsize) hasked
    (fun hs => h.limits.shrinking t (hshrinks.mp hs)) fun hs => .inl (hshrinks.mpr hs)
  clean := h.clean.move hphase hlock hin (fun _ _ => id)
    (fun _ hr => .inl (hsame.reports ▸ hr)) hsame.strays hsame.misreleases

end Connector

end MachUS.Pipenet
