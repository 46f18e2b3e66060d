import MachUS.Tm.TimerInvariant
import Mathlib.Data.Fintype.Basic

namespace MachUS.Tm

open Option Function TimerQueue

variable {Thread Task : Type}

def ClientPhase.Prompt (timer : ℕ → Timer Task) (wasted : Task → Bool) (late : ℕ → Bool) :
    ClientPhase Task → Prop
  | .setFound t _ _ begun => wasted t = true → begun = true
  | .setHolds r _ => wasted (timer r).task = true → late r = true
  | .setFilled r _ => wasted (timer r).task = true → late r = true
  | _ => True

def ServerPhase.Prompt (timer : ℕ → Timer Task) (wasted : Task → Bool) (late : ℕ → Bool) :
    ServerPhase → Prop
  | .expired r => wasted (timer r).task = true → (timer r).value.interval.isSet = true →
    late r = true
  | .requeue r => wasted (timer r).task = true → late r = true
  | _ => True

variable {wasted : Task → Bool}

theorem ClientPhase.Prompt.congr {timer timer' : ℕ → Timer Task}
    {late late' : ℕ → Bool} {ph : ClientPhase Task} (h : ph.Prompt timer wasted late)
    (heq : ∀ r, ph.held = some r → timer' r = timer r ∧ late' r = late r) :
    ph.Prompt timer' wasted late' := by
  cases ph <;> simp_all [Prompt, held]

theorem ServerPhase.Prompt.congr {timer timer' : ℕ → Timer Task}
    {late late' : ℕ → Bool} {ph : ServerPhase} (h : ph.Prompt timer wasted late)
    (heq : ∀ r, ph.held = some r → timer' r = timer r ∧ late' r = late r) :
    ph.Prompt timer' wasted late' := by
  cases ph <;> simp_all [Prompt, held]

def ClientPhase.Sets (t : Task) (timer : ℕ → Timer Task) : ClientPhase Task → Prop
  | .setFound t' _ _ _ => t' = t
  | .setHolds r _ => (timer r).task = t
  | .setFilled r _ => (timer r).task = t
  | _ => False

def ServerPhase.Requeues (t : Task) (timer : ℕ → Timer Task) : ServerPhase → Prop
  | .expired r => (timer r).task = t ∧ (timer r).value.interval.isSet = true
  | .requeue r => (timer r).task = t
  | _ => False

theorem ClientPhase.Prompt.waste [DecidableEq Task] {timer : ℕ → Timer Task}
    {late : ℕ → Bool} {ph : ClientPhase Task} {t : Task}
    (h : ph.Prompt timer wasted late) (hs : ¬ph.Sets t timer) :
    ph.Prompt timer (update wasted t true) late := by
  cases ph <;> simp_all [Prompt, Sets]

theorem ServerPhase.Prompt.waste [DecidableEq Task] {timer : ℕ → Timer Task}
    {late : ℕ → Bool} {ph : ServerPhase} {t : Task}
    (h : ph.Prompt timer wasted late) (hs : ¬ph.Requeues t timer) :
    ph.Prompt timer (update wasted t true) late := by
  cases ph with
  | expired r =>
    intro hw hset
    have hne : (timer r).task ≠ t := fun ht => hs ⟨ht, hset⟩
    rw [update_of_ne hne] at hw
    exact h hw hset
  | _ => simp_all [Prompt, Requeues]

namespace TimerState

def held (s : TimerState Thread Task) : Option Thread → Option ℕ
  | none => s.server.held
  | some i => (s.client i).held

structure Kept (s : TimerState Thread Task) (l : List ℕ) : Prop where
  custody : Custody s.q s.held l
  queued : ∀ r ∈ l, s.wasted (s.q.timer r).task = true → s.late r = true
  clients : ∀ i, (s.client i).Prompt s.q.timer s.wasted s.late
  server : s.server.Prompt s.q.timer s.wasted s.late

def ClientMeets (s : TimerState Thread Task) (memory : Bool) : ClientPhase Task → Prop
  | .setFound t _ none _ => memory = true → ∀ r < s.q.made, s.q.freed r = false →
    (s.q.timer r).task = t → (s.q.timer r).id ≠ s.q.newId
  | .setFound _ _ (some r) _ => r ∈ s.q.queued
  | .deleteFound r => r ∈ s.q.queued
  | .getFound r => s.q.freed r = false
  | .dying t => (∀ r ∈ s.q.queued, (s.q.timer r).task ≠ t) ∧
    (∀ i, ¬(s.client i).Sets t s.q.timer) ∧ ¬s.server.Requeues t s.q.timer
  | _ => True

def ServerMeets (s : TimerState Thread Task) : ServerPhase → Prop
  | .peeked r => s.q.freed r = false
  | _ => True

def Meets (s : TimerState Thread Task) : TimerEvent Thread Task → Prop
  | .call _ .timerShutdown => s.q.up = true → s.q.first = none
  | .call _ _ => True
  | .client i memory _ => s.ClientMeets memory (s.client i)
  | .server _ => s.ServerMeets s.server

def Sound (s : TimerState Thread Task) : Prop :=
  ∃ l, s.q.Sorted l ∧
    (∀ r ∈ l, ∀ r' ∈ l, (s.q.timer r).task = (s.q.timer r').task →
      (s.q.timer r).id = (s.q.timer r').id → r = r') ∧
    s.q.bad = false ∧ ∀ r ∈ l, s.wasted (s.q.timer r).task = true → s.late r = true

variable {s s' : TimerState Thread Task} {l l' : List ℕ}

theorem Kept.sound (k : s.Kept l) : s.Sound := by
  refine ⟨l, k.custody.well.toSorted, ?_, k.custody.good, k.queued⟩
  exact fun r hr r' hr' => k.custody.single r r' (Or.inl hr) (Or.inl hr')

variable [DecidableEq Thread]

theorem held_clientAt (i : Thread) (ph : ClientPhase Task) :
    (s.clientAt i ph).held = update s.held (some i) ph.held := by
  funext h
  cases h with
  | none => rfl
  | some j => by_cases hj : j = i <;> simp [held, clientAt, hj]

theorem held_serverAt (ph : ServerPhase) : (s.serverAt ph).held = update s.held none ph.held := by
  funext h
  cases h <;> rfl

section Moves

variable {q : TimerQueue Task} {i : Thread} {late : ℕ → Bool} (k : s.Kept l)

include k

variable {ph : ClientPhase Task}

theorem Kept.client_moves
    (hother : ∀ h r, h ≠ some i → s.held h = some r → q.timer r = s.q.timer r ∧ late r = s.late r)
    (hc : Custody q (update s.held (some i) ph.held) l')
    (hl : ∀ r ∈ l', s.wasted (q.timer r).task = true → late r = true)
    (hph : ph.Prompt q.timer s.wasted late) :
    Kept { (s.withQueue q).clientAt i ph with late := late } l' := by
  have hheld := held_clientAt (s := s.withQueue q) i ph
  refine ⟨?_, hl, ?_, ?_⟩
  · exact (show Custody q ((s.withQueue q).clientAt i ph).held l' from hheld ▸ hc)
  · intro j
    by_cases hj : j = i
    · subst hj
      simpa [withQueue, clientAt] using hph
    · simpa [withQueue, clientAt, hj] using (k.clients j).congr (hother (some j) · (by simpa using hj))
  · exact k.server.congr (hother none · (by simp))

theorem Kept.server_moves {ph : ServerPhase}
    (hother : ∀ h r, h ≠ none → s.held h = some r → q.timer r = s.q.timer r)
    (hc : Custody q (update s.held none ph.held) l')
    (hl : ∀ r ∈ l', s.wasted (q.timer r).task = true → s.late r = true)
    (hph : ph.Prompt q.timer s.wasted s.late) : ((s.withQueue q).serverAt ph).Kept l' := by
  have hheld := held_serverAt (s := s.withQueue q) ph
  refine ⟨?_, hl, ?_, hph⟩
  · exact (show Custody q ((s.withQueue q).serverAt ph).held l' from hheld ▸ hc)
  · exact fun j => (k.clients j).congr fun r hr => ⟨hother (some j) r (by simp) hr, rfl⟩

theorem Kept.client_pauses (hheld : ph.held = (s.client i).held)
    (hph : ph.Prompt s.q.timer s.wasted s.late) : (s.clientAt i ph).Kept l := by
  have hc : Custody s.q (update s.held (some i) ph.held) l := by
    rw [hheld]
    exact (update_eq_self (some i) s.held).symm ▸ k.custody
  exact k.client_moves (fun _ _ _ _ => ⟨rfl, rfl⟩) hc k.queued hph

theorem Kept.server_pauses {ph : ServerPhase} (hheld : ph.held = s.server.held)
    (hph : ph.Prompt s.q.timer s.wasted s.late) : (s.serverAt ph).Kept l := by
  have hc : Custody s.q (update s.held none ph.held) l := by
    rw [hheld]
    exact (update_eq_self none s.held).symm ▸ k.custody
  exact k.server_moves (fun _ _ _ _ => rfl) hc k.queued hph

theorem Kept.client_takes {r : ℕ} (hr : r ∈ l) (hheld : ph.held = some r)
    (hph : (s.wasted (s.q.timer r).task = true → s.late r = true) →
      ph.Prompt s.q.timer s.wasted s.late) :
    ∃ l', ((s.withQueue (s.q.dllRemove r)).clientAt i ph).Kept l' := by
  obtain ⟨l₁, l₂, rfl⟩ := List.append_of_mem hr
  refine ⟨l₁ ++ l₂, k.client_moves (fun _ _ _ _ => ⟨rfl, rfl⟩) ?_ ?_ (hph (k.queued r hr))⟩
  · rw [hheld]
    exact k.custody.take (some i)
  · exact fun x hx => k.queued x (by grind)

theorem Kept.client_puts {r : ℕ} (hr : s.held (some i) = some r)
    (hheld : ph.held = none) (hlate : s.wasted (s.q.timer r).task = true → s.late r = true)
    (hph : ph.Prompt s.q.timer s.wasted s.late) (hq : s.q.insert r = some q) :
    ∃ l', ((s.withQueue q).clientAt i ph).Kept l' := by
  obtain ⟨l', ring, heq, hmem, hc⟩ := k.custody.put hr
  cases heq.symm.trans hq
  refine ⟨l', k.client_moves (fun _ _ _ _ => ⟨rfl, rfl⟩) (hheld ▸ hc) ?_ hph⟩
  intro x hx
  rcases (hmem x).mp hx with rfl | hx
  · exact hlate
  · exact k.queued x hx

end Moves

omit [DecidableEq Thread] in
theorem Kept.write_elsewhere (k : s.Kept l) {h : Option Thread} {r : ℕ} (hr : s.held h = some r)
    (x : Timer Task) : (∀ g y, g ≠ h → s.held g = some y → (s.q.write r x).timer y = s.q.timer y) ∧
      ∀ y ∈ l, (s.q.write r x).timer y = s.q.timer y := by
  constructor
  · intro g y hg hy
    refine update_of_ne ?_ _ _
    rintro rfl
    exact hg (k.custody.alone g h y hy hr)
  · intro y hy
    refine update_of_ne ?_ _ _
    rintro rfl
    exact k.custody.unlinked h y hr hy

theorem Kept.client_writes {i : Thread} (k : s.Kept l) {r : ℕ} {ph : ClientPhase Task} {x : Timer Task}
    (hr : s.held (some i) = some r) (hheld : ph.held = some r)
    (htask : x.task = (s.q.timer r).task) (hid : x.id = (s.q.timer r).id)
    (hph : ph.Prompt (s.q.write r x).timer s.wasted s.late) :
    ((s.withQueue (s.q.write r x)).clientAt i ph).Kept l := by
  obtain ⟨hother, hlinked⟩ := k.write_elsewhere hr x
  have hself : update s.held (some i) ph.held = s.held := by
    rw [hheld, ← hr, update_eq_self]
  refine k.client_moves (fun g y hg hy => ⟨hother g y hg hy, rfl⟩) ?_ ?_ hph
  · rw [hself]
    exact k.custody.write hr htask hid
  · intro y hy hw
    exact k.queued y hy (hlinked y hy ▸ hw)

theorem Kept.server_writes (k : s.Kept l) {r : ℕ} {ph : ServerPhase} {x : Timer Task}
    (hr : s.held none = some r) (hheld : ph.held = some r)
    (htask : x.task = (s.q.timer r).task) (hid : x.id = (s.q.timer r).id)
    (hph : ph.Prompt (s.q.write r x).timer s.wasted s.late) :
    ((s.withQueue (s.q.write r x)).serverAt ph).Kept l := by
  obtain ⟨hother, hlinked⟩ := k.write_elsewhere hr x
  have hself : update s.held none ph.held = s.held := by
    rw [hheld, ← hr, update_eq_self]
  refine k.server_moves hother ?_ ?_ hph
  · rw [hself]
    exact k.custody.write hr htask hid
  · intro y hy hw
    exact k.queued y hy (hlinked y hy ▸ hw)

variable [DecidableEq Task] {i : Thread}

theorem Kept.begin (k : s.Kept l) {c : TimerCall Task} (hidle : (s.client i).held = none)
    (hmeets : s.Meets (.call i c)) (h : s.begin i c = some s') : ∃ l', s'.Kept l' := by
  have hwell := k.custody.well
  have hpause {ph : ClientPhase Task} (hheld : ph.held = none)
      (hph : ph.Prompt s.q.timer s.wasted s.late) : ∃ l', (s.clientAt i ph).Kept l' :=
    ⟨l, k.client_pauses (hheld.trans hidle.symm) hph⟩
  cases c with
  | timerSet t args =>
    simp only [TimerState.begin, hwell.find, map_some] at h
    split at h
    · cases h
      exact hpause rfl trivial
    · cases h
      exact hpause rfl id
  | timerGet t id =>
    simp only [TimerState.begin, hwell.find, map_some] at h
    cases h
    cases l.find? fun r => (s.q.timer r).task = t ∧ (s.q.timer r).id = id with
    | none => exact hpause rfl trivial
    | some r => exact hpause rfl trivial
  | timerDelete t id =>
    simp only [TimerState.begin, hwell.find, map_some] at h
    cases h
    cases l.find? fun r => (s.q.timer r).task = t ∧ (s.q.timer r).id = id with
    | none => exact hpause rfl trivial
    | some r => exact hpause rfl trivial
  | taskDeath t =>
    simp only [TimerState.begin] at h
    split at h
    · cases h
      exact hpause rfl trivial
    · cases h
      have hdying : (.dying t : ClientPhase Task).held = none := rfl
      obtain ⟨l', k'⟩ := hpause hdying trivial
      exact ⟨l', k'.custody, k'.queued, k'.clients, k'.server⟩
  | timerShutdown =>
    simp only [TimerState.begin] at h
    split at h
    · rename_i hup
      have hnil : l = [] := by
        have := hmeets hup
        rw [hwell.first] at this
        exact List.head?_eq_none_iff.mp this
      rw [hwell.sweep (by simp [hnil])] at h
      cases h
      exact hpause rfl trivial
    · cases h
      exact hpause rfl trivial

theorem Kept.dies (k : s.Kept l) {t : Task} {memory : Bool} (hidle : (s.client i).held = none)
    (hmeets : s.ClientMeets memory (.dying t)) {last : TimerReturn} :
    Kept { s.clientAt i (.idle last) with wasted := update s.wasted t true } l := by
  obtain ⟨hnone, hsets, hrequeues⟩ := hmeets
  rw [k.custody.well.queued] at hnone
  have k' : (s.clientAt i (.idle last)).Kept l := k.client_pauses hidle.symm trivial
  refine ⟨k'.custody, ?_, ?_, k.server.waste hrequeues⟩
  · intro r hr hw
    have hw' : update s.wasted t true (s.q.timer r).task = true := hw
    rw [update_of_ne (hnone r hr)] at hw'
    exact k.queued r hr hw'
  · intro j
    by_cases hj : j = i
    · subst hj
      simp [clientAt, ClientPhase.Prompt]
    · simpa [clientAt, hj] using (k.clients j).waste (hsets j)

theorem Kept.goOn (k : s.Kept l) {memory : Bool} {now : Option TimeValue}
    (hmeets : s.ClientMeets memory (s.client i))
    (h : s.goOn i memory now (s.client i) = some s') : ∃ l', s'.Kept l' := by
  have hprompt := k.clients i
  have hqueued := k.custody.well.queued
  generalize hc : s.client i = ph at hmeets h hprompt
  have hheld : s.held (some i) = ph.held := congrArg ClientPhase.held hc
  have hpause {ph' : ClientPhase Task} (hph' : ph'.held = ph.held)
      (hprompt : ph'.Prompt s.q.timer s.wasted s.late) : ∃ l', (s.clientAt i ph').Kept l' :=
    ⟨l, k.client_pauses (hph'.trans hheld.symm) hprompt⟩
  cases ph with
  | idle last => cases h
  | setFound t args found begun =>
    cases found with
    | none =>
      simp only [TimerState.goOn] at h
      split at h
      · rename_i hmemory
        cases h
        have hcust := k.custody.malloc (some i) (hmeets hmemory)
        have hne (r : ℕ) (hr : s.q.Usable r) : r ≠ s.q.made := hr.1.ne
        refine ⟨l, k.client_moves ?_ hcust ?_ ?_⟩
        · intro g r _ hr
          have := hne r (k.custody.usable g r hr)
          exact ⟨update_of_ne this _ _, update_of_ne this _ _⟩
        · intro r hr
          have := hne r (k.custody.well.usable r hr)
          simpa [malloc, this] using k.queued r hr
        · simpa [ClientPhase.Prompt, malloc] using hprompt
      · cases h
        exact hpause rfl trivial
    | some r =>
      cases h
      exact k.client_takes (hqueued ▸ hmeets) rfl id
  | setHolds r args =>
    cases h
    refine ⟨l, k.client_writes hheld rfl rfl rfl ?_⟩
    simpa [ClientPhase.Prompt, write] using hprompt
  | setFilled r id =>
    obtain ⟨q, hq, rfl⟩ := map_eq_some_iff.mp h
    have hreturned : (.idle ⟨.success, some id, none⟩ : ClientPhase Task).held = none := rfl
    exact k.client_puts hheld hreturned hprompt trivial hq
  | getFound r =>
    cases h
    rw [Custody.access_of_not_freed hmeets]
    exact hpause rfl trivial
  | deleteFound r =>
    cases h
    exact k.client_takes (hqueued ▸ hmeets) rfl fun _ => trivial
  | deleteHolds r =>
    cases h
    have hcust := k.custody.release hheld
    exact ⟨l, k.client_moves (fun _ _ _ _ => ⟨rfl, rfl⟩) hcust k.queued trivial⟩
  | dying t =>
    have hsweep : (s.q.sweep fun x => x.task = t) = some s.q := by
      apply k.custody.well.sweep
      intro r hr
      exact decide_eq_false (hmeets.1 r (hqueued.symm ▸ hr))
    simp only [TimerState.goOn, hsweep, map_some] at h
    cases h
    exact ⟨l, k.dies hheld hmeets⟩
  | goingDown =>
    cases h
    have hreturned : (.idle (.plain .success) : ClientPhase Task).held = none := rfl
    obtain ⟨l', c, hl, hclients, hserver⟩ := hpause hreturned trivial
    refine ⟨l', ?_, hl, hclients, hserver⟩
    exact ⟨⟨⟨c.well.ring, c.well.times⟩, c.well.usable⟩, c.usable, c.unlinked, c.alone, c.single,
      c.made, c.good⟩

omit [DecidableEq Task] in
theorem Kept.serve (k : s.Kept l) {now : Option TimeValue} (hmeets : s.ServerMeets s.server)
    (h : s.serve now s.server = some s') : ∃ l', s'.Kept l' := by
  have hprompt := k.server
  have hwell := k.custody.well
  generalize hc : s.server = ph at hmeets h hprompt
  have hheld : s.held none = ph.held := congrArg ServerPhase.held hc
  have hpause {ph' : ServerPhase} (hph' : ph'.held = ph.held)
      (hprompt : ph'.Prompt s.q.timer s.wasted s.late) : ∃ l', (s.serverAt ph').Kept l' :=
    ⟨l, k.server_pauses (hph'.trans hheld.symm) hprompt⟩
  cases ph with
  | top =>
    simp only [TimerState.serve] at h
    split at h
    · cases h
      cases s.q.first with
      | none => exact hpause rfl trivial
      | some r => exact hpause rfl trivial
    · cases h
      exact hpause rfl trivial
  | peeked r =>
    cases h
    rw [Custody.access_of_not_freed hmeets]
    exact hpause rfl trivial
  | waited tv =>
    simp only [TimerState.serve] at h
    split at h
    · cases h
      exact hpause rfl trivial
    · rename_i r hfirst
      obtain ⟨l', rfl⟩ : ∃ l', l = r :: l' := List.head?_eq_some_iff.mp (hwell.first ▸ hfirst)
      split at h
      · cases h
        rw [Custody.access_of_not_freed (hwell.usable r (by simp)).2]
        exact hpause rfl trivial
      · cases h
        have hcust : Custody (s.q.dllRemove r) _ ([] ++ l') := Custody.take k.custody none
        refine ⟨l', k.server_moves (fun _ _ _ _ => rfl) hcust ?_ ?_⟩
        · exact fun x hx => k.queued x (List.mem_cons_of_mem _ hx)
        · exact fun hw _ => k.queued r (by simp) hw
  | expired r =>
    simp only [TimerState.serve] at h
    split at h
    · rename_i hset
      cases h
      refine ⟨l, k.server_writes hheld rfl rfl rfl ?_⟩
      intro hw
      refine hprompt ?_ hset
      simpa [write] using hw
    · cases h
      have hcust := k.custody.release hheld
      exact ⟨l, k.server_moves (fun _ _ _ _ => rfl) hcust k.queued trivial⟩
  | requeue r =>
    obtain ⟨q, hq, rfl⟩ := map_eq_some_iff.mp h
    obtain ⟨l', ring, heq, hmem, hcust⟩ := k.custody.put hheld
    cases heq.symm.trans hq
    refine ⟨l', k.server_moves (fun _ _ _ _ => rfl) hcust ?_ trivial⟩
    intro x hx
    rcases (hmem x).mp hx with rfl | hx
    · exact hprompt
    · exact k.queued x hx
  | returned => cases h

theorem Kept.next (k : s.Kept l) {e : TimerEvent Thread Task} (hmeets : s.Meets e)
    (h : s.next e = some s') : ∃ l', s'.Kept l' := by
  cases e with
  | call i c =>
    simp only [TimerState.next] at h
    split at h
    · rename_i last hidle
      exact k.begin (congrArg ClientPhase.held hidle) hmeets h
    · cases h
  | client i memory now => exact k.goOn hmeets h
  | server now => exact k.serve hmeets h

omit [DecidableEq Thread] [DecidableEq Task] in
theorem kept_init (garbage : ℕ → Timer Task) : (init garbage : TimerState Thread Task).Kept [] := by
  have hring : (TimerQueue.init garbage).Well [] :=
    ⟨⟨LinkRing.init_holds _ none, .nil⟩, fun r hr => nomatch hr⟩
  have hnone (h : Option Thread) : (init garbage : TimerState Thread Task).held h = none := by
    cases h <;> rfl
  refine ⟨⟨hring, ?_, ?_, ?_, ?_, ?_, rfl⟩, ?_, fun i => trivial, trivial⟩
  · simp [hnone]
  · simp [hnone]
  · simp [hnone]
  · simp [hnone]
  · exact fun r hr => nomatch hr
  · exact fun r hr => nomatch hr

end TimerState

end MachUS.Tm

namespace MachUS.Tm

open Relation Transition TimerState

section Decidability

variable {Thread Task : Type} [DecidableEq Task]

instance (t : Task) (timer : ℕ → Timer Task) : ∀ ph : ClientPhase Task, Decidable (ph.Sets t timer)
  | .setFound t' _ _ _ => inferInstanceAs (Decidable (t' = t))
  | .setHolds r _ => inferInstanceAs (Decidable ((timer r).task = t))
  | .setFilled r _ => inferInstanceAs (Decidable ((timer r).task = t))
  | .idle _ | .getFound _ | .deleteFound _ | .deleteHolds _ | .dying _ | .goingDown =>
    inferInstanceAs (Decidable False)

instance (t : Task) (timer : ℕ → Timer Task) : ∀ ph : ServerPhase, Decidable (ph.Requeues t timer)
  | .expired _ => inferInstanceAs (Decidable (_ ∧ _))
  | .requeue r => inferInstanceAs (Decidable ((timer r).task = t))
  | .top | .peeked _ | .waited _ | .returned => inferInstanceAs (Decidable False)

instance [Fintype Thread] (s : TimerState Thread Task) (memory : Bool) :
    ∀ ph, Decidable (s.ClientMeets memory ph)
  | .setFound _ _ none _ => inferInstanceAs (Decidable (_ → ∀ r < _, _ → _ → _ ≠ _))
  | .setFound _ _ (some r) _ => inferInstanceAs (Decidable (r ∈ s.q.queued))
  | .deleteFound r => inferInstanceAs (Decidable (r ∈ s.q.queued))
  | .getFound r => inferInstanceAs (Decidable (s.q.freed r = false))
  | .dying _ => inferInstanceAs (Decidable ((∀ r ∈ s.q.queued, _ ≠ _) ∧ (∀ _ : Thread, ¬_) ∧ ¬_))
  | .idle _ | .setHolds _ _ | .setFilled _ _ | .deleteHolds _ | .goingDown =>
    inferInstanceAs (Decidable True)

instance (s : TimerState Thread Task) : ∀ ph, Decidable (s.ServerMeets ph)
  | .peeked r => inferInstanceAs (Decidable (s.q.freed r = false))
  | .top | .waited _ | .expired _ | .requeue _ | .returned => inferInstanceAs (Decidable True)

instance [Fintype Thread] (s : TimerState Thread Task) : ∀ e, Decidable (s.Meets e)
  | .call _ .timerShutdown => inferInstanceAs (Decidable (_ → _))
  | .call _ (.timerSet _ _) | .call _ (.timerGet _ _) | .call _ (.timerDelete _ _)
  | .call _ (.taskDeath _) => inferInstanceAs (Decidable True)
  | .client i memory _ => inferInstanceAs (Decidable (s.ClientMeets memory (s.client i)))
  | .server _ => inferInstanceAs (Decidable (s.ServerMeets s.server))

end Decidability

variable {Thread Task : Type} [DecidableEq Thread] [DecidableEq Task]

namespace Sample

def garbage : ℕ → Timer ℕ := fun _ => ⟨0, 0, ⟨⟨0, 0⟩, ⟨0, 0⟩⟩, 0, 0, 0⟩

def clock (seconds : ℤ) : Option TimeValue := some ⟨seconds, 0⟩

def alarm (seconds interval : ℤ) : TimerArgs := ⟨14, 0, 0, 0, ⟨⟨interval, 0⟩, ⟨seconds, 0⟩⟩⟩

def setting (i : Bool) (t : ℕ) (args : TimerArgs) : List (TimerEvent Bool ℕ) :=
  [.call i (.timerSet t args), .client i true (clock 0), .client i true (clock 0),
    .client i true (clock 0)]

def rearmed : List (TimerEvent Bool ℕ) :=
  setting false 1 (alarm 5 0) ++ setting true 2 (alarm 3 10) ++
    [.server (clock 0), .server (clock 0), .server (clock 4), .server (clock 4),
      .server (clock 4), .call true (.taskDeath 3), .client true true none]

def pending : List (TimerEvent Bool ℕ) :=
  setting false 1 (alarm 5 0) ++ [.call true (.taskDeath 1), .client true true none]

end Sample

end MachUS.Tm
