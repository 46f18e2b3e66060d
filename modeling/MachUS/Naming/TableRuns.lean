import MachUS.Naming.TableInvariant

namespace MachUS.Naming

open Program List StdName

variable {W : Type} {sv : Servers W} {s s' t : StdName W}

inductive TableCall where
  | setSystem (pfxpath : List UInt8) (pfxobj : Obj) (objtype : ℕ) (canonpath : List UInt8)
  | setUser (pfxpath targetpath : List UInt8)
  | setCache (pfxpath : List UInt8) (pfxobj : Option Obj) (objtype : ℕ) (canonpath : List UInt8)
  | invalidate (path : Path)
  | flush
  | find (path : Path)
  | setToken (token : ℕ)
  deriving DecidableEq

def FoundPrefix.handed (f : FoundPrefix) : Except NsError (Option Obj) :=
  match f.error with
  | some e => .error e
  | none => .ok f.obj

def TableCall.run (sv : Servers W) (n : ℕ) : TableCall → Run W (Except NsError (Option Obj))
  | .setSystem pfxpath pfxobj objtype canonpath => do
    let r ← nsSetSystemPrefix sv pfxpath pfxobj objtype canonpath
    pure (r.map fun _ => none)
  | .setUser pfxpath targetpath => do
    let r ← nsSetUserPrefix sv (callees sv n) pfxpath targetpath
    pure (r.map fun _ => none)
  | .setCache pfxpath pfxobj objtype canonpath => do
    let r ← nsSetCachePrefix pfxpath pfxobj objtype canonpath
    pure (r.map fun _ => none)
  | .invalidate path => do
    let r ← nsInvalidatePrefix (callees sv n).nsSetUserPrefix path
    pure (r.map fun _ => none)
  | .flush => do
    nsFlushCachePrefixes
    pure (.ok none)
  | .find path => do
    let f ← nsFindPrefix sv (callees sv n).nsSetUserPrefix path
    pure f.handed
  | .setToken token => do
    nsSetToken token
    pure (.ok none)

def Failed (r : Except NsError (Option Obj)) : Prop := ∃ e, r = .error e

structure Step (W : Type) where
  call : TableCall
  result : Except NsError (Option Obj)
  before : StdName W
  after : StdName W

namespace Step

def Real (sv : Servers W) (x : Step W) : Prop :=
  ∃ n, Returns (x.call.run sv n) x.before x.result x.after

def Caching (x : Step W) : Prop :=
  match x.call with
  | .setCache _ _ _ _ => True
  | .flush => True
  | _ => False

def Setting (x : Step W) : Prop :=
  match x.call with
  | .setSystem _ _ _ _ => True
  | .setUser _ _ => True
  | .setCache _ _ _ _ => True
  | .setToken _ => True
  | _ => False

def Guarded (x : Step W) : Prop :=
  x.Caching ∨ x.Setting ∧ Failed x.result → Intact x.before x.after

structure Proper (x : Step W) : Prop where
  calm : Calm x.before x.after
  system : ∀ pfxpath pfxobj objtype canonpath,
    x.call = .setSystem pfxpath pfxobj objtype canonpath → Failed x.result →
    ∀ slot e, x.before.entry slot = some e → Permanent e → e.prefixPath ≠ cString pfxpath
  user : ∀ pfxpath targetpath, x.call = .setUser pfxpath targetpath → Failed x.result →
    Still x.before x.after

end Step

theorem SystemSet.keeps (hsv : Answering sv) {pfxpath canonpath : List UInt8} {pfxobj : Obj}
    {objtype : ℕ} {r : Except NsError Unit}
    (h : SystemSet sv s pfxpath pfxobj objtype canonpath r s') : Keeps s s' := by
  cases h with
  | overflow hget => exact hget.guards.keeps
  | @rejected t slot e err world hget he hauth =>
    refine ⟨by simp [Continues, hget.log], fun _ ht => ?_⟩
    refine hget.tidy_store ht he (fun slot' => ?_)
      (((hget.tidy ht).1.count _ _).advance world).sound rfl ⟨fun _ => rfl, fun _ => rfl⟩
    rw [advance_entry, count_entry]
  | @stored t s' slot e obj world hget he hauth hflush =>
    refine Keeps.trans ⟨by simp [Continues, hget.log], fun _ ht => ?_⟩ hflush.guards.keeps
    have hobj := hsv.authenticate _ _ _ _ obj hauth
    refine hget.tidy_store ht he (fun slot' => ?_)
      ((((hget.tidy ht).1.count _ _).advance world).count _ _).sound rfl
      ⟨fun hnone => absurd hnone hobj, by simp⟩
    rw [count_entry, advance_entry, count_entry]

theorem SystemSet.intact {pfxpath canonpath : List UInt8} {pfxobj : Obj} {objtype : ℕ}
    {e : NsError} (h : SystemSet sv s pfxpath pfxobj objtype canonpath (.error e) s') (hs : Tidy s)
    (hnone : ∀ slot e, s.entry slot = some e → Permanent e → e.prefixPath ≠ cString pfxpath) :
    Intact s s' := by
  cases h with
  | overflow hget => exact (hget.tidy hs).2
  | @rejected t slot e err world hget he hauth =>
    have hspare : Spare e := by
      rw [← not_permanent_iff]
      intro hp
      exact hnone slot e (hget.permanent hs he hp) hp (hget.sole hs.sole he).1
    have hentry (slot' : Slot) :
        ((t.count (-1) e.target).advance world).entry slot' = t.entry slot' := by
      rw [advance_entry, count_entry]
    refine ((hget.tidy hs).2.trans (Intact.of_entry hentry)).trans (Intact.store ?_ hspare)
    rw [hentry, he]

theorem Cached.still {pfxpath canonpath : List UInt8} {pfxobj : Option Obj} {objtype : ℕ}
    {r : Except NsError Unit} (h : Cached s pfxpath pfxobj objtype canonpath r s') :
    Still s s' := by
  cases h with
  | overflow hget => simp [Still, happened, hget.log]
  | @stored t slot e hget he =>
    simp only [Still, happened, store_log, count_log, notes, hget.log, drop_left, cachingNotes]
    split_ifs <;> rfl

theorem Flushed.intact (h : Flushed s s') (hs : Tidy s) : Intact s s' := by
  refine h.guards.intact ?_ ?_ hs
  · simp [Calm, happened, h.log]
  · simp [Still, happened, h.log]

theorem setUser_refused (hsv : Answering sv) {n : ℕ} {pfxpath targetpath : List UInt8} {e : NsError}
    (hs : s.Sound)
    (hm : Returns (nsSetUserPrefix sv (callees sv n) pfxpath targetpath) s (.error e) s') :
    Guards s s' := by
  simp only [nsSetUserPrefix, returns_bind] at hm
  obtain ⟨f, t, hfully, hm⟩ := hm
  obtain ⟨ht, hguards, -⟩ :=
    holds_fully (respects_callees (guards_rule hsv) n).1 targetpath _ _ s f t hs hfully
  cases f with
  | error e' =>
    obtain ⟨-, rfl⟩ := returns_pure.mp hm
    exact hguards
  | ok f =>
    simp only [returns_bind, orFault, returns_lift] at hm
    obtain ⟨canon, t', ⟨-, rfl⟩, hm⟩ := hm
    cases user_entered ht hm with
    | overflow hget =>
      refine (hguards.trans hget.guards).trans (Guards.of_tidy (by simp) fun h => ?_)
      exact ⟨h.count _ _, Intact.of_entry fun slot => count_entry _ _ _ slot⟩

section Calls

variable {n : ℕ} {r : Except NsError (Option Obj)}

theorem map_none_error {a : Except NsError Unit} {e : NsError}
    (h : (a.map fun _ => (none : Option Obj)) = .error e) : a = .error e := by
  cases a with
  | error e' => exact congrArg _ (Except.error.inj h)
  | ok u => cases h

theorem held_map_none (a : Except NsError Unit) :
    held (returned (a.map fun _ => (none : Option Obj))) = 0 := by
  cases a <;> rfl

theorem setToken_flushed {token : ℕ} {u : Unit} (h : Returns (nsSetToken token) s u s') :
    Flushed { s with identityVersion := s.identityVersion + 1, token := token } s' := by
  simp only [nsSetToken, returns_bind, returns_modify] at h
  obtain ⟨_, _, rfl, h⟩ := h
  exact flushed_all h

theorem Searched.handed {u : SetUser W} {path : Path} {f : FoundPrefix}
    (h : Searched sv u s path f s') : returned f.handed = f.obj := by
  cases h with
  | none => rfl
  | @some t slot len e e' hbest he he' ht =>
    cases htarget : e'.target <;> simp [FoundPrefix.handed, returned]

theorem call_kept (hsv : Answering sv) {call : TableCall} (hm : Returns (call.run sv n) s r s')
    (hs : s.Sound) : Keeps s s' ∧ Settled s s' (held (returned r)) := by
  have hrespects := respects_callees (guards_rule hsv) n
  cases call with
  | setSystem pfxpath pfxobj objtype canonpath =>
    obtain ⟨a, hr, rfl⟩ := returns_then_pure hm
    have heffect := system_set hs hr
    exact ⟨heffect.keeps hsv, held_map_none a ▸ heffect.settled hs⟩
  | setUser pfxpath targetpath =>
    obtain ⟨a, hr, rfl⟩ := returns_then_pure hm
    have hstep := setUser_step (guards_rule hsv) hrespects.1 hs hr
    exact ⟨hstep.2, held_map_none a ▸ hstep.1⟩
  | setCache pfxpath pfxobj objtype canonpath =>
    obtain ⟨a, hr, rfl⟩ := returns_then_pure hm
    have heffect := cached hs hr
    exact ⟨heffect.guards.keeps, held_map_none a ▸ heffect.settled hs⟩
  | invalidate path =>
    obtain ⟨a, hr, rfl⟩ := returns_then_pure hm
    have heffect := invalidated hs hr
    exact ⟨(heffect.guards hrespects.2 hs).keeps,
      held_map_none a ▸ heffect.settled hrespects.1.settles hs⟩
  | flush =>
    obtain ⟨a, hr, rfl⟩ := returns_then_pure hm
    have heffect := flushed_all hr
    exact ⟨heffect.guards.keeps, heffect.settled hs⟩
  | find path =>
    obtain ⟨f, hr, rfl⟩ := returns_then_pure hm
    have heffect := searched hs hr
    refine ⟨(heffect.guards hrespects.2 hsv hs).keeps, ?_⟩
    rw [heffect.handed]
    exact heffect.settled hrespects.1.settles hs
  | setToken token =>
    obtain ⟨a, hr, rfl⟩ := returns_then_pure hm
    have heffect := setToken_flushed hr
    have hsettled := heffect.settled ⟨hs.size, hs.last⟩
    have hrenamed : Keeps s { s with identityVersion := s.identityVersion + 1, token := token } :=
      ⟨prefix_refl _, fun _ ht => ht.congr ⟨hs.size, hs.last⟩ fun slot => by cases slot <;> rfl⟩
    exact ⟨hrenamed.trans heffect.guards.keeps, hsettled.sound, hsettled.ledger⟩

theorem call_guarded (hsv : Answering sv) (x : Step W) (hx : x.Real sv) (hproper : x.Proper)
    (hs : Tidy x.before) : x.Guarded := by
  obtain ⟨call, r, s, s'⟩ := x
  obtain ⟨n, hm⟩ := hx
  intro hcase
  cases call with
  | setSystem pfxpath pfxobj objtype canonpath =>
    obtain ⟨e, rfl⟩ := (hcase.resolve_left id).2
    obtain ⟨a, hr, ha⟩ := returns_then_pure hm
    obtain rfl := map_none_error ha
    exact (system_set hs.sound hr).intact hs (hproper.system _ _ _ _ rfl ⟨e, rfl⟩)
  | setUser pfxpath targetpath =>
    obtain ⟨e, rfl⟩ := (hcase.resolve_left id).2
    obtain ⟨a, hr, ha⟩ := returns_then_pure hm
    obtain rfl := map_none_error ha
    exact (setUser_refused hsv hs.sound hr).intact hproper.calm (hproper.user _ _ rfl ⟨e, rfl⟩) hs
  | setCache pfxpath pfxobj objtype canonpath =>
    obtain ⟨a, hr, rfl⟩ := returns_then_pure hm
    have heffect := cached hs.sound hr
    exact heffect.guards.intact hproper.calm heffect.still hs
  | invalidate path => exact absurd hcase (by simp [Step.Caching, Step.Setting])
  | flush =>
    obtain ⟨a, hr, rfl⟩ := returns_then_pure hm
    exact (flushed_all hr).intact hs
  | find path => exact absurd hcase (by simp [Step.Caching, Step.Setting])
  | setToken token =>
    obtain ⟨e, rfl⟩ := (hcase.resolve_left id).2
    obtain ⟨a, -, ha⟩ := returns_then_pure hm
    cases ha

end Calls

def Runs (sv : Servers W) : StdName W → List (Step W) → StdName W → Prop
  | s, [], s' => s' = s
  | s, x :: xs, s' => x.before = s ∧ x.Real sv ∧ Runs sv x.after xs s'

def handed (xs : List (Step W)) : Obj → ℤ := (xs.map fun x => held (returned x.result)).sum

theorem runs_kept (hsv : Answering sv) {xs : List (Step W)} (hrun : Runs sv s xs s')
    (hproper : ∀ x ∈ xs, x.Proper) (hs : Tidy s) :
    Tidy s' ∧ (∀ x ∈ xs, x.Guarded) ∧ s'.ledger = s.ledger + handed xs := by
  induction xs generalizing s with
  | nil =>
    obtain rfl := hrun
    exact ⟨hs, by simp, by simp [handed]⟩
  | cons x xs ih =>
    obtain ⟨rfl, hx, hrun⟩ := hrun
    have hxproper := hproper x mem_cons_self
    obtain ⟨n, hm⟩ := id hx
    obtain ⟨hkeeps, hsettled⟩ := call_kept hsv hm hs.sound
    obtain ⟨htidy, hguarded, hledger⟩ := ih hrun
      (fun y hy => hproper y (mem_cons_of_mem _ hy)) (hkeeps.tidy hxproper.calm hs)
    refine ⟨htidy, forall_mem_cons.mpr ⟨call_guarded hsv x hx hxproper hs, hguarded⟩, ?_⟩
    rw [hledger, hsettled.ledger, add_assoc]
    rfl

def PfxEntry.holds (o : Obj) (e : PfxEntry) : Bool := e.type ≠ .invalid && e.target = some o

def StdName.holders (s : StdName W) (o : Obj) : ℕ :=
  (s.nullPrefix :: s.pfxTable).countP fun e => e.any (PfxEntry.holds o)

theorem Tidy.tableRefs (h : Tidy s) (o : Obj) : s.tableRefs o = s.holders o := by
  have hentry : ∀ e ∈ s.nullPrefix :: s.pfxTable, held (e.bind PfxEntry.target) o =
      if e.any (PfxEntry.holds o) then 1 else 0 := by
    intro e he
    cases e with
    | none => rfl
    | some e =>
      have hslot : ∃ slot, s.entry slot = some e := by
        rcases mem_cons.mp he with he | he
        · exact ⟨.null, he.symm⟩
        · obtain ⟨i, hi⟩ := getElem?_of_mem he
          exact ⟨.index i, by simp [entry, hi]⟩
      obtain ⟨slot, hslot⟩ := hslot
      have htarget := h.target slot e hslot
      cases hobj : e.target with
      | none => simp [hobj, PfxEntry.holds]
      | some x =>
        have hvalid : e.type ≠ .invalid := fun hinvalid => by simp [hobj, hinvalid] at htarget
        simp [hobj, PfxEntry.holds, hvalid, held]
  rw [StdName.tableRefs, StdName.holders]
  generalize s.nullPrefix :: s.pfxTable = l at hentry
  induction l with
  | nil => rfl
  | cons e l ih =>
    have htail := ih fun e' he' => hentry e' (mem_cons_of_mem _ he')
    rw [map_cons, sum_cons, Pi.add_apply, htail, hentry e mem_cons_self, countP_cons]
    split_ifs <;> simp [add_comm]

theorem prefix_table_kept (hsv : Answering sv) (world : W) (refs : Obj → ℤ) (xs : List (Step W))
    (s : StdName W) (hrun : Runs sv { create world with refs := refs } xs s)
    (hproper : ∀ x ∈ xs, x.Proper) :
    Tidy s ∧ (∀ x ∈ xs, x.Guarded) ∧
      ∀ o, s.refs o = refs o + s.holders o + handed xs o + s.lost o := by
  obtain ⟨htidy, hguarded, hledger⟩ := runs_kept hsv hrun hproper (Tidy.create world refs)
  refine ⟨htidy, hguarded, fun o => ?_⟩
  have hstart : ({ create world with refs := refs } : StdName W).tableRefs o = 0 := by
    rw [(Tidy.create world refs).tableRefs]
    rfl
  have hledger := congrFun hledger o
  simp only [ledger, Pi.add_apply, Pi.sub_apply, htidy.tableRefs, hstart] at hledger
  have hlost : ({ create world with refs := refs } : StdName W).lost o = 0 := rfl
  rw [hlost] at hledger
  omega

def execute (sv : Servers W) (n : ℕ) : StdName W → List TableCall → Option (List (Step W) × StdName W)
  | s, [] => some ([], s)
  | s, call :: calls =>
    match call.run sv n s with
    | .error _ => none
    | .ok (r, t) => (execute sv n t calls).map fun (xs, s') => (⟨call, r, s, t⟩ :: xs, s')

theorem runs_of_execute {n : ℕ} {calls : List TableCall} {xs : List (Step W)}
    (h : execute sv n s calls = some (xs, s')) : Runs sv s xs s' := by
  induction calls generalizing s xs with
  | nil =>
    cases Option.some.inj h
    rfl
  | cons call calls ih =>
    rw [execute] at h
    split at h
    · cases h
    · next r t hcall =>
      obtain ⟨⟨ys, s''⟩, hrest, heq⟩ := Option.map_eq_some_iff.mp h
      cases heq
      exact ⟨rfl, ⟨n, hcall⟩, ih hrest⟩

def executes (sv : Servers W) (n : ℕ) (s : StdName W) (calls : List TableCall)
    (test : List (Step W) → StdName W → Bool) : Bool :=
  match execute sv n s calls with
  | some (xs, s') => test xs s'
  | none => false

theorem runs_of_executes {n : ℕ} {calls : List TableCall}
    {test : List (Step W) → StdName W → Bool} (h : executes sv n s calls test = true) :
    ∃ xs s', Runs sv s xs s' ∧ test xs s' = true := by
  rw [executes] at h
  split at h
  · next xs s' hrun => exact ⟨xs, s', runs_of_execute hrun, h⟩
  · cases h

theorem rootedAt_answering (reply : Reply) (h : reply.obj ≠ none) : Answering (rootedAt reply) where
  authenticate := by
    rintro w o access token r hr rfl
    cases hr
  duplicate := by
    rintro w o access r hr rfl
    cases hr
  resolve := by
    rintro w o path mode access r hr hnone
    cases hr
    exact absurd hnone h

def Step.plain (x : Step W) : Bool :=
  (match x.result with
    | .ok _ => true
    | .error _ => false) && (happened x.before x.after).all Happening.calm

theorem Step.proper_of_plain {x : Step W} (h : x.plain = true) : x.Proper := by
  rw [Step.plain, Bool.and_eq_true] at h
  have hfailed : ¬Failed x.result := by
    rintro ⟨e, he⟩
    rw [he] at h
    cases h.1
  exact ⟨h.2, fun _ _ _ _ _ hf => absurd hf hfailed, fun _ _ _ hf => absurd hf hfailed⟩

def tableCalls : List TableCall :=
  [.setSystem [slash] 0 1 [slash], .setUser [slash, 117] [slash],
    .setCache [slash, 97] (some 1) 1 [slash, 97], .find [slash, 97, slash, 98]]

theorem prefix_table_kept_tableCalls :
    ∃ xs s, Runs (rootedAt plainFile) { create () with refs := fun _ => 0 } xs s ∧
      xs.length = 4 ∧ Tidy s ∧ s.holders 0 = 2 ∧ s.holders 1 = 1 := by
  obtain ⟨xs, s, hrun, htest⟩ := runs_of_executes
    (show executes (rootedAt plainFile) 1 { create () with refs := fun _ => 0 } tableCalls
      (fun xs s => xs.all Step.plain && xs.length = 4 && s.holders 0 = 2 && s.holders 1 = 1) = true
      by decide +kernel)
  simp only [Bool.and_eq_true, all_eq_true, decide_eq_true_eq] at htest
  obtain ⟨⟨⟨hplain, hlength⟩, hroot⟩, hfile⟩ := htest
  have hkept := prefix_table_kept (rootedAt_answering plainFile (by simp [plainFile])) ()
    (fun _ => 0) xs s hrun fun x hx => Step.proper_of_plain (hplain x hx)
  exact ⟨xs, s, hrun, hlength, hkept.1, hroot, hfile⟩

def demotes (x : Step W) : Bool :=
  x.call = .setCache [slash] (some 1) 1 [slash] &&
    match x.before.entry (.index 9) with
    | some e => e.type = .system && x.after.entry (.index 9) ≠ some e
    | none => false

theorem caching_demotes_system_entry :
    Answering (rootedAt plainFile) ∧
    ∃ xs s, Runs (rootedAt plainFile) { create () with refs := fun _ => 0 } xs s ∧
      ¬∀ x ∈ xs, x.Guarded := by
  refine ⟨rootedAt_answering plainFile (by simp [plainFile]), ?_⟩
  obtain ⟨xs, s, hrun, htest⟩ := runs_of_executes
    (show executes (rootedAt plainFile) 1 { create () with refs := fun _ => 0 }
      [.setSystem [slash] 0 1 [slash], .setCache [slash] (some 1) 1 [slash]]
      (fun xs _ => xs.any demotes) = true by decide +kernel)
  obtain ⟨x, hx, hdemotes⟩ := any_eq_true.mp htest
  refine ⟨xs, s, hrun, fun hguarded => ?_⟩
  rw [demotes, Bool.and_eq_true, decide_eq_true_eq] at hdemotes
  have hcaching : x.Caching := by
    rw [Step.Caching, hdemotes.1]
    trivial
  have hintact := hguarded x hx (Or.inl hcaching)
  have hentry := hdemotes.2
  split at hentry
  · next e he =>
    rw [Bool.and_eq_true, decide_eq_true_eq, decide_eq_true_eq] at hentry
    exact hentry.2 (hintact _ e he (Or.inl hentry.1))
  · cases hentry

end MachUS.Naming
