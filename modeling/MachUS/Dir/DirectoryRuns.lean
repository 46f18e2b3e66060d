import MachUS.Dir.Lifetimes

namespace MachUS.Dir

open Program Transition Relation Service Option

def Careful (x : Service) : Event → Prop
  | .install op o type _ attrs =>
    type ≠ nstReserved ∧ (∀ i ∈ x.insertions op, PutElsewhere x.world i.dir o) ∧
      (IsTemporary (x.world.kind o) → (x.world.tmp o).active = true →
        (x.world.tmp o).parent = none → attrs = .success)
  | _ => True

def ReadsFreed (x : Service) : Event → Prop
  | .reserve _ d name fresh => nsReserveEntry d name fresh x.world = .error .badEntry
  | .install op o type objId attrs => ∃ i, x.insertions op = some i ∧
    nsInstallEntry i.dir i.tag o type objId attrs x.world = .error .badEntry
  | .cancel op => ∃ i, x.insertions op = some i ∧
    nsCancelEntry i.dir i.tag x.world = .error .badEntry
  | .lookup d name answers => nsLookupEntry d name answers x.world = .error .badEntry
  | .remove d name answers => nsRemoveEntry d name answers x.world = .error .badEntry
  | .list d => nsListEntries d x.world = .error .badEntry
  | .callback o => ∃ l, x.calling o = some l ∧ nsRemoveTmplink l.dir l.tag x.world = .error .badEntry
  | _ => False

namespace Sound

variable {x y : Service} (h : Sound x)

include h

theorem references {o : ObjId} {answers : Answers}
    (hnext : x.references o answers = some y) : Sound y := by
  have hshuts := shuts_ifUnused (lastAnswer x.world o answers.lastChance) (h.linked o)
  rw [Service.references] at hnext
  split at hnext
  · next p hstays =>
    rw [show TmpProp.shutdownIfUnused _ _ = (p, .stays) from hstays] at hshuts
    have hfields : p.referenced.2.parent = p.parent ∧ p.referenced.2.tmplinkCount = p.tmplinkCount ∧
        p.referenced.2.temporaryObj = p.temporaryObj ∧ p.referenced.2.active = p.active := by
      rw [TmpProp.referenced]
      split_ifs <;> exact ⟨rfl, rfl, rfl, rfl⟩
    obtain ⟨hparent, hcount, hobj, hactive⟩ := hfields
    cases hnext
    cases hshuts with
    | stays parent count obj active =>
      exact h.setTmp (hparent.trans parent) (hcount.trans count) (hobj.trans obj) fun hlinked =>
        hactive.trans (active hlinked)
  · exact h.shutsDown hshuts hnext

theorem unregistersStronglink {o : ObjId} {answers : Answers}
    (hnext : x.unregistersStronglink o answers = some y) : Sound y := by
  rw [Service.unregistersStronglink] at hnext
  split at hnext
  · cases hnext
  · have hshuts := shuts_ifUnused (lastAnswer x.world o answers.lastChance)
      (p := { x.world.tmp o with stronglinkCount := (x.world.tmp o).stronglinkCount - 1 }) (h.linked o)
    exact h.shutsDown (shuts_dereference (hshuts.of_eq rfl rfl rfl rfl)) hnext
  · cases hnext
    exact h

theorem registered {o : ObjId} : Sound (x.setTmp o (x.world.tmp o).nsRegisterAgent) ∧
    Sound (x.setTmp o (x.world.tmp o).nsRegisterStronglink) := by
  have hlate : (x.world.tmp o).registered.parent = (x.world.tmp o).parent ∧
      (x.world.tmp o).registered.tmplinkCount = (x.world.tmp o).tmplinkCount ∧
        (x.world.tmp o).registered.temporaryObj = (x.world.tmp o).temporaryObj ∧
          (x.world.tmp o).registered.active = (x.world.tmp o).active := by
    rw [TmpProp.registered]
    split_ifs <;> exact ⟨rfl, rfl, rfl, rfl⟩
  obtain ⟨hparent, hcount, hobj, hactive⟩ := hlate
  constructor
  · exact h.setTmp hparent hcount hobj fun _ => hactive
  · rw [TmpProp.nsRegisterStronglink, TmpProp.referenceTemporary]
    split_ifs
    · exact h.setTmp hparent hcount hobj fun _ => hactive
    · exact h.setTmp hparent hcount hobj fun _ => hactive

theorem step {event : Event} (hcareful : Careful x event) (hnext : x.next event = some y) :
    Sound y := by
  cases event with
  | reserve op d name fresh => exact h.reserve hnext
  | install op o type objId attrs => exact h.install hcareful.1 hcareful.2.2 hnext
  | cancel op => exact h.cancel hnext
  | lookup d name answers => exact h.lookup hnext
  | remove d name answers => exact h.remove hnext
  | list d => exact h.list hnext
  | referenceTmplink o answers => exact h.references hnext
  | registerStronglink o => exact some.inj hnext ▸ h.registered.2
  | unregisterStronglink o answers => exact h.unregistersStronglink hnext
  | registerAgent o => exact some.inj hnext ▸ h.registered.1
  | unregisterAgent o answers =>
    have hshuts := shuts_ifUnused (lastAnswer x.world o answers.lastChance)
      (p := { x.world.tmp o with agentCount := (x.world.tmp o).agentCount - 1 }) (h.linked o)
    exact h.shutsDown (hshuts.of_eq rfl rfl rfl rfl) hnext
  | callback o => exact h.callback hnext

omit h in
theorem safe {α : Type} {m : M α} {Q : α → View → Prop} (hdoes : Does m x.world.view Q) :
    m x.world ≠ .error .badEntry :=
  fun hbad => (hdoes x.world rfl).1 _ hbad rfl

theorem not_readsFreed {event : Event} (hcareful : Careful x event) : ¬ReadsFreed x event := by
  have hread := h.coherent.tables.readable
  cases event with
  | reserve op d name fresh => exact safe (does_reserve fresh (hread d))
  | install op o type objId attrs =>
    rintro ⟨i, hi, hbad⟩
    obtain ⟨e, he⟩ := h.coherent.reservations.owned op i hi
    exact safe (does_install (h.coherent.ne_null he.entry) he.entry he.type hcareful.2.2) hbad
  | cancel op =>
    rintro ⟨i, hi, hbad⟩
    obtain ⟨e, he⟩ := h.coherent.reservations.owned op i hi
    exact safe (Q := fun _ _ => True)
      (does_cancel he.entry (h.coherent.ne_null he.entry) he.type he.linked trivial) hbad
  | lookup d name answers =>
    intro hbad
    by_cases hslip : Slips x.world (.lookup d name answers)
    · obtain ⟨l, hl⟩ := dies_lookup h.holds hslip
      cases hl.symm.trans hbad
    · exact safe (h.does_lookup hslip) hbad
  | remove d name answers => exact safe (does_remove (hread d) (h.occupied d name))
  | list d => exact safe (does_list (hread d))
  | callback o =>
    rintro ⟨l, hl, hbad⟩
    obtain ⟨e, he⟩ := h.coherent.bonds.target o l ((h.coherent.calls o l).mp hl).1
    exact safe (Q := fun _ _ => True) (does_removeTmplink he.entry (h.coherent.ne_null he.entry)
      (fun _ => trivial) fun _ => trivial) hbad
  | _ => exact id

end Sound

def Service.start (kind : ObjId → Kind) : Service where
  world := World.start kind
  insertions := fun _ => none
  calling := fun _ => none
  stuck := fun _ => false

theorem sound_start (kind : ObjId → Kind) : Sound (start kind) := by
  refine ⟨rfl, rfl, ?tables, ?serials, ?bonds, ?logs, ?reservations, ?calls⟩
  case tables => constructor <;> simp [start, World.start, World.view, entriesIn]
  case serials => constructor <;> simp [start, World.start, World.view]
  case bonds => constructor <;> simp [start, World.start, World.view, TmpProp.start, Refers]
  case logs => constructor <;> simp [start, World.start, World.view, TmpProp.start, Refers]
  case reservations => constructor <;> simp [start]
  case calls => simp [start, World.start, World.view, TmpProp.start, Refers]

theorem sound_run {kind : ObjId → Kind} {x : Service}
    (hrun : ReflTransGen (Under next Careful) (start kind) x) : Sound x :=
  Transition.invariant (I := Sound) (fun _ _ _ hx hcareful hnext => hx.step hcareful hnext) hrun
    (sound_start kind)

instance decidableTemporary : DecidablePred IsTemporary
  | .temporary => isTrue trivial
  | .temporaryDirectory _ => isTrue trivial
  | .foreign => isFalse id
  | .agency => isFalse id
  | .directory _ => isFalse id

instance decidablePutElsewhere (w : World) (d : DirId) (o : ObjId) : Decidable (PutElsewhere w d o) :=
  inferInstanceAs (Decidable (¬(w.kind o = .directory d ∨ w.kind o = .temporaryDirectory d ∧
    (w.tmp o).active = true ∧ (w.tmp o).parent = none)))

instance decidableCareful (x : Service) : DecidablePred (Careful x)
  | .install op o type _ attrs =>
    inferInstanceAs (Decidable (type ≠ nstReserved ∧
      (∀ i ∈ x.insertions op, PutElsewhere x.world i.dir o) ∧
        (IsTemporary (x.world.kind o) → (x.world.tmp o).active = true →
          (x.world.tmp o).parent = none → attrs = .success)))
  | .reserve .. => isTrue trivial
  | .cancel .. => isTrue trivial
  | .lookup .. => isTrue trivial
  | .remove .. => isTrue trivial
  | .list .. => isTrue trivial
  | .referenceTmplink .. => isTrue trivial
  | .registerStronglink .. => isTrue trivial
  | .unregisterStronglink .. => isTrue trivial
  | .registerAgent .. => isTrue trivial
  | .unregisterAgent .. => isTrue trivial
  | .callback .. => isTrue trivial

structure DirectoryTable (x : Service) : Prop where
  sole : ∀ d i j, ∀ a ∈ (x.world.dirs d).buckets i, ∀ b ∈ (x.world.dirs d).buckets j, ∀ e e',
    x.world.entries a = some e → x.world.entries b = some e' → e.name = e'.name → a = b
  once : ∀ d i, ((x.world.dirs d).buckets i).Nodup
  hashed : ∀ d i, ∀ a ∈ (x.world.dirs d).buckets i,
    ∃ e, x.world.entries a = some e ∧ nameHash e.name = i
  counted : ∀ d, (x.world.dirs d).entryCount = entriesIn (x.world.dirs d).buckets
  reserved : ∀ op i, x.insertions op = some i → ∃ e, x.world.found i.dir i.name = some (i.tag, e) ∧
    e.serial = i.serial ∧ e.type = nstReserved ∧ e.obj = none
  owner : ∀ op op' i i', x.insertions op = some i → x.insertions op' = some i' → i.tag = i'.tag →
    op = op'
  unseen : ∀ op i answers o type w, x.insertions op = some i →
    ¬Returns (nsLookupEntry i.dir i.name answers) x.world (some (.success, some (o, type))) w

theorem Sound.reservation {x : Service} (h : Sound x) {op : OpId} {i : Insertion}
    (hi : x.insertions op = some i) : ∃ e, x.world.found i.dir i.name = some (i.tag, e) ∧
      e.serial = i.serial ∧ e.type = nstReserved ∧ e.obj = none := by
  obtain ⟨e, he⟩ := h.coherent.reservations.owned op i hi
  refine ⟨e, ?_, he.serial, he.type, ?_⟩
  · rw [view_found, ← he.name]
    exact h.coherent.tables.found_of_linked he.entry he.linked
  · cases h.coherent.bonds.placed _ e he.entry with
    | reserved _ _ _ hobj _ => exact hobj
    | installed _ _ _ htype _ _ => exact (htype he.type).elim
    | dropped _ _ _ _ hobj _ => exact hobj

theorem does_lookup_reserved {v : View} {d : DirId} {name : Name} {answers : Answers} {a : Addr}
    {e : Entry} (hread : v.Readable d) (hfound : v.found d name = some (a, e))
    (htype : e.type = nstReserved) :
    Does (nsLookupEntry d name answers) v fun r _ => r = none ∨ r = some (.nameTooLong, none) := by
  refine does_walk hread (Or.inr rfl) (fun hnone => ?_) (does_done (Or.inl rfl)) fun b f hb hother => ?_
  · cases hfound.symm.trans hnone
  · cases some.inj (hfound.symm.trans hb)
    exact (hother htype).elim

theorem directory_table_kept {kind : ObjId → Kind} {x : Service}
    (hrun : ReflTransGen (Under next Careful) (start kind) x) : DirectoryTable x := by
  have h := sound_run hrun
  have htables := h.coherent.tables
  refine ⟨?_, htables.nodup, htables.live, htables.counted, fun op i hi => h.reservation hi,
    h.coherent.reservations.sole, ?_⟩
  · intro d i j a ha b hb e e' he he' hname
    obtain ⟨f, hf, rfl⟩ := htables.live d i a ha
    obtain ⟨f', hf', rfl⟩ := htables.live d j b hb
    obtain rfl := some.inj (hf.symm.trans he)
    obtain rfl := some.inj (hf'.symm.trans he')
    exact htables.unique d _ a ha b (hname ▸ hb) f f' hf hf' hname
  · intro op i answers o type w hi hret
    obtain ⟨e, hfound, -, htype, -⟩ := h.reservation hi
    rw [view_found] at hfound
    have hlookup := (does_lookup_reserved (htables.readable i.dir) hfound htype x.world rfl).2 _ w hret
    simp at hlookup

structure EntryLifetimes (x : Service) : Prop where
  once : x.world.freed.Nodup
  inUse : ∀ a e, x.world.entries a = some e → e.serial < x.world.serials ∧ e.serial ∉ x.world.freed
  single : ∀ a b e e', x.world.entries a = some e → x.world.entries b = some e' →
    e.serial = e'.serial → a = b
  accounted : ∀ s < x.world.serials, s ∈ x.world.freed ∨
    ∃ a e, x.world.entries a = some e ∧ e.serial = s
  linked : ∀ d i, ∀ a ∈ (x.world.dirs d).buckets i, ∃ e, x.world.entries a = some e
  reserved : ∀ op i, x.insertions op = some i →
    ∃ e, x.world.entries i.tag = some e ∧ e.serial = i.serial
  called : ∀ o l, (x.world.tmp o).parent = some l →
    ∃ e, x.world.entries l.tag = some e ∧ e.serial = l.serial
  awaited : ∀ a e, x.world.entries a = some e →
    (∃ d, a ∈ (x.world.dirs d).buckets (nameHash e.name)) ∨
      ∃ o d, (x.world.tmp o).parent = some ⟨d, a, e.serial⟩
  registered : x.world.registered.Nodup
  unregistered : x.world.unregistered.Nodup
  matched : ∀ s ∈ x.world.unregistered, s ∈ x.world.registered
  settled : ∀ s ∈ x.world.freed, s ∈ x.world.registered → s ∈ x.world.unregistered
  outstanding : ∀ s ∈ x.world.registered, s ∉ x.world.unregistered →
    ∃ o l, (x.world.tmp o).parent = some l ∧ (x.world.tmp o).active = true ∧ l.serial = s

theorem Sound.lifetimes {x : Service} (h : Sound x) : EntryLifetimes x := by
  have hcoherent := h.coherent
  refine ⟨hcoherent.serials.once, hcoherent.serials.fresh, hcoherent.serials.sole,
    hcoherent.serials.kept, fun d i a ha => hcoherent.tables.readable d i a ha, ?_, ?_, ?_,
    hcoherent.logs.once, hcoherent.logs.back, hcoherent.logs.matched, ?_, hcoherent.logs.pending⟩
  · intro op i hi
    obtain ⟨e, he⟩ := hcoherent.reservations.owned op i hi
    exact ⟨e, he.entry, he.serial⟩
  · intro o l hl
    obtain ⟨e, he⟩ := hcoherent.bonds.target o l hl
    exact ⟨e, he.entry, he.serial⟩
  · intro a e he
    cases hcoherent.bonds.placed a e he with
    | reserved d hlinked _ _ _ => exact Or.inl ⟨d, hlinked⟩
    | installed d _ hlinked _ _ _ => exact Or.inl ⟨d, hlinked⟩
    | dropped d o _ _ _ hrefers => exact Or.inr ⟨o, d, hrefers⟩
  · intro s hfreed hs
    by_contra hnot
    obtain ⟨o, l, hl, -, rfl⟩ := hcoherent.logs.pending s hs hnot
    obtain ⟨e, he⟩ := hcoherent.bonds.target o l hl
    exact (hcoherent.serials.fresh _ e he.entry).2 (he.serial ▸ hfreed)

theorem entry_lifetimes_kept {kind : ObjId → Kind} {x : Service}
    (hrun : ReflTransGen (Under next Careful) (start kind) x) :
    EntryLifetimes x ∧ ∀ event, Careful x event → ¬ReadsFreed x event :=
  ⟨(sound_run hrun).lifetimes, fun _ hcareful => (sound_run hrun).not_readsFreed hcareful⟩

def temporaryObject : List Event :=
  [.registerAgent 1, .reserve 0 0 [97] 1, .install 0 1 3 7 .success, .lookup 0 [97] ⟨.success, .success⟩,
    .reserve 0 0 [98] 2, .unregisterAgent 1 ⟨.success, .success⟩, .callback 1]

theorem directory_table_kept_temporaryObject :
    ∃ x, exec next (start fun _ => .temporary) temporaryObject = some x ∧
      DirectoryTable x ∧ (x.world.dirs 0).entryCount = 1 := by
  have hcheck : check next (start fun _ => .temporary) temporaryObject
      (fun x => decide ((x.world.dirs 0).entryCount = 1)) = true := by decide +kernel
  obtain ⟨x, hx, hcount⟩ := exec_of_check hcheck
  have hcareful : Admits next Careful (start fun _ => .temporary) temporaryObject := by
    decide +kernel
  exact ⟨x, hx, directory_table_kept (run_of_exec hcareful hx), of_decide_eq_true hcount⟩

theorem entry_lifetimes_kept_temporaryObject :
    ∃ x, exec next (start fun _ => .temporary) temporaryObject = some x ∧
      EntryLifetimes x ∧ x.world.freed = [0] := by
  have hcheck : check next (start fun _ => .temporary) temporaryObject
      (fun x => decide (x.world.freed = [0])) = true := by decide +kernel
  obtain ⟨x, hx, hfreed⟩ := exec_of_check hcheck
  have hcareful : Admits next Careful (start fun _ => .temporary) temporaryObject := by
    decide +kernel
  exact ⟨x, hx, (entry_lifetimes_kept (run_of_exec hcareful hx)).1, of_decide_eq_true hfreed⟩

def failedInstallation : List Event :=
  [.reserve 0 0 [97] 1, .install 0 1 3 7 (.other 5)]

theorem shutdown_frees_reservation :
    ¬∀ kind x, ReflTransGen (Under next Free) (start kind) x → DirectoryTable x := by
  intro h
  have hcheck : check next (start fun _ => .temporary)
      (failedInstallation ++ [.registerAgent 1, .unregisterAgent 1 ⟨.success, .success⟩, .callback 1,
        .reserve 1 0 [97] 2, .install 1 2 3 8 .success])
      (fun x => match x.insertions 0 with
        | some i => (x.world.found i.dir i.name).any fun r => decide (r.2.type ≠ nstReserved)
        | none => false) = true := by decide +kernel
  obtain ⟨x, hx, htest⟩ := exec_of_check hcheck
  have htable := h _ x (run_of_exec (free_admits _ _) hx)
  cases hi : x.insertions 0 with
  | none => simp [hi] at htest
  | some i =>
    obtain ⟨e, hfound, -, htype, -⟩ := htable.reserved 0 i hi
    simp [hi, hfound, htype] at htest

theorem cancelled_registration_stays :
    ¬∀ kind x, ReflTransGen (Under next Free) (start kind) x →
      EntryLifetimes x ∧ ∀ event, ¬ReadsFreed x event := by
  intro h
  have hcheck : check next (start fun _ => .temporary)
      (failedInstallation ++ [.cancel 0])
      (fun x => decide (0 ∈ x.world.freed ∧ 0 ∈ x.world.registered ∧ 0 ∉ x.world.unregistered)) =
        true := by decide +kernel
  obtain ⟨x, hx, htest⟩ := exec_of_check hcheck
  obtain ⟨hlifetimes, -⟩ := h _ x (run_of_exec (free_admits _ _) hx)
  obtain ⟨hfreed, hregistered, hopen⟩ := of_decide_eq_true htest
  exact hopen (hlifetimes.settled 0 hfreed hregistered)

end MachUS.Dir
