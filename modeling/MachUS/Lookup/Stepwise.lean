import MachUS.Lookup.Mediation

namespace MachUS.Lookup

open List Or Agent

variable {tree : Tree}

def stepwise (mode access : UInt32) (a : Agent tree) (lead : Path) (c : UInt8) (tail : Path)
    (used : ℕ) : Result tree :=
  match _hrest : afterComponent tail with
  | [] =>
    let r := a.nsResolve (lead ++ segment c tail) mode access
    { r with usedlen := used + r.usedlen }
  | c' :: rest =>
    let r := a.nsResolve (lead ++ segment c tail) nsfFollowAll nsrLookup
    if r.ret ≠ .success ∨ r.action ≠ 0 then { r with usedlen := used + r.usedlen }
    else if r.newtype ≠ nstDirectory then
      abort tree .notDirectory r.newpath (used + r.usedlen) r.action
    else
      match r.newobj with
      | .agent b => stepwise mode access b [] c' rest (used + r.usedlen)
      | _ => abort tree .notDirectory r.newpath (used + r.usedlen) r.action
termination_by tail.length
decreasing_by
  have hle := afterComponent_length tail
  rw [_hrest, length_cons] at hle
  omega

def Agent.resolveStepwise (a : Agent tree) (path : Path) (mode access : UInt32) : Result tree :=
  match skipSlashes path with
  | [] => a.nsResolve path mode access
  | c :: tail => stepwise mode access a (path.takeWhile isSlash) c tail 0

variable {a : Agent tree} {mode access : UInt32} {lead : Path}

theorem stepwise_of_nil {c : UInt8} {tail : Path} (hrest : afterComponent tail = []) (used : ℕ) :
    stepwise mode access a lead c tail used =
      { a.nsResolve (lead ++ segment c tail) mode access with
        usedlen := used + (a.nsResolve (lead ++ segment c tail) mode access).usedlen } := by
  rw [stepwise]
  split
  next => rfl
  next hcons => rw [hrest] at hcons; cases hcons

variable {c c' : UInt8} {tail rest : Path}

theorem stepwise_of_cons (hrest : afterComponent tail = c' :: rest) (used : ℕ) {r : Result tree}
    (hr : a.nsResolve (lead ++ segment c tail) nsfFollowAll nsrLookup = r) :
    stepwise mode access a lead c tail used =
      if r.ret ≠ .success ∨ r.action ≠ 0 then { r with usedlen := used + r.usedlen }
      else if r.newtype ≠ nstDirectory then
        abort tree .notDirectory r.newpath (used + r.usedlen) r.action
      else
        match r.newobj with
        | .agent b => stepwise mode access b [] c' rest (used + r.usedlen)
        | _ => abort tree .notDirectory r.newpath (used + r.usedlen) r.action := by
  subst hr
  rw [stepwise]
  split
  next hnil => rw [hrest] at hnil; cases hnil
  next c'' rest' hcons =>
    rw [hrest] at hcons
    obtain ⟨rfl, rfl⟩ := cons.inj hcons
    rfl

theorem stepwise_stops (hrest : afterComponent tail = c' :: rest) (used : ℕ) {r : Result tree}
    (hr : a.nsResolve (lead ++ segment c tail) nsfFollowAll nsrLookup = r)
    (hstop : r.ret ≠ .success ∨ r.action ≠ 0) :
    stepwise mode access a lead c tail used = { r with usedlen := used + r.usedlen } := by
  rw [stepwise_of_cons hrest used hr, if_pos hstop]

theorem stepwise_passes {a b : Agent tree}
    (hrest : afterComponent tail = c' :: rest) (used : ℕ) {type n : ℕ}
    (hr : a.nsResolve (lead ++ segment c tail) nsfFollowAll nsrLookup =
      ⟨.success, .agent b, type, [], n, 0⟩) :
    stepwise mode access a lead c tail used =
      if type ≠ nstDirectory then abort tree .notDirectory [] (used + n) 0
      else stepwise mode access b [] c' rest (used + n) := by
  rw [stepwise_of_cons hrest used hr]
  exact if_neg (by simp)

theorem stepwise_fails (used : ℕ) {ret : Code} (hret : ret ≠ .success) (hr : ∀ mode access,
      a.nsResolve (lead ++ segment c tail) mode access = abort tree ret [] 0 0) :
    stepwise mode access a lead c tail used = abort tree ret [] used 0 := by
  cases hrest : afterComponent tail with
  | nil =>
    rw [stepwise_of_nil hrest, hr]
    rfl
  | cons c' rest =>
    rw [stepwise_stops hrest used (hr _ _) (inl hret)]
    rfl

theorem nsLookupEntry_error {d : ObjId} {name : Name} {ret : Code}
    (h : tree.nsLookupEntry d name = .error ret) : ret ≠ .success := by
  rintro rfl
  rw [Tree.nsLookupEntry] at h
  split_ifs at h
  · cases h
  · split at h
    next => cases h
    next => cases h
    next => split at h <;> cases h

def Blocked (tree : Tree) (cred : List AuthId) (d : ObjId) (path : Path) (ret : Code) : Prop :=
  ∃ names name others dirs e o type, Walk tree d names dirs e ∧
    components path = names ++ name :: others ∧ others ≠ [] ∧
    tree.nsLookupEntry e name = .ok (o, type) ∧ (type ≠ nstDirectory ∨ tree.isDir o = false) ∧
    tree.nsCheckAccess o nsrLookup cred = ret

structure FailsToo (tree : Tree) (cred : List AuthId) (d : ObjId) (path : Path)
    (r s : Result tree) : Prop where
  ret : r.ret ≠ .success
  ret' : s.ret ≠ .success
  newobj : r.newobj = .null
  newobj' : s.newobj = .null
  usedlen : s.usedlen = r.usedlen ∨ r.usedlen = 0
  code : s.ret = r.ret ∨ Blocked tree cred d path s.ret

theorem lookup_of_lookup : (nsrLookup ||| nsrReference) &&& nsrLookup = nsrLookup := by decide

theorem not_forwarded_directory : ¬Forwarded nstDirectory := by
  rintro (h | h | h | h) <;> cases h

variable {cred : List AuthId}

theorem Blocked.here {d o : ObjId}
    {type : ℕ} (hc : c ≠ slash) (hlookup : tree.nsLookupEntry d (c :: componentTail tail) = .ok (o, type))
    (hrest : afterComponent tail = c' :: rest) (hother : type ≠ nstDirectory ∨ tree.isDir o = false) :
    Blocked tree cred d (c :: tail) (tree.nsCheckAccess o nsrLookup cred) := by
  refine ⟨[], c :: componentTail tail, components (c' :: rest), [d], d, o, type, .here d, ?_, ?_,
    hlookup, hother, rfl⟩
  · rw [components_cons tail hc, hrest]
    rfl
  · rw [components_cons rest (head_skipSlashes hrest)]
    exact cons_ne_nil _ _

theorem Blocked.down {d o : ObjId} {ret : Code} (hc : c ≠ slash)
    (hlookup : tree.nsLookupEntry d (c :: componentTail tail) = .ok (o, nstDirectory))
    (hdir : tree.isDir o = true) (hrest : afterComponent tail = c' :: rest)
    (h : Blocked tree cred o (c' :: rest) ret) : Blocked tree cred d (c :: tail) ret := by
  obtain ⟨names, name, others, dirs, e, u, type, hwalk, hpath, hmore, hlast, hother, hret⟩ := h
  refine ⟨(c :: componentTail tail) :: names, name, others, d :: dirs, e, u, type,
    .down hlookup hdir hwalk, ?_, hmore, hlast, hother, hret⟩
  rw [components_cons tail hc, hrest, hpath]
  rfl

theorem stepwise_agrees (hreg : ∀ o, registered (tree.nsRegisterAgent o nsrLookup) = .success)
    {d : ObjId} (tail : Path) (mode access : UInt32)
    (used : ℕ) (had : a.agency = d) (hac : a.cred = cred)
    (ha : (a.access ||| nsrReference) &&& nsrLookup = nsrLookup) (hdir : tree.isDir d = true)
    (hlead : ∀ b ∈ lead, isSlash b = true) (hc : c ≠ slash) :
    stepwise mode access a lead c tail used =
        conclude tree cred (used + lead.length + tail.length + 1) mode access
          (resolveLoop tree cred d c tail) ∨
      FailsToo tree cred d (c :: tail)
        (conclude tree cred (used + lead.length + tail.length + 1) mode access
          (resolveLoop tree cred d c tail)) (stepwise mode access a lead c tail used) := by
  have hlen := segment_length c tail
  induction d, c, tail using resolveLoop.induct tree cred generalizing a lead used with
  | case1 d c tail ret hlookup =>
    subst had hac
    have hret := nsLookupEntry_error hlookup
    rw [resolveLoop_of_error hlookup, stepwise_fails used hret fun mode access => by
      rw [nsResolve_segment ha hdir hlead hc, hlookup]]
    exact inr ⟨hret, hret, rfl, rfl, inr rfl, inl rfl⟩
  | case2 d c tail o type hlookup hrest =>
    subst had hac
    left
    rw [hrest, length_nil] at hlen
    have htotal : used + (lead.length + (segment c tail).length) =
        used + lead.length + tail.length + 1 := by omega
    have hr : a.nsResolve (lead ++ segment c tail) mode access = conclude tree a.cred
        (lead.length + (segment c tail).length) mode access (.stops a.agency o type []) := by
      rw [nsResolve_segment ha hdir hlead hc, hlookup]
    rw [resolveLoop_of_nil hlookup hrest, stepwise_of_nil hrest, hr, conclude_usedlen,
      length_nil, Nat.sub_zero, htotal]
    exact conclude_shift
  | case3 d c tail o type hlookup c' rest hrest htype =>
    subst had hac
    rw [hrest, length_cons] at hlen
    have htotal : used + lead.length + tail.length + 1 - (c' :: rest).length =
        used + (lead.length + (segment c tail).length) := by
      rw [length_cons]
      omega
    rw [resolveLoop_of_cons hlookup hrest, if_pos htype, conclude, htotal]
    by_cases hforward : Forwarded type
    · left
      rw [if_pos (forwards_cons.mpr hforward), stepwise_stops hrest used
        (inner_forwarded ha hdir hlead hc hlookup hforward) (inr applyForwarding_action),
        applyForwarding_usedlen]
      exact applyForwarding_shift _
    · rw [if_neg fun hf => hforward (forwards_cons.mp hf), returnObject, if_pos (cons_ne_nil _ _)]
      by_cases hcheck : tree.nsCheckAccess o nsrLookup a.cred = .success
      · left
        rw [stepwise_passes hrest used (inner_granted hreg ha hdir hlead hc hlookup hforward hcheck),
          if_pos htype]
      · right
        rw [stepwise_stops hrest used (inner_denied ha hdir hlead hc hlookup hforward hcheck)
          (inl hcheck)]
        refine ⟨?_, hcheck, rfl, rfl, inl rfl, inr (.here hc hlookup hrest (inl htype))⟩
        rintro ⟨⟩
  | case4 d c tail o type hlookup c' rest hrest htype hisdir =>
    subst had hac
    obtain rfl : type = nstDirectory := not_not.mp htype
    rw [resolveLoop_of_cons hlookup hrest, if_neg htype, if_pos hisdir]
    have hother (path : Path) (mode access : UInt32) {b : Agent tree} (hb : b.agency = o)
        (haccess : b.access = nsrLookup) :
        b.nsResolve path mode access = abort tree .noSuchOperation [] 0 0 := by
      rw [nsResolve, haccess, if_neg (not_not.mpr lookup_of_lookup), hb, if_neg (by simp [hisdir])]
    have hno : Code.noSuchOperation ≠ .success := by decide
    right
    by_cases hcheck : tree.nsCheckAccess o nsrLookup a.cred = .success
    · rw [stepwise_passes hrest used
        (inner_granted hreg ha hdir hlead hc hlookup not_forwarded_directory hcheck), if_neg htype,
        stepwise_fails _ hno fun mode access => hother _ mode access rfl rfl]
      exact ⟨hno, hno, rfl, rfl, inr rfl, inl rfl⟩
    · rw [stepwise_stops hrest used
        (inner_denied ha hdir hlead hc hlookup not_forwarded_directory hcheck) (inl hcheck)]
      exact ⟨hno, hcheck, rfl, rfl, inr rfl, inr (.here hc hlookup hrest (inr hisdir))⟩
  | case5 d c tail o type hlookup c' rest hrest htype hisdir hcheck =>
    subst had hac
    obtain rfl : type = nstDirectory := not_not.mp htype
    rw [resolveLoop_of_cons hlookup hrest, if_neg htype, if_neg hisdir, if_pos hcheck]
    right
    rw [stepwise_stops hrest used
      (inner_denied ha hdir hlead hc hlookup not_forwarded_directory hcheck) (inl hcheck)]
    exact ⟨hcheck, hcheck, rfl, rfl, inr rfl, inl rfl⟩
  | case6 d c tail o type hlookup c' rest hrest htype hisdir hcheck ih =>
    subst had hac
    obtain rfl : type = nstDirectory := not_not.mp htype
    have hdir' : tree.isDir o = true := by simpa using hisdir
    have hcheck' := not_not.mp hcheck
    rw [hrest, length_cons] at hlen
    have htotal : used + (lead.length + (segment c tail).length) + ([] : Path).length +
        rest.length + 1 = used + lead.length + tail.length + 1 := by
      rw [length_nil]
      omega
    rw [resolveLoop_of_cons hlookup hrest, if_neg htype, if_neg hisdir, if_neg hcheck,
      stepwise_passes hrest used
        (inner_granted hreg ha hdir hlead hc hlookup not_forwarded_directory hcheck'), if_neg htype]
    have hrec := ih (a := ⟨o, nsrLookup, a.cred, hcheck'⟩)
      (used + (lead.length + (segment c tail).length)) rfl rfl lookup_of_lookup hdir'
      (fun b (hb : b ∈ ([] : Path)) => absurd hb not_mem_nil) (head_skipSlashes hrest)
      (segment_length c' rest)
    rw [htotal] at hrec
    rcases hrec with heq | hfails
    · exact inl heq
    · refine inr ⟨hfails.ret, hfails.ret', hfails.newobj, hfails.newobj', hfails.usedlen, ?_⟩
      exact hfails.code.imp_right fun hb => hb.down hc hlookup hdir' hrest

theorem takeWhile_skipSlashes {path tail : Path} (h : skipSlashes path = c :: tail) :
    path = path.takeWhile isSlash ++ c :: tail := by
  have hjoin : path.takeWhile isSlash ++ skipSlashes path = path := takeWhile_append_dropWhile
  rw [h] at hjoin
  exact hjoin.symm

theorem resolveStepwise_agrees
    (hreg : ∀ o, registered (tree.nsRegisterAgent o nsrLookup) = .success) (a : Agent tree)
    (path : Path) (mode access : UInt32) :
    a.resolveStepwise path mode access = a.nsResolve path mode access ∨
      FailsToo tree a.cred a.agency path (a.nsResolve path mode access)
        (a.resolveStepwise path mode access) := by
  cases hskip : skipSlashes path with
  | nil =>
    left
    rw [resolveStepwise, hskip]
  | cons c tail =>
    have hstepwise : a.resolveStepwise path mode access =
        stepwise mode access a (path.takeWhile isSlash) c tail 0 := by
      rw [resolveStepwise, hskip]
    rw [hstepwise]
    have hrefused {ret : Code} (hret : ret ≠ .success) (hr : ∀ path mode access,
        a.nsResolve path mode access = abort tree ret [] 0 0) :
        stepwise mode access a (path.takeWhile isSlash) c tail 0 =
          a.nsResolve path mode access := by
      rw [hr, stepwise_fails 0 hret fun mode access => hr _ mode access]
    by_cases ha : (a.access ||| nsrReference) &&& nsrLookup = nsrLookup
    · cases hdir : tree.isDir a.agency with
      | false =>
        have hno : Code.noSuchOperation ≠ .success := by decide
        left
        apply hrefused hno
        intro path mode access
        rw [nsResolve, if_neg (not_not.mpr ha), hdir]
        rfl
      | true =>
        have hpath := takeWhile_skipSlashes hskip
        have hlen : 0 + (path.takeWhile isSlash).length + tail.length + 1 = path.length := by
          have := congrArg length hpath
          rw [length_append, length_cons] at this
          omega
        have hr : a.nsResolve path mode access = conclude tree a.cred path.length mode access
            (resolveLoop tree a.cred a.agency c tail) := by
          rw [nsResolve, if_neg (not_not.mpr ha), hdir, if_pos rfl, dirNsResolve, hskip]
        have hlead : ∀ b ∈ path.takeWhile isSlash, isSlash b = true :=
          all_eq_true.mp all_takeWhile
        have hagrees := stepwise_agrees hreg tail mode access 0 rfl rfl ha hdir hlead
          (head_skipSlashes hskip)
        rw [hlen, ← hr] at hagrees
        rcases hagrees with heq | hfails
        · exact inl heq
        · refine inr ⟨hfails.ret, hfails.ret', hfails.newobj, hfails.newobj', hfails.usedlen, ?_⟩
          rw [Blocked, components_of_skipSlashes hskip]
          exact hfails.code
    · have hno : Code.invalidAccess ≠ .success := by decide
      left
      apply hrefused hno
      intro path mode access
      rw [nsResolve, if_pos ha]

theorem nsResolve_boundary (a : Agent tree) (path : Path) (mode access : UInt32) :
    Boundary path (a.nsResolve path mode access).usedlen := by
  rw [nsResolve]
  split_ifs with ha hdir
  · exact inl rfl
  · rw [dirNsResolve]
    cases hskip : skipSlashes path with
    | nil => exact inl rfl
    | cons c tail =>
      dsimp only
      cases hloop : resolveLoop tree a.cred a.agency c tail with
      | aborts ret => exact inl rfl
      | stops curdir newentry newtype rest =>
        rw [conclude_usedlen]
        have hstops := resolveLoop_stops (head_skipSlashes hskip) hloop
        rcases hstops.boundary with rfl | ⟨before, b, more, rfl, hb, hsplit⟩
        · exact inr (inl (Nat.sub_zero _))
        · have hpath := takeWhile_skipSlashes hskip
          rw [hsplit, ← append_assoc] at hpath
          refine inr (inr ⟨_, b, more, hpath, hb, ?_⟩)
          have hlen := congrArg length hpath
          rw [length_append, length_cons] at hlen
          omega
  · exact inl rfl

theorem path_lookup_mediated (tree : Tree) (a : Agent tree) (path : Path) (mode access : UInt32) :
    Mediated a path access (a.nsResolve path mode access).newobj ∧
    (∀ b, (a.nsResolve path mode access).newobj = .agent b → Grants tree a.cred b.access b.agency) ∧
    Boundary path (a.nsResolve path mode access).usedlen ∧
    ((∀ o, registered (tree.nsRegisterAgent o nsrLookup) = .success) →
      a.resolveStepwise path mode access = a.nsResolve path mode access ∨
      FailsToo tree a.cred a.agency path (a.nsResolve path mode access)
        (a.resolveStepwise path mode access)) := by
  have hmediated := nsResolve_mediated a path mode access
  refine ⟨hmediated, fun b hb => ?_, nsResolve_boundary a path mode access,
    fun hreg => resolveStepwise_agrees hreg a path mode access⟩
  have hcred : b.cred = a.cred := by
    rw [hb] at hmediated
    cases hmediated with
    | self _ _ _ _ hcred => exact hcred
    | object _ _ _ _ _ _ hcred => exact hcred
    | containing _ _ _ _ _ _ _ hcred => exact hcred
  rw [← hcred]
  exact b.granted

namespace Sample

def nsrRead : UInt32 := 0x10

def nsrWrite : UInt32 := 0x20

def everyone (rights : UInt32) : Option Prot := some ⟨[⟨nsAuthidWildcard, rights⟩], 1⟩

def server (dead : ObjId → Bool) : Tree where
  prot o := if o = 1 then everyone 0 else if o = 4 then everyone nsrRead else everyone nsrLookup
  isDir o := o = 0 ∨ o = 3 ∨ o = 5
  entries d name :=
    match d, name with
    | 0, [102] => some ⟨nstFile, some 1⟩
    | 0, [108] => some ⟨nstSymlink, some 2⟩
    | 0, [100] => some ⟨nstDirectory, some 3⟩
    | 0, [114] => some ⟨nstDirectory, some 5⟩
    | 3, [103] => some ⟨nstFile, some 4⟩
    | 5, [103] => some ⟨nstFile, some 4⟩
    | _, _ => none
  nsReferenceTmplink _ := .success
  nsRegisterAgent o _ := if dead o then .objectDead else .noSuchOperation
  forwarding o := if o = 2 then some ⟨.success, none, [120]⟩ else none

def caller (dead : ObjId → Bool) : Agent (server dead) := ⟨0, nsrLookup, [7], by rfl⟩

def dying : ObjId → Bool := fun o => o = 5

end Sample

theorem path_lookup_mediated_file :
    ((Sample.caller fun _ => false).nsResolve [100, slash, 103] 0 Sample.nsrRead).ret = .success ∧
    (((Sample.caller fun _ => false).resolveStepwise [100, slash, 103] 0 Sample.nsrRead =
        (Sample.caller fun _ => false).nsResolve [100, slash, 103] 0 Sample.nsrRead) ∨
      FailsToo (Sample.server fun _ => false) [7] 0 [100, slash, 103]
        ((Sample.caller fun _ => false).nsResolve [100, slash, 103] 0 Sample.nsrRead)
        ((Sample.caller fun _ => false).resolveStepwise [100, slash, 103] 0 Sample.nsrRead)) :=
  ⟨by decide +kernel, (path_lookup_mediated (Sample.server fun _ => false)
    (Sample.caller fun _ => false) [100, slash, 103] 0 Sample.nsrRead).2.2.2 fun _ => rfl⟩

theorem path_lookup_not_mediated_as_stated :
    (∃ b, ((Sample.caller Sample.dying).nsResolve [108] nsfFollow Sample.nsrWrite).newobj =
        .agent b ∧ ¬Grants (Sample.server Sample.dying) [7] Sample.nsrWrite b.agency) ∧
    ((Sample.caller Sample.dying).nsResolve [102, slash, 120] 0 Sample.nsrRead).ret =
      .notDirectory ∧
    ((Sample.caller Sample.dying).resolveStepwise [102, slash, 120] 0 Sample.nsrRead).ret =
      .invalidAccess ∧
    ((Sample.caller Sample.dying).nsResolve [100, slash, 120] 0 Sample.nsrRead).usedlen = 0 ∧
    ((Sample.caller Sample.dying).resolveStepwise [100, slash, 120] 0 Sample.nsrRead).usedlen = 2 ∧
    ((Sample.caller Sample.dying).nsResolve [114, slash, 103] 0 Sample.nsrRead).ret = .success ∧
    ((Sample.caller Sample.dying).resolveStepwise [114, slash, 103] 0 Sample.nsrRead).ret =
      .objectDead := by
  refine ⟨?_, by decide +kernel, by decide +kernel, by decide +kernel, by decide +kernel,
    by decide +kernel, by decide +kernel⟩
  have htest : (match ((Sample.caller Sample.dying).nsResolve [108] nsfFollow
      Sample.nsrWrite).newobj with
      | .agent b => decide ((Sample.server Sample.dying).nsCheckAccess b.agency Sample.nsrWrite [7]
          ≠ .success)
      | _ => false) = true := by
    decide +kernel
  cases hobj : ((Sample.caller Sample.dying).nsResolve [108] nsfFollow Sample.nsrWrite).newobj with
  | null => rw [hobj] at htest; cases htest
  | external e => rw [hobj] at htest; cases htest
  | agent b =>
    rw [hobj] at htest
    have hdenied := of_decide_eq_true htest
    exact ⟨b, rfl, hdenied⟩

end MachUS.Lookup
