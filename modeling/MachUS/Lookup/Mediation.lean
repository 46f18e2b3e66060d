import MachUS.Lookup.PathResolve
import Mathlib.Data.List.TakeWhile

namespace MachUS.Lookup

open List Or

variable {tree : Tree}

def components (path : Path) : List Name :=
  match _hpath : skipSlashes path with
  | [] => []
  | c :: tail => (c :: componentTail tail) :: components (afterComponent tail)
termination_by path.length
decreasing_by
  have hle := (dropWhile_suffix (l := path) isSlash).length_le
  rw [← skipSlashes, _hpath, length_cons] at hle
  have htail := afterComponent_length tail
  omega

inductive Walk (tree : Tree) : ObjId → List Name → List ObjId → ObjId → Prop
  | here (d : ObjId) : Walk tree d [] [d] d
  | down {d o e : ObjId} {name : Name} {names : List Name} {dirs : List ObjId} :
      tree.nsLookupEntry d name = .ok (o, nstDirectory) → tree.isDir o = true →
      Walk tree o names dirs e → Walk tree d (name :: names) (d :: dirs) e

def Grants (tree : Tree) (cred : List AuthId) (access : UInt32) (o : ObjId) : Prop :=
  tree.nsCheckAccess o access cred = .success

def Boundary (path : Path) (n : ℕ) : Prop :=
  n = 0 ∨ n = path.length ∨
    ∃ before c rest, path = before ++ slash :: c :: rest ∧ c ≠ slash ∧ n = before.length + 1

variable {c : UInt8}

theorem head_skipSlashes {path tail : Path} (h : skipSlashes path = c :: tail) : c ≠ slash := by
  have hne : skipSlashes path ≠ [] := by simp [h]
  have hhead : isSlash ((skipSlashes path).head hne) = false := head_dropWhile_not isSlash hne
  have heq : (skipSlashes path).head hne = c := by simp [h]
  rw [heq] at hhead
  simpa [isSlash] using hhead

theorem skipSlashes_cons (tail : Path) (hc : c ≠ slash) : skipSlashes (c :: tail) = c :: tail := by
  rw [skipSlashes, dropWhile_cons_of_neg (by simpa [isSlash] using hc)]

theorem components_cons (tail : Path) (hc : c ≠ slash) :
    components (c :: tail) = (c :: componentTail tail) :: components (afterComponent tail) := by
  rw [components]
  split
  next h => rw [skipSlashes_cons tail hc] at h; cases h
  next c' tail' h =>
    rw [skipSlashes_cons tail hc] at h
    obtain ⟨rfl, rfl⟩ := cons.inj h
    rfl

theorem components_of_skipSlashes {path tail : Path}
    (h : skipSlashes path = c :: tail) : components path = components (c :: tail) := by
  rw [components_cons tail (head_skipSlashes h), components]
  split
  next h' => rw [h] at h'; cases h'
  next c' tail' h' =>
    rw [h] at h'
    obtain ⟨rfl, rfl⟩ := cons.inj h'
    rfl

theorem components_nil : components [] = [] := by
  rw [components]
  rfl

theorem afterComponent_split {tail rest : Path} (h : afterComponent tail = c :: rest) :
    ∃ before, tail = before ++ slash :: c :: rest := by
  have hname : componentTail tail ++ tail.dropWhile notSlash = tail :=
    takeWhile_append_dropWhile
  cases hdrop : tail.dropWhile notSlash with
  | nil =>
    rw [afterComponent, hdrop] at h
    cases h
  | cons y more =>
    have hne : tail.dropWhile notSlash ≠ [] := by simp [hdrop]
    have hy : isSlash y = true := by
      have hhead := head_dropWhile_not notSlash hne
      simp only [hdrop, head_cons] at hhead
      simpa [notSlash, isSlash] using hhead
    have hslashes : (y :: more).takeWhile isSlash ++ c :: rest = y :: more := by
      rw [← h, afterComponent, hdrop]
      exact takeWhile_append_dropWhile
    rw [takeWhile_cons_of_pos hy] at hslashes
    rcases eq_nil_or_concat (y :: more.takeWhile isSlash) with hnil | ⟨before, x, hconcat⟩
    · cases hnil
    · have hx : x = slash := by
        have hmem : x ∈ y :: more.takeWhile isSlash := by simp [hconcat]
        rcases mem_cons.mp hmem with rfl | hmem
        · simpa [isSlash] using hy
        · have hall := all_eq_true.mp (all_takeWhile (p := isSlash)) x hmem
          simpa [isSlash] using hall
      refine ⟨componentTail tail ++ before, ?_⟩
      calc tail = componentTail tail ++ (y :: more) := by rw [← hdrop, hname]
        _ = componentTail tail ++ before ++ slash :: c :: rest := by
          rw [← hslashes, hconcat, hx]
          simp

variable {cred : List AuthId}

theorem resolveLoop_of_error {d : ObjId} {tail : Path}
    {ret : Code} (h : tree.nsLookupEntry d (c :: componentTail tail) = .error ret) :
    resolveLoop tree cred d c tail = .aborts ret := by
  rw [resolveLoop, h]

theorem resolveLoop_of_nil {d o : ObjId} {tail : Path} {type : ℕ}
    (h : tree.nsLookupEntry d (c :: componentTail tail) = .ok (o, type))
    (hrest : afterComponent tail = []) :
    resolveLoop tree cred d c tail = .stops d o type [] := by
  rw [resolveLoop, h]
  simp only
  split
  next => rfl
  next hcons => rw [hrest] at hcons; cases hcons

theorem resolveLoop_of_cons {d o : ObjId} {c c' : UInt8} {tail rest : Path}
    {type : ℕ} (h : tree.nsLookupEntry d (c :: componentTail tail) = .ok (o, type))
    (hrest : afterComponent tail = c' :: rest) :
    resolveLoop tree cred d c tail =
      if type ≠ nstDirectory then .stops d o type (c' :: rest)
      else if tree.isDir o = false then .aborts .noSuchOperation
      else if tree.nsCheckAccess o nsrLookup cred ≠ .success then
        .aborts (tree.nsCheckAccess o nsrLookup cred)
      else resolveLoop tree cred o c' rest := by
  rw [resolveLoop, h]
  simp only
  split
  next hnil => rw [hrest] at hnil; cases hnil
  next c'' rest' hcons =>
    rw [hrest] at hcons
    obtain ⟨rfl, rfl⟩ := cons.inj hcons
    rfl

structure Stops (tree : Tree) (cred : List AuthId) (d : ObjId) (path : Path)
    (curdir newentry : ObjId) (newtype : ℕ) (rest : Path) : Prop where
  walk : ∃ names name more, Walk tree d names (d :: more) curdir ∧
    (∀ o ∈ more, Grants tree cred nsrLookup o) ∧
    components path = names ++ name :: components rest ∧
    tree.nsLookupEntry curdir name = .ok (newentry, newtype)
  inner : rest ≠ [] → newtype ≠ nstDirectory
  boundary : rest = [] ∨ ∃ before c more, rest = c :: more ∧ c ≠ slash ∧
    path = before ++ slash :: c :: more

theorem resolveLoop_stops {d : ObjId} {tail : Path}
    {curdir newentry : ObjId} {newtype : ℕ} {rest : Path} (hc : c ≠ slash)
    (h : resolveLoop tree cred d c tail = .stops curdir newentry newtype rest) :
    Stops tree cred d (c :: tail) curdir newentry newtype rest := by
  induction d, c, tail using resolveLoop.induct tree cred with
  | case1 d c tail ret hlookup =>
    rw [resolveLoop_of_error hlookup] at h
    cases h
  | case2 d c tail o type hlookup hrest =>
    rw [resolveLoop_of_nil hlookup hrest] at h
    obtain ⟨rfl, rfl, rfl, rfl⟩ := Found.stops.inj h
    refine ⟨⟨[], c :: componentTail tail, [], .here d, fun _ ho => (nomatch ho), ?_, hlookup⟩,
      fun hne => absurd rfl hne, inl rfl⟩
    rw [components_cons tail hc, hrest]
    rfl
  | case3 d c tail o type hlookup c' rest' hrest htype =>
    rw [resolveLoop_of_cons hlookup hrest, if_pos htype] at h
    obtain ⟨rfl, rfl, rfl, rfl⟩ := Found.stops.inj h
    obtain ⟨before, hbefore⟩ := afterComponent_split hrest
    refine ⟨⟨[], c :: componentTail tail, [], .here d, fun _ ho => (nomatch ho), ?_, hlookup⟩,
      fun _ => htype, inr ⟨c :: before, c', rest', rfl, head_skipSlashes hrest, ?_⟩⟩
    · rw [components_cons tail hc, hrest]
      rfl
    · rw [hbefore]
      rfl
  | case4 d c tail o type hlookup c' rest' hrest htype hdir =>
    rw [resolveLoop_of_cons hlookup hrest, if_neg htype, if_pos hdir] at h
    cases h
  | case5 d c tail o type hlookup c' rest' hrest htype hdir hcheck =>
    rw [resolveLoop_of_cons hlookup hrest, if_neg htype, if_neg hdir, if_pos hcheck] at h
    cases h
  | case6 d c tail o type hlookup c' rest' hrest htype hdir hcheck ih =>
    rw [resolveLoop_of_cons hlookup hrest, if_neg htype, if_neg hdir, if_neg hcheck] at h
    have hstops := ih (head_skipSlashes hrest) h
    obtain ⟨names, name, more, hwalk, hgrants, hpath, hlast⟩ := hstops.walk
    obtain ⟨before, hbefore⟩ := afterComponent_split hrest
    have hstep : tree.nsLookupEntry d (c :: componentTail tail) = .ok (o, nstDirectory) := by
      rw [hlookup, not_not.mp htype]
    have hisdir : tree.isDir o = true := by simpa using hdir
    refine ⟨⟨(c :: componentTail tail) :: names, name, o :: more, .down hstep hisdir hwalk,
      fun u hu => ?_, ?_, hlast⟩,
      hstops.inner, ?_⟩
    · rcases mem_cons.mp hu with rfl | hu
      · exact not_not.mp hcheck
      · exact hgrants u hu
    · rw [components_cons tail hc, hrest, hpath]
      rfl
    · rcases hstops.boundary with hnil | ⟨pre, b, more', rfl, hb, hsplit⟩
      · exact inl hnil
      · refine inr ⟨c :: before ++ slash :: pre, b, more', rfl, hb, ?_⟩
        rw [hbefore, hsplit]
        simp

def Forwarded (type : ℕ) : Prop :=
  type = nstSymlink ∨ type = nstTransparentSymlink ∨ type = nstMountpt ∨ type = nstForward

inductive Mediated (a : Agent tree) (path : Path) (access : UInt32) : NewObj tree → Prop
  | null : Mediated a path access .null
  | self (b : Agent tree) : components path = [] → b.agency = a.agency → b.access = access →
      b.cred = a.cred → Mediated a path access (.agent b)
  | object (b : Agent tree) {names : List Name} {name : Name} {dirs : List ObjId} {d : ObjId}
      {type : ℕ} : Walk tree a.agency names dirs d →
      (∀ o ∈ dirs, Grants tree a.cred nsrLookup o) → components path = names ++ [name] →
      tree.nsLookupEntry d name = .ok (b.agency, type) → b.access = access → b.cred = a.cred →
      Mediated a path access (.agent b)
  | containing (b : Agent tree) {names rest : List Name} {name : Name} {dirs : List ObjId}
      {o : ObjId} {type : ℕ} : Walk tree a.agency names dirs b.agency →
      (∀ o ∈ dirs, Grants tree a.cred nsrLookup o) → components path = names ++ name :: rest →
      tree.nsLookupEntry b.agency name = .ok (o, type) → Forwarded type → b.access = nsrLookup →
      b.cred = a.cred → Mediated a path access (.agent b)
  | external {e : ℕ} {f : Forwarding} {names rest : List Name} {name : Name} {dirs : List ObjId}
      {d o : ObjId} {type : ℕ} : Walk tree a.agency names dirs d →
      (∀ o ∈ dirs, Grants tree a.cred nsrLookup o) → components path = names ++ name :: rest →
      tree.nsLookupEntry d name = .ok (o, type) → Forwarded type →
      tree.forwarding o = some f → f.obj = some e → Mediated a path access (.external e)

theorem nsCreateAgent_some {o : ObjId} {access : UInt32} {ret : Code}
    {b : Agent tree} (h : nsCreateAgent tree o access cred = (ret, some b)) :
    b.agency = o ∧ b.access = access ∧ b.cred = cred := by
  rw [nsCreateAgent] at h
  split_ifs at h with hzero hcheck hreg
  · cases (Prod.mk.inj h).2
  · obtain rfl := Option.some.inj (Prod.mk.inj h).2
    exact ⟨rfl, rfl, rfl⟩
  · cases (Prod.mk.inj h).2
  · cases (Prod.mk.inj h).2

theorem lookup_within {access : UInt32} (h : (access ||| nsrReference) &&& nsrLookup = nsrLookup) :
    Prot.Within nsrLookup access := by
  have hbits := congrArg UInt32.toBitVec h
  rw [UInt32.toBitVec_and, UInt32.toBitVec_or, BitVec.and_or_distrib_right] at hbits
  have hnone : nsrReference.toBitVec &&& nsrLookup.toBitVec = 0#32 := by decide
  rw [hnone, BitVec.or_zero, ← UInt32.toBitVec_and] at hbits
  rw [Prot.Within, UInt32.and_comm]
  exact UInt32.toBitVec_inj.mp hbits

theorem Agent.lookup (a : Agent tree) (h : (a.access ||| nsrReference) &&& nsrLookup = nsrLookup) :
    Grants tree a.cred nsrLookup a.agency := by
  have hgranted := a.granted
  rw [Tree.nsCheckAccess] at hgranted
  rw [Grants, Tree.nsCheckAccess]
  cases hprot : tree.prot a.agency with
  | none =>
    rw [hprot] at hgranted
    cases hgranted
  | some prot =>
    rw [hprot] at hgranted
    exact Prot.nsCheckAccess_mono (lookup_within h) hgranted

theorem Forwards.forwarded {type : ℕ} {mode : UInt32} {rest : Path} (h : Forwards type mode rest) :
    Forwarded type := by
  rcases h with h | h | h | h
  · exact inl h.1
  · exact inr (inl h.1)
  · exact inr (inr (inl h.1))
  · exact inr (inr (inr h.1))

section

variable {a : Agent tree} {path : Path} {mode access : UInt32} {curdir newentry : ObjId}
  {newtype : ℕ} {rest : Path}

theorem applyForwarding_mediated {usedlen : ℕ} {names others : List Name}
    {name : Name} {dirs : List ObjId} (hwalk : Walk tree a.agency names dirs curdir)
    (hgrants : ∀ o ∈ dirs, Grants tree a.cred nsrLookup o)
    (hpath : components path = names ++ name :: others)
    (hlookup : tree.nsLookupEntry curdir name = .ok (newentry, newtype))
    (hforward : Forwarded newtype) :
    Mediated a path access (applyForwarding tree a.cred curdir newentry newtype usedlen).newobj := by
  rw [applyForwarding]
  generalize (if newtype = nstTransparentSymlink then nsaTforward else nsaForward) = action
  cases hentry : tree.forwarding newentry with
  | none => exact .null
  | some f =>
    dsimp only
    by_cases hret : f.ret ≠ .success
    · rw [if_pos hret]
      exact .null
    · rw [if_neg hret]
      cases hobj : f.obj with
      | some e => exact .external hwalk hgrants hpath hlookup hforward hentry hobj
      | none =>
        split_ifs with habsolute
        · exact .null
        · rcases hcreate : nsCreateAgent tree curdir nsrLookup a.cred with ⟨ret, b⟩
          cases ret with
          | success =>
            cases b with
            | none => exact .null
            | some b =>
              obtain ⟨hagency, haccess, hcred⟩ := nsCreateAgent_some hcreate
              rw [← hagency] at hwalk hlookup
              exact .containing b hwalk hgrants hpath hlookup hforward haccess hcred
          | _ => exact .null

theorem returnObject_mediated {usedlen : ℕ} {names : List Name}
    {name : Name} {dirs : List ObjId} (hwalk : Walk tree a.agency names dirs curdir)
    (hgrants : ∀ o ∈ dirs, Grants tree a.cred nsrLookup o)
    (hpath : components path = names ++ name :: components rest)
    (hlookup : tree.nsLookupEntry curdir name = .ok (newentry, newtype)) :
    Mediated a path access
      (returnObject tree a.cred newentry newtype rest mode access usedlen).newobj := by
  rw [returnObject]
  split_ifs with hrest hmode
  · exact .null
  · exact .null
  · rcases hcreate : nsCreateAgent tree newentry access a.cred with ⟨ret, b⟩
    cases ret with
    | success =>
      cases b with
      | none => exact .null
      | some b =>
        obtain ⟨rfl, haccess, hcred⟩ := nsCreateAgent_some hcreate
        rw [not_not.mp hrest, components_nil] at hpath
        exact .object b hwalk hgrants hpath hlookup haccess hcred
    | _ => exact .null

theorem nsResolve_mediated (a : Agent tree) (path : Path) (mode access : UInt32) :
    Mediated a path access (a.nsResolve path mode access).newobj := by
  rw [Agent.nsResolve]
  split_ifs with haccess hdir
  · exact .null
  · rw [dirNsResolve]
    cases hskip : skipSlashes path with
    | nil =>
      rcases hcreate : nsCreateAgent tree a.agency access a.cred with ⟨ret, b⟩
      cases b with
      | none => exact .null
      | some b =>
        obtain ⟨hagency, hb, hcred⟩ := nsCreateAgent_some hcreate
        refine .self b ?_ hagency hb hcred
        rw [components]
        split
        next => rfl
        next hcons => rw [hskip] at hcons; cases hcons
    | cons c tail =>
      dsimp only
      cases hloop : resolveLoop tree a.cred a.agency c tail with
      | aborts ret => exact .null
      | stops curdir newentry newtype rest =>
        have hstops := resolveLoop_stops (head_skipSlashes hskip) hloop
        obtain ⟨names, name, more, hwalk, hmore, hpath, hlookup⟩ := hstops.walk
        rw [← components_of_skipSlashes hskip] at hpath
        have hgrants (o : ObjId) (ho : o ∈ a.agency :: more) : Grants tree a.cred nsrLookup o := by
          rcases mem_cons.mp ho with rfl | ho
          · exact a.lookup (not_not.mp haccess)
          · exact hmore o ho
        rw [conclude]
        split_ifs with hforward
        · exact applyForwarding_mediated hwalk hgrants hpath hlookup hforward.forwarded
        · exact returnObject_mediated hwalk hgrants hpath hlookup
  · exact .null

end

end MachUS.Lookup

namespace MachUS.Lookup

variable {tree : Tree}

def segment (c : UInt8) (tail : Path) : Path :=
  c :: (componentTail tail ++ (tail.dropWhile notSlash).takeWhile isSlash)

theorem segment_length (c : UInt8) (tail : Path) :
    (segment c tail).length + (afterComponent tail).length = tail.length + 1 := by
  have hname : componentTail tail ++ tail.dropWhile notSlash = tail :=
    List.takeWhile_append_dropWhile
  have hslashes : (tail.dropWhile notSlash).takeWhile isSlash ++ afterComponent tail =
      tail.dropWhile notSlash := List.takeWhile_append_dropWhile
  have hlen := congrArg List.length hname
  rw [← hslashes, List.length_append, List.length_append] at hlen
  rw [segment, List.length_cons, List.length_append]
  omega

theorem skipSlashes_lead {lead : Path} (hlead : ∀ b ∈ lead, isSlash b = true) {c : UInt8}
    (tail : Path) (hc : c ≠ slash) : skipSlashes (lead ++ c :: tail) = c :: tail := by
  induction lead with
  | nil => exact skipSlashes_cons tail hc
  | cons b lead ih =>
    rw [List.cons_append, skipSlashes, List.dropWhile_cons_of_pos (hlead b List.mem_cons_self)]
    exact ih fun b' hb' => hlead b' (List.mem_cons_of_mem b hb')

theorem componentTail_all (tail : Path) : ∀ b ∈ componentTail tail, notSlash b = true :=
  List.all_eq_true.mp List.all_takeWhile

theorem dropWhile_slashes {slashes : Path} (h : ∀ b ∈ slashes, isSlash b = true) :
    slashes.takeWhile notSlash = [] ∧ slashes.dropWhile notSlash = slashes := by
  cases slashes with
  | nil => exact ⟨rfl, rfl⟩
  | cons b slashes =>
    have hb : ¬notSlash b = true := by
      have := h b List.mem_cons_self
      simpa [isSlash, notSlash] using this
    exact ⟨List.takeWhile_cons_of_neg hb, List.dropWhile_cons_of_neg hb⟩

section

variable (tail : Path)

theorem segment_slashes : ∀ b ∈ (tail.dropWhile notSlash).takeWhile isSlash, isSlash b = true :=
  List.all_eq_true.mp List.all_takeWhile

theorem componentTail_segment :
    componentTail (componentTail tail ++ (tail.dropWhile notSlash).takeWhile isSlash) =
      componentTail tail := by
  rw [componentTail, List.takeWhile_append_of_pos (componentTail_all tail),
    (dropWhile_slashes (segment_slashes tail)).1, List.append_nil]

theorem afterComponent_segment :
    afterComponent (componentTail tail ++ (tail.dropWhile notSlash).takeWhile isSlash) = [] := by
  rw [afterComponent, List.dropWhile_append_of_pos (componentTail_all tail),
    (dropWhile_slashes (segment_slashes tail)).2]
  exact List.dropWhile_eq_nil_iff.mpr (segment_slashes tail)

end

variable {cred : List AuthId} {d o : ObjId} {type n : ℕ}

theorem applyForwarding_shift (m : ℕ) :
    { applyForwarding tree cred d o type n with usedlen := m } =
      applyForwarding tree cred d o type m := by
  rw [applyForwarding, applyForwarding]
  generalize (if type = nstTransparentSymlink then nsaTforward else nsaForward) = action
  cases tree.forwarding o with
  | none => rfl
  | some f =>
    dsimp only
    by_cases hret : f.ret ≠ .success
    · rw [if_pos hret, if_pos hret]
      rfl
    · rw [if_neg hret, if_neg hret]
      cases f.obj with
      | some e => rfl
      | none =>
        split_ifs
        · rfl
        · rcases nsCreateAgent tree d nsrLookup cred with ⟨ret, b⟩
          cases ret <;> rfl

variable {mode access : UInt32} {rest : Path}

theorem returnObject_shift (m : ℕ) :
    { returnObject tree cred o type rest mode access n with usedlen := m } =
      returnObject tree cred o type rest mode access m := by
  rw [returnObject, returnObject]
  split_ifs
  · rfl
  · rfl
  · rcases nsCreateAgent tree o access cred with ⟨ret, b⟩
    cases ret <;> rfl

theorem applyForwarding_usedlen : (applyForwarding tree cred d o type n).usedlen = n :=
  congrArg Result.usedlen (applyForwarding_shift (n := n) n).symm

theorem conclude_shift {n m : ℕ} :
    { conclude tree cred n mode access (.stops d o type rest) with usedlen := m - rest.length } =
      conclude tree cred m mode access (.stops d o type rest) := by
  rw [conclude, conclude]
  split_ifs
  · exact applyForwarding_shift _
  · exact returnObject_shift _

theorem conclude_usedlen :
    (conclude tree cred n mode access (.stops d o type rest)).usedlen = n - rest.length :=
  congrArg Result.usedlen (conclude_shift (n := n)).symm

theorem nsResolve_segment {a : Agent tree} {lead : Path} {c : UInt8} {tail : Path}
    (ha : (a.access ||| nsrReference) &&& nsrLookup = nsrLookup) (hdir : tree.isDir a.agency = true)
    (hlead : ∀ b ∈ lead, isSlash b = true) (hc : c ≠ slash) (mode access : UInt32) :
    a.nsResolve (lead ++ segment c tail) mode access =
      match tree.nsLookupEntry a.agency (c :: componentTail tail) with
      | .error ret => abort tree ret [] 0 0
      | .ok (o, type) => conclude tree a.cred (lead.length + (segment c tail).length) mode access
          (.stops a.agency o type []) := by
  rw [Agent.nsResolve, if_neg (not_not.mpr ha), if_pos hdir, dirNsResolve, segment,
    skipSlashes_lead hlead _ hc]
  have hname := componentTail_segment tail
  have hrest := afterComponent_segment tail
  dsimp only
  cases hlookup : tree.nsLookupEntry a.agency (c :: componentTail tail) with
  | error ret =>
    rw [← hname] at hlookup
    rw [resolveLoop_of_error hlookup]
    rfl
  | ok found =>
    obtain ⟨o, type⟩ := found
    rw [← hname] at hlookup
    rw [resolveLoop_of_nil hlookup hrest, List.length_append]

theorem forwards_all : Forwards type nsfFollowAll [] ↔ Forwarded type := by
  have hfollow : nsfFollowAll &&& nsfFollow ≠ 0 := by decide
  have htfollow : nsfFollowAll &&& nsfTfollow ≠ 0 := by decide
  have hmount : nsfFollowAll &&& nsfMount ≠ 0 := by decide
  simp [Forwards, Forwarded, hfollow, htfollow, hmount]

theorem forwards_cons {c : UInt8} : Forwards type mode (c :: rest) ↔ Forwarded type := by
  simp [Forwards, Forwarded]

theorem applyForwarding_action : (applyForwarding tree cred d o type n).action ≠ 0 := by
  rw [applyForwarding]
  have haction : (if type = nstTransparentSymlink then nsaTforward else nsaForward) ≠ 0 ∧
      (if type = nstTransparentSymlink then nsaTforward else nsaForward) ||| nsaAuthenticate ≠ 0 := by
    split_ifs <;> decide
  generalize (if type = nstTransparentSymlink then nsaTforward else nsaForward) = action at haction ⊢
  cases tree.forwarding o with
  | none => exact haction.1
  | some f =>
    dsimp only
    by_cases hret : f.ret ≠ .success
    · rw [if_pos hret]
      exact haction.1
    · rw [if_neg hret]
      cases f.obj with
      | some e => exact haction.2
      | none =>
        split_ifs
        · exact haction.1
        · rcases nsCreateAgent tree d nsrLookup cred with ⟨ret, b⟩
          cases ret <;> exact haction.1

section

variable {a : Agent tree} {lead tail : Path} {c : UInt8} {o : ObjId} {type : ℕ}
  (hreg : ∀ o, registered (tree.nsRegisterAgent o nsrLookup) = .success)
  (ha : (a.access ||| nsrReference) &&& nsrLookup = nsrLookup) (hdir : tree.isDir a.agency = true)
  (hlead : ∀ b ∈ lead, isSlash b = true) (hc : c ≠ slash)
  (hlookup : tree.nsLookupEntry a.agency (c :: componentTail tail) = .ok (o, type))

include ha hdir hlead hc hlookup

theorem inner_forwarded (hforward : Forwarded type) :
    a.nsResolve (lead ++ segment c tail) nsfFollowAll nsrLookup =
      applyForwarding tree a.cred a.agency o type (lead.length + (segment c tail).length) := by
  rw [nsResolve_segment ha hdir hlead hc, hlookup]
  exact if_pos (forwards_all.mpr hforward)

include hreg in
theorem inner_granted (hforward : ¬Forwarded type)
    (hcheck : tree.nsCheckAccess o nsrLookup a.cred = .success) :
    a.nsResolve (lead ++ segment c tail) nsfFollowAll nsrLookup =
      ⟨.success, .agent ⟨o, nsrLookup, a.cred, hcheck⟩, type, [],
        lead.length + (segment c tail).length, 0⟩ := by
  have hmode : ¬nsfFollowAll &&& nsfAccess ≠ 0 := by decide
  have hnonzero : nsrLookup ≠ 0 := by decide
  rw [nsResolve_segment ha hdir hlead hc, hlookup]
  dsimp only
  rw [conclude, if_neg fun hf => hforward (forwards_all.mp hf), returnObject,
    if_neg (not_not.mpr rfl), if_neg hmode, nsCreateAgent, if_neg hnonzero, dif_pos hcheck,
    if_pos (hreg o)]
  rfl

theorem inner_denied (hforward : ¬Forwarded type)
    (hcheck : tree.nsCheckAccess o nsrLookup a.cred ≠ .success) :
    a.nsResolve (lead ++ segment c tail) nsfFollowAll nsrLookup =
      abort tree (tree.nsCheckAccess o nsrLookup a.cred) []
        (lead.length + (segment c tail).length) 0 := by
  have hmode : ¬nsfFollowAll &&& nsfAccess ≠ 0 := by decide
  have hnonzero : nsrLookup ≠ 0 := by decide
  rw [nsResolve_segment ha hdir hlead hc, hlookup]
  dsimp only
  rw [conclude, if_neg fun hf => hforward (forwards_all.mp hf), returnObject,
    if_neg (not_not.mpr rfl), if_neg hmode, nsCreateAgent, if_neg hnonzero, dif_neg hcheck]
  split
  next heq => exact absurd (Prod.mk.inj heq).1 hcheck
  next heq =>
    cases heq
    rfl

end

end MachUS.Lookup
