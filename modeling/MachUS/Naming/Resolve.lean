import MachUS.Naming.PrefixTable

namespace MachUS.Naming

def maxRetries : ℕ := 10
def maxForwards : ℕ := 100

def nsfFollow : UInt32 := 0x2
def nsfMount : UInt32 := 0x4
def nsfTfollow : UInt32 := 0x8
def nsfFollowAll : UInt32 := nsfFollow ||| nsfTfollow ||| nsfMount

def nsaAuthenticate : UInt32 := 0x2
def nsaForward : UInt32 := 0x1
def nsaTforward : UInt32 := 0x8

structure Directory where
  obj : Option Obj
  type : ℕ
  inputpos : ℕ
  canonpos : ℕ

-- cache_inputpos: none is a null pointer, some none a pointer to a null pointer.
abbrev CachePos := Option (Option ℕ)

structure Request where
  pfx : Directory
  cache : CachePos
  input : Buf
  canon : Buf
  mode : UInt32
  access : UInt32
  forwardcount : ℕ

structure Resolved where
  pfx : Directory
  cache : CachePos
  canon : Buf
  obj : Option Obj
  type : ℕ
  inputpos : ℕ
  canonpos : ℕ

structure Callees (W : Type) where
  nsResolveComplex : Request → Run W (Except NsError Resolved)
  nsSetUserPrefix : List UInt8 → List UInt8 → Run W (Except NsError Unit)

structure Locals where
  retrycount : ℕ
  forwardcount : ℕ
  curobj : Option Obj
  curtype : ℕ
  curinputpos : ℕ
  curcanonpos : ℕ
  newobj : Option Obj
  aliased : Bool
  newinputpos : ℕ
  newcanonpos : ℕ
  maxinputpos : ℕ
  maxcanonpos : ℕ
  rememberInputpos : ℕ
  rememberCanonpos : ℕ
  pfx : Directory
  cache : CachePos
  canon : Buf

def copyComponents (input : Buf) : ℕ → ℕ → ℕ → Buf → Except Fault (ℕ × ℕ × Buf)
  | 0, _, _, _ => .error .outside
  | n + 1, newinputpos, newcanonpos, canon => do
    let c ← input.findComponent newinputpos
    if c.text = [] ∨ isDotdot c.text then pure (newinputpos, newcanonpos, canon)
    else do
      let (canon, newcanonpos) ← addSlash canon newcanonpos
      let canon ← canon.put newcanonpos (substitute c.text)
      copyComponents input n (c.pos + c.text.length) (newcanonpos + (substitute c.text).length)
        canon

section Routines

variable {W : Type} (sv : Servers W) (c : Callees W)

def abort (l : Locals) (e : NsError) {α : Type} : Run W (Except NsError α) := do
  dereference l.curobj
  dereference l.newobj
  recordObj .releasedAgain (if l.aliased then l.newobj else none)
  dereference l.pfx.obj
  pure (.error e)

def setCurPrefix (l : Locals) : Run W Locals := do
  dereference l.pfx.obj
  reference l.curobj
  pure { l with pfx := ⟨l.curobj, l.curtype, l.curinputpos, l.curcanonpos⟩ }

def clearCurPrefix (input : Buf) (l : Locals) : Run W Locals := do
  if l.curobj = l.pfx.obj then do
    let path ← orFault (input.slice 0 l.pfx.inputpos)
    let _ ← nsInvalidatePrefix c.nsSetUserPrefix path
    dereference l.pfx.obj
    pure { l with pfx := { l.pfx with obj := none, type := nstInvalid } }
  else pure l

def saveCachePrefix (input : Buf) (inpos : ℕ) (canon : Buf) (canpos : ℕ) (curobj cobj : Option Obj)
    (ctype : ℕ) : Run W Unit := do
  let ipath ← orFault (input.slice 0 inpos)
  let cpath ← orFault (canon.slice 0 canpos)
  checkLength ipath
  checkLength cpath
  if ipath = [] ∨ cpath = [] then pure ()
  else do
    let t ← nsFindPrefix sv c.nsSetUserPrefix (cString ipath)
    recordObj .unreleased t.obj
    if t.len = inpos ∧ t.canon.take t.len = (cString cpath).take t.len ∧ t.type = 3 ∧
        t.obj ≠ curobj then do
      let _ ← nsSetCachePrefix ipath cobj ctype cpath
      pure ()
    else pure ()

structure Plan where
  input : Buf
  mode : UInt32
  access : UInt32

def ask (p : Plan) (l : Locals) : Run W (Except NsError Reply) := do
  let rest ← orFault (l.canon.string l.curcanonpos)
  if rest = [] then
    match l.curobj with
    | none => orFault (.error .nullObject)
    | some o => do
      let s ← get
      let (r, world) := sv.duplicate s.world o p.access
      set { s with world := world }
      match r with
      | .error e => pure (.error e)
      | .ok obj => do
        reference obj
        pure (.ok ⟨obj, l.curtype, .empty nsPathlen_pos, 0, 0⟩)
  else
    match l.curobj with
    | none => pure (.error .noSuchOperation)
    | some o =>
      if sv.isName o then do
        let s ← get
        let (r, world) := sv.resolve s.world o rest p.mode p.access
        set { s with world := world }
        match r with
        | .error e => pure (.error e)
        | .ok reply => do
          reference reply.obj
          pure (.ok reply)
      else pure (.error .noSuchOperation)

def askAgain (p : Plan) (l : Locals) : Run W (Except NsError Locals) := do
  let l ← clearCurPrefix c p.input l
  match l.curobj with
  | none => orFault (.error .nullObject)
  | some o =>
    match ← authenticate sv o nsrLookup with
    | .error e => abort l e
    | .ok obj => do
      dereference l.curobj
      pure (.ok { l with curobj := obj, newobj := obj, aliased := true })

def refused (p : Plan) (l : Locals) : NsError → Run W (Except NsError Locals)
  | .notAuthenticated =>
    if maxRetries < l.retrycount then abort l .infiniteRetry
    else askAgain sv c p { l with retrycount := l.retrycount + 1 }
  | .sendInvalidDest => do
    let l ← clearCurPrefix c p.input l
    abort l .invalidHandle
  | .invalidHandle => do
    let l ← clearCurPrefix c p.input l
    abort l .invalidHandle
  | e => abort l e

def cachePassed (p : Plan) (l : Locals) (usedlen : ℕ) : Run W Locals :=
  match l.cache with
  | some (some pos) =>
    if pos < l.curinputpos + usedlen then do
      let inpos ← orFault (fixupInpos p.input l.rememberInputpos)
      let canpos ← orFault (fixupInpos l.canon l.rememberCanonpos)
      saveCachePrefix sv c p.input inpos l.canon canpos l.curobj l.curobj l.curtype
      pure { l with rememberInputpos := inpos, rememberCanonpos := canpos, cache := some none }
    else
      pure { l with
        rememberInputpos := l.curinputpos + usedlen
        rememberCanonpos := l.curcanonpos + usedlen }
  | _ => pure l

def Reply.forwards (r : Reply) : Bool := r.action &&& (nsaForward ||| nsaTforward) ≠ 0

def advance (p : Plan) (l : Locals) (r : Reply) : Except Fault Locals := do
  if r.forwards then do
    let inputpos := l.curinputpos + r.usedlen
    let canonpos := l.curcanonpos + r.usedlen
    if (← p.input.peekBefore inputpos) = slash then
      if canonpos = 0 then .error .outside
      else pure { l with newinputpos := inputpos - 1, newcanonpos := canonpos - 1 }
    else pure { l with newinputpos := inputpos, newcanonpos := canonpos }
  else pure l

def authAccess (p : Plan) (l : Locals) (r : Reply) : Except Fault UInt32 := do
  if r.forwards then do
    let next ← p.input.peek l.newinputpos
    pure (if next ≠ 0 ∨ r.path.bytes ≠ [] then nsrLookup else p.access)
  else pure p.access

def authenticateNew (p : Plan) (l : Locals) (r : Reply) : Run W (Except NsError Locals) := do
  if r.action &&& nsaAuthenticate = 0 then pure (.ok l)
  else do
    let access ← orFault (authAccess p l r)
    match l.newobj with
    | none => orFault (.error .nullObject)
    | some o =>
      match ← authenticate sv o access with
      | .error e => abort l e
      | .ok obj => do
        dereference l.newobj
        pure (.ok { l with newobj := obj })

def Locals.resolved (l : Locals) (type : ℕ) : Resolved :=
  ⟨l.pfx, l.cache, l.canon, l.newobj, type, l.newinputpos, l.newcanonpos⟩

def cacheReached (p : Plan) (l : Locals) (r : Reply) : Run W CachePos :=
  match l.cache with
  | some (some pos) =>
    if pos = l.curinputpos + r.usedlen then do
      saveCachePrefix sv c p.input l.rememberInputpos l.canon l.rememberCanonpos l.curobj l.newobj
        r.type
      pure (some none)
    else pure l.cache
  | _ => pure l.cache

def finish (p : Plan) (l : Locals) (r : Reply) : Run W Resolved := do
  let cache ← cacheReached sv c p l r
  recordObj .unreleased l.curobj
  pure ({ l with cache := cache }.resolved r.type)

def cacheLink (p : Plan) (l : Locals) (newtype : ℕ) : Run W Locals :=
  match l.cache with
  | some (some pos) =>
    if l.rememberInputpos = pos then do
      let inpos ← orFault (fixupInpos p.input l.rememberInputpos)
      saveCachePrefix sv c p.input inpos l.canon l.newcanonpos l.curobj l.newobj newtype
      pure { l with
        rememberInputpos := inpos
        rememberCanonpos := l.newcanonpos
        cache := some none }
    else pure { l with rememberCanonpos := l.newcanonpos }
  | _ => pure l

def copyRest (p : Plan) (l : Locals) : Except Fault Locals :=
  if l.newinputpos < l.maxinputpos then do
    let rest ← p.input.slice l.newinputpos l.maxinputpos
    let canon ← l.canon.put l.newcanonpos rest
    pure { l with canon := canon, maxcanonpos := l.newcanonpos + rest.length }
  else pure l

def appendRest (p : Plan) (l : Locals) (fwdCanonpos : ℕ) : Except Fault Locals := do
  let l ← copyRest p l
  if fwdCanonpos < l.curcanonpos then
    pure { l with pfx := { l.pfx with canonpos := fwdCanonpos } }
  else pure l

def linkFailure (r : Reply) (e : NsError) : NsError :=
  if e = .nameNotFound ∧ r.action &&& nsaTforward ≠ 0 then .tforwardFailure else e

def linkRequest (p : Plan) (l : Locals) (path : Path) (fwdCanonpos : ℕ) (type : ℕ) :
    Except Fault Request := do
  let next ← p.input.peek l.newinputpos
  let canon ← l.canon.put fwdCanonpos [0]
  pure {
    pfx := ⟨l.newobj, type, 0, fwdCanonpos⟩
    cache := none
    input := path ++ [0]
    canon := canon
    mode := if next = 0 then p.mode else nsfFollowAll
    access := if next = 0 then p.access else nsrLookup
    forwardcount := l.forwardcount }

def followLink (p : Plan) (l : Locals) (r : Reply) : Run W (Except NsError (Locals × ℕ)) := do
  let fwdCanonpos ← orFault
    (if l.newobj = none then .ok 0 else backspaceComponent l.canon l.newcanonpos)
  dereference l.curobj
  match cleanPath r.path.bytes with
  | .error e => abort { l with curobj := l.newobj, newobj := none } e
  | .ok path => do
    let request ← orFault (linkRequest p l path fwdCanonpos r.type)
    match ← c.nsResolveComplex request with
    | .error e => abort { l with curobj := none, newobj := none } (linkFailure r e)
    | .ok q => do
      let l ← cacheLink sv c p
        { l with
          curobj := q.pfx.obj
          curtype := q.pfx.type
          newobj := q.obj
          newcanonpos := q.canonpos
          canon := q.canon } q.type
      let l ← orFault (appendRest p l q.pfx.canonpos)
      pure (.ok (l, q.type))

inductive Turn where
  | done (r : Resolved)
  | again (l : Locals)

def restart (l : Locals) (newtype : ℕ) : Run W Turn := do
  dereference l.curobj
  if l.maxinputpos ≤ l.newinputpos then pure (.done (l.resolved newtype))
  else do
    let canon ← orFault (l.canon.put l.maxcanonpos [0])
    let l ← setCurPrefix
      { l with
        curobj := l.newobj
        curtype := newtype
        newobj := none
        curcanonpos := l.newcanonpos
        curinputpos := l.newinputpos
        newinputpos := l.maxinputpos
        newcanonpos := l.maxcanonpos
        canon := canon }
    pure (.again l)

def forwardError (r : Reply) : NsError :=
  if r.action &&& nsaTforward ≠ 0 then .tforwardFailure else .infiniteForward

def forwardOn (p : Plan) (l : Locals) (r : Reply) : Run W (Except NsError Turn) := do
  if r.path.bytes = [] then do
    let turn ← restart l r.type
    pure (.ok turn)
  else
    match ← followLink sv c p l r with
    | .error e => pure (.error e)
    | .ok (l, newtype) => do
      let turn ← restart l newtype
      pure (.ok turn)

def accepted (p : Plan) (l : Locals) (r : Reply) : Run W (Except NsError Turn) := do
  let l ← cachePassed sv c p { l with newobj := r.obj, aliased := false } r.usedlen
  let l ← orFault (advance p l r)
  if maxForwards < l.forwardcount then abort l (forwardError r)
  else
    match ← authenticateNew sv p { l with forwardcount := l.forwardcount + 1 } r with
    | .error e => pure (.error e)
    | .ok l =>
      if r.forwards then forwardOn sv c p l r
      else do
        let q ← finish sv c p l r
        pure (.ok (.done q))

def simpleLoop (p : Plan) : ℕ → Locals → Run W (Except NsError Resolved)
  | 0, _ => orFault (.error .noFuel)
  | n + 1, l => do
    match ← ask sv p l with
    | .error e =>
      match ← refused sv c p l e with
      | .error e => pure (.error e)
      | .ok l => simpleLoop p n l
    | .ok r =>
      match ← accepted sv c p l r with
      | .error e => pure (.error e)
      | .ok (.done q) => pure (.ok q)
      | .ok (.again l) => simpleLoop p n l

def Request.locals (a : Request) (canon : Buf) : Locals where
  retrycount := 0
  forwardcount := a.forwardcount
  curobj := a.pfx.obj
  curtype := a.pfx.type
  curinputpos := a.pfx.inputpos
  curcanonpos := a.pfx.canonpos
  newobj := none
  aliased := false
  newinputpos := 0
  newcanonpos := 0
  maxinputpos := 0
  maxcanonpos := 0
  rememberInputpos := 0
  rememberCanonpos := 0
  pfx := a.pfx
  cache := a.cache
  canon := canon

def locate (a : Request) (l : Locals) : Run W (Except NsError Locals) := do
  if a.pfx.obj = none then do
    let path ← orFault (a.input.string 0)
    let f ← nsFindPrefix sv c.nsSetUserPrefix path
    match f.error with
    | some e => abort { l with curobj := f.obj } e
    | none => do
      let canon ← orFault (l.canon.put 0 (f.canon ++ [0]))
      let l ← setCurPrefix
        { l with
          curobj := f.obj
          curtype := f.type
          curinputpos := f.len
          curcanonpos := f.canon.length
          canon := canon }
      pure (.ok l)
  else pure (.ok l)

def skipInitialSlash (input : Buf) (l : Locals) : Except Fault Locals := do
  if (← input.peek l.curinputpos) = slash then do
    let (canon, canonpos) ← addSlash l.canon l.curcanonpos
    pure { l with canon := canon, curinputpos := l.curinputpos + 1, curcanonpos := canonpos }
  else pure l

def prepare (a : Request) (l : Locals) : Except Fault (Plan × Locals) := do
  let l ← skipInitialSlash a.input l
  let (maxinputpos, maxcanonpos, canon) ←
    copyComponents a.input (nsPathlen + 1) l.curinputpos l.curcanonpos l.canon
  let canon ← canon.put maxcanonpos [0]
  let first ← canon.peek l.curcanonpos
  let next ← a.input.peek maxinputpos
  pure
    (⟨a.input, if next = 0 then a.mode else nsfFollowAll, if next = 0 then a.access else nsrLookup⟩,
      { l with
        rememberInputpos := l.curinputpos
        rememberCanonpos := l.curcanonpos
        curcanonpos := if first = slash then l.curcanonpos + 1 else l.curcanonpos
        newinputpos := maxinputpos
        newcanonpos := maxcanonpos
        maxinputpos := maxinputpos
        maxcanonpos := maxcanonpos
        canon := canon })

def nsResolveSimple (a : Request) : Run W (Except NsError Resolved) := do
  reference a.pfx.obj
  let canon ← orFault (a.canon.put a.pfx.canonpos [0])
  match ← locate sv c a (a.locals canon) with
  | .error e => pure (.error e)
  | .ok l => do
    let (p, l) ← orFault (prepare a l)
    simpleLoop sv c p (maxRetries + maxForwards + 4) l

end Routines

end MachUS.Naming

namespace MachUS.Naming

def dotdots (input canon : Buf) : ℕ → ℕ → ℕ → Except Fault (ℕ × ℕ)
  | 0, _, _ => .error .outside
  | n + 1, newinputpos, newcanonpos => do
    let c ← input.findComponent newinputpos
    if isDotdot c.text then do
      let newcanonpos ← backspaceComponent canon newcanonpos
      dotdots input canon n (c.pos + c.text.length) newcanonpos
    else pure (newinputpos, newcanonpos)

structure Walk where
  cur : Directory
  cache : CachePos
  canon : Buf

section Routines

variable {W : Type} (sv : Servers W) (c : Callees W)

def cacheDotdots (input : Buf) (r : Resolved) (inputpos : ℕ) (canon : Buf) : Run W CachePos :=
  match r.cache with
  | some (some pos) =>
    if pos < inputpos then do
      saveCachePrefix sv c input r.pfx.inputpos canon r.pfx.canonpos r.pfx.obj r.pfx.obj r.pfx.type
      pure (some none)
    else pure r.cache
  | _ => pure r.cache

def cacheHere (input : Buf) (w : Walk) : Run W Walk :=
  match w.cache with
  | some (some pos) =>
    if pos = w.cur.inputpos then do
      saveCachePrefix sv c input w.cur.inputpos w.canon w.cur.canonpos w.cur.obj w.cur.obj
        w.cur.type
      pure { w with cache := some none }
    else pure w
  | _ => pure w

def lastKnown (w : Walk) (canonpos : ℕ) : Run W Walk := do
  if canonpos < w.cur.canonpos then do
    dereference w.cur.obj
    pure { w with cur := { w.cur with obj := none, type := nstInvalid, canonpos := 0 } }
  else pure w

def resolvePrefix (input : Buf) (w : Walk) (canonpos : ℕ) : Run W (Except NsError Walk) := do
  let w ← lastKnown w canonpos
  let newpath ← orFault (w.canon.slice 0 (canonpos + 1))
  let r ← nsResolveSimple sv c
    { pfx := { w.cur with inputpos := w.cur.canonpos }
      cache := none
      input := newpath
      canon := w.canon
      mode := nsfFollowAll
      access := nsrLookup
      forwardcount := 0 }
  match r with
  | .error e => pure (.error e)
  | .ok q => do
    dereference q.pfx.obj
    let w ← cacheHere sv c input
      ⟨⟨q.obj, q.type, w.cur.inputpos, q.canonpos⟩, w.cache, q.canon⟩
    pure (.ok w)

def goBack (input : Buf) (r : Resolved) : Run W (Except NsError Walk) := do
  let (inputpos, canonpos) ← orFault
    (dotdots input r.canon (nsPathlen + 1) r.inputpos r.canonpos)
  let canon ← orFault (r.canon.put canonpos [0])
  let cache ← cacheDotdots sv c input r inputpos canon
  if canonpos = r.canonpos then do
    dereference r.pfx.obj
    pure (.ok ⟨⟨r.obj, r.type, inputpos, canonpos⟩, cache, canon⟩)
  else do
    dereference r.obj
    let w : Walk := ⟨{ r.pfx with inputpos := inputpos }, cache, canon⟩
    if canonpos = r.pfx.canonpos then pure (.ok w)
    else resolvePrefix sv c input w canonpos

def complexLoop (a : Request) : ℕ → Walk → Run W (Except NsError Resolved)
  | 0, _ => orFault (.error .noFuel)
  | n + 1, w => do
    let r ← nsResolveSimple sv c { a with pfx := w.cur, cache := w.cache, canon := w.canon }
    match r with
    | .error e => pure (.error e)
    | .ok r => do
      let next ← orFault (a.input.peek r.inputpos)
      if next = 0 then pure (.ok r)
      else
        match ← goBack sv c a.input r with
        | .error e => pure (.error e)
        | .ok w => complexLoop a n w

def nsResolveComplex (a : Request) : Run W (Except NsError Resolved) :=
  complexLoop sv c a (nsPathlen + 2) ⟨a.pfx, a.cache, a.canon⟩

def cacheInputpos (input : Path) (cur : ℕ) : Option ℕ :=
  let b := input ++ [0]
  let pos := if cur < input.length then
      upTo cur (upTo cur (input.length - 1) fun p => b.getD p 0 = slash)
        fun p => b.getD p 0 ≠ slash
    else input.length
  let pos := if b.getD pos 0 = slash then pos + 1 else pos
  if input.length < 2 ∨ pos = 0 then none else some pos
where
  upTo (cur : ℕ) : ℕ → (ℕ → Bool) → ℕ
    | 0, _ => 0
    | p + 1, test => if cur < p + 1 ∧ test (p + 1) then upTo cur p test else p + 1

structure Found where
  obj : Option Obj
  type : ℕ
  canon : Buf

def failedWith {α : Type} (e : NsError) : Except NsError α → Bool
  | .error e' => e' = e
  | .ok _ => false

structure Attempt where
  result : Except NsError Found
  curobj : Option Obj
  pfxobj : Option Obj

def attempt (input : Path) (mode access : UInt32) : Run W Attempt := do
  let f ← nsFindPrefix sv c.nsSetUserPrefix input
  match f.error with
  | some e => pure ⟨.error e, none, f.obj⟩
  | none => do
    let canon ← orFault (Buf.put [] 0 (f.canon ++ [0]))
    reference f.obj
    let r ← nsResolveComplex sv c
      { pfx := ⟨f.obj, f.type, f.len, f.canon.length⟩
        cache := some (cacheInputpos input f.len)
        input := input ++ [0]
        canon := canon
        mode := mode
        access := access
        forwardcount := 0 }
    match r with
    | .error e => pure ⟨.error e, none, f.obj⟩
    | .ok q => pure ⟨.ok ⟨q.obj, q.type, q.canon⟩, q.pfx.obj, f.obj⟩

def attempts (input : Path) (mode access : UInt32) : ℕ → ℕ → Run W (Attempt × ℕ)
  | 0, _ => orFault (.error .noFuel)
  | n + 1, retrycount => do
    let t ← attempt sv c input mode access
    if failedWith .invalidHandle t.result then
      if retrycount + 1 < maxRetries then do
        recordObj .unreleased t.pfxobj
        attempts input mode access n (retrycount + 1)
      else pure ({ t with result := .error .infiniteRetry }, retrycount + 1)
    else pure (t, retrycount)

def resolvePass (input : Path) (mode access : UInt32) (retrycount : ℕ) :
    Run W (Except NsError Found × ℕ) := do
  let (t, retrycount) ← attempts sv c input mode access (maxRetries + 1) retrycount
  dereference t.curobj
  dereference t.pfxobj
  pure (t.result, retrycount)

def nsResolveFully (path : List UInt8) (mode access : UInt32) : Run W (Except NsError Found) := do
  match cleanPath (cString path) with
  | .error e => pure (.error e)
  | .ok input => do
    let (r, retrycount) ← resolvePass sv c input mode access 0
    if failedWith .tforwardFailure r ∧ mode &&& nsfTfollow ≠ 0 then do
      let (r, _) ← resolvePass sv c input (mode &&& ~~~nsfTfollow) access retrycount
      pure r
    else pure r

def nsSetUserPrefix (pfxpath targetpath : List UInt8) : Run W (Except NsError Unit) := do
  match ← nsResolveFully sv c targetpath nsfFollowAll nsrLookup with
  | .error e => pure (.error e)
  | .ok f => do
    let canon ← orFault (f.canon.string 0)
    enterUserPrefix pfxpath f.obj f.type canon

def callees : ℕ → Callees W
  | 0 => ⟨fun _ => orFault (.error .noFuel), fun _ _ => orFault (.error .noFuel)⟩
  | n + 1 => ⟨nsResolveComplex sv (callees n), nsSetUserPrefix sv (callees n)⟩

end Routines

end MachUS.Naming
