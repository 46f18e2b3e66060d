import MachUS.Foundation.Holding
import MachUS.Foundation.Transition

namespace MachUS.Tm.Groups

open Function

inductive Ptr where
  | null
  | group (g : ℕ)
  | wild
  deriving DecidableEq

def Ptr.asGroup : Ptr → Option ℕ
  | .group g => some g
  | _ => none

inductive Life where
  | unborn
  | made
  | listed
  | live
  | dead
  deriving DecidableEq

structure Entry where
  task : ℕ
  installed : Bool
  deriving DecidableEq

inductive Owner (T : Type) where
  | task (k : ℕ)
  | thread (t : T)
  | outside
  deriving DecidableEq

structure TmTask (T : Type) where
  taskId : ℕ
  life : Life
  tgrp : Ptr
  lock : Option T

structure TmTaskGroup (T : Type) where
  entry : ℕ → Option Entry
  holding : Holding (Owner T)

inductive TgrpAgent where
  | null
  | group (g : ℕ)
  | other

inductive Request where
  | registerInitial (id : ℕ) (stale : Ptr)
  | fork (parent id : ℕ)
  | setTgrp (task : ℕ) (agent : TgrpAgent)
  | taskDeath (task : ℕ)

inductive Caller where
  | client
  | constructor (own : Option ℕ)
  | death

inductive Phase where
  | idle
  | finding (task : ℕ)
  | reading (task parent : ℕ)
  | asking (task : ℕ) (tgrp : Ptr)
  | entering (task : ℕ) (next : Option ℕ) (caller : Caller)
  | leaving (task : ℕ) (next : Option ℕ) (caller : Caller)
  | dropping (task group : ℕ) (next : Option ℕ) (caller : Caller)
  | clearing (task : ℕ) (next : Option ℕ) (caller : Caller)
  | joining (task : ℕ) (next : Option ℕ) (left : Bool) (caller : Caller)
  | installing (task group : ℕ) (caller : Caller)
  | assigning (task group : ℕ) (caller : Caller)
  | refusing (task : ℕ) (next : Option ℕ) (caller : Caller)
  | constructed (task : ℕ) (own : Option ℕ)
  | introducing (task : ℕ) (own : Option ℕ)
  | closing (own : Option ℕ) (again : Bool)
  | burying (task : ℕ)

def Caller.goesOn (k : ℕ) : Caller → Phase
  | .client => .idle
  | .constructor own => .constructed k own
  | .death => .burying k

structure Report where
  task : ℕ
  success : Bool
  touched : Bool

inductive Found where
  | failed
  | made
  | existing (g : ℕ)

inductive Introduced where
  | done
  | failed
  | listed
  deriving DecidableEq

structure Answers where
  ok : Bool
  found : Found
  introduced : Introduced

inductive Event (T : Type) where
  | call (t : T) (r : Request)
  | act (t : T) (a : Answers)
  | share (g : ℕ)
  | release (g : ℕ)

structure Master (T : Type) where
  task : ℕ → TmTask T
  group : ℕ → TmTaskGroup T
  tasks : ℕ
  groups : ℕ
  taskDir : ℕ → Bool
  phase : T → Phase
  reports : List Report
  faulted : Bool

namespace Master

variable {T : Type}

def boot : Master T where
  task := fun _ => ⟨0, .unborn, .null, none⟩
  group := fun _ => ⟨fun _ => none, 0, []⟩
  tasks := 0
  groups := 0
  taskDir := fun _ => false
  phase := fun _ => .idle
  reports := []
  faulted := false

section Objects

variable (x : Master T)

def amend (k : ℕ) (f : TmTask T → TmTask T) : Master T :=
  { x with task := update x.task k (f (x.task k)) }

def amendGroup (g : ℕ) (f : TmTaskGroup T → TmTaskGroup T) : Master T :=
  { x with group := update x.group g (f (x.group g)) }

def nameOf (k : ℕ) : ℕ := (x.task k).taskId

def setEntry (g n : ℕ) (e : Option Entry) : Master T :=
  x.amendGroup g fun o => { o with entry := update o.entry n e }

def held (g : ℕ) (f : Holding (Owner T) → Holding (Owner T)) : Master T :=
  x.amendGroup g fun o => { o with holding := f o.holding }

def Freed (g : ℕ) : Prop := (x.group g).holding.refs = 0

instance (g : ℕ) : Decidable (x.Freed g) := inferInstanceAs (Decidable (_ = _))

def crash : Master T := { x with faulted := true }

def report (r : Report) : Master T := { x with reports := r :: x.reports }

def unreserve (id : ℕ) : Master T := { x with taskDir := update x.taskDir id false }

def newTask (id : ℕ) (stale : Ptr) : Master T :=
  { x with
    task := update x.task x.tasks ⟨id, .made, stale, none⟩
    tasks := x.tasks + 1
    taskDir := update x.taskDir id true }

def newGroup (t : T) : Master T :=
  { x with
    group := update x.group x.groups ⟨fun _ => none, 2, [.thread t, .outside]⟩
    groups := x.groups + 1 }

end Objects

variable [DecidableEq T] (x : Master T)

def goes (t : T) (p : Phase) : Master T := { x with phase := update x.phase t p }

def Known (k : ℕ) : Prop :=
  (x.task k).life = .listed ∨ (x.task k).life = .live ∨ (x.task k).life = .dead

instance (k : ℕ) : Decidable (x.Known k) := inferInstanceAs (Decidable (_ ∨ _))

def registerInitial (t : T) (id : ℕ) (stale : Ptr) : Master T :=
  if x.taskDir id then x else (x.newTask id stale).goes t (.finding x.tasks)

def fork (t : T) (parent id : ℕ) : Master T :=
  if x.taskDir id then x else (x.newTask id .null).goes t (.reading x.tasks parent)

def setTgrp (t : T) (k : ℕ) : TgrpAgent → Option (Master T)
  | .null => some (x.goes t (.entering k none .client))
  | .other => some (x.report ⟨k, false, false⟩)
  | .group g =>
    if Owner.outside ∈ (x.group g).holding.owners then
      some ((x.held g (·.reference (.thread t))).goes t (.entering k (some g) .client))
    else none

def taskDeath (t : T) (k : ℕ) : Option (Master T) :=
  if (x.task k).lock = none then
    if (x.task k).life = .dead then some x
    else some ((x.amend k fun o => { o with life := .dead }).goes t (.entering k none .death))
  else none

def start (t : T) : Request → Option (Master T)
  | .registerInitial id stale => some (x.registerInitial t id stale)
  | .fork parent id => if x.Known parent then some (x.fork t parent id) else none
  | .setTgrp k agent => if x.Known k then x.setTgrp t k agent else none
  | .taskDeath k =>
    if (x.task k).life = .live ∨ (x.task k).life = .dead then x.taskDeath t k else none

def returns (t : T) (k : ℕ) (c : Caller) : Master T := x.goes t (c.goesOn k)

-- tm_find_tgrp_internal; the constructor goes on with a null group when it fails.
def find (t : T) (k : ℕ) : Found → Option (Master T)
  | .failed => some (x.goes t (.entering k none (.constructor none)))
  | .made =>
    let y := x.newGroup t
    some ((y.held x.groups (·.reference (.thread t))).goes t
      (.entering k (some x.groups) (.constructor (some x.groups))))
  | .existing g =>
    if Owner.outside ∈ (x.group g).holding.owners then
      let y := x.held g fun o => (o.reference (.thread t)).reference (.thread t)
      some (y.goes t (.entering k (some g) (.constructor (some g))))
    else none

def ask (t : T) (k : ℕ) : Ptr → Master T
  | .null => x.goes t (.entering k none (.constructor none))
  | .wild => x.crash
  | .group g =>
    if x.Freed g then x.crash
    else (x.held g (·.reference (.thread t))).goes t (.entering k (some g) (.constructor none))

def enter (t : T) (k : ℕ) (next : Option ℕ) (c : Caller) : Option (Master T) :=
  if (x.task k).lock = none then
    some ((x.amend k fun o => { o with lock := some t }).goes t (.leaving k next c))
  else none

def unlock (k : ℕ) : Master T := x.amend k fun o => { o with lock := none }

def refuse (t : T) (k : ℕ) (left : Bool) (next : Option ℕ) (c : Caller) : Master T :=
  ((x.unlock k).report ⟨k, false, left⟩).goes t (.refusing k next c)

def leave (t : T) (k : ℕ) (ok : Bool) (next : Option ℕ) (c : Caller) : Ptr → Option (Master T)
  | .null => some (x.goes t (.joining k next false c))
  | .wild => some x.crash
  | .group g =>
    if x.Freed g then some x.crash
    else
      match (x.group g).entry (x.nameOf k) with
      | none => some (x.refuse t k false next c)
      | some ⟨_, true⟩ => some ((x.setEntry g (x.nameOf k) none).goes t (.dropping k g next c))
      | some ⟨_, false⟩ => if ok then none else some (x.refuse t k false next c)

def drop (g : ℕ) (h : Owner T) : Master T :=
  if x.Freed g then x.crash else x.held g (·.dereference h)

def dropNext (t : T) : Option ℕ → Master T
  | none => x
  | some g => x.drop g (.thread t)

def clear (t : T) (k : ℕ) (next : Option ℕ) (c : Caller) : Master T :=
  (x.amend k fun o => { o with tgrp := .null }).goes t (.joining k next true c)

def join (t : T) (k : ℕ) (left : Bool) (c : Caller) : Option ℕ → Master T
  | none => ((x.unlock k).report ⟨k, true, left⟩).returns t k c
  | some g =>
    if x.Freed g then x.crash
    else
      match (x.group g).entry (x.nameOf k) with
      | some _ => x.refuse t k left (some g) c
      | none => (x.setEntry g (x.nameOf k) (some ⟨k, false⟩)).goes t (.installing k g c)

def Life.show : Life → Life
  | .made => .listed
  | l => l

def install (t : T) (k g : ℕ) (c : Caller) : Master T :=
  ((x.setEntry g (x.nameOf k) (some ⟨k, true⟩)).amend k
    fun o => { o with life := Life.show o.life }).goes t (.assigning k g c)

def assign (t : T) (k g : ℕ) (c : Caller) : Master T :=
  (((x.held g (·.handOver (.thread t) (.task k))).amend k
    fun o => { o with tgrp := .group g, lock := none }).report ⟨k, true, true⟩).returns t k c

def construct (t : T) (k : ℕ) (own : Option ℕ) (ok : Bool) : Master T :=
  if ok then x.goes t (.introducing k own) else (x.unreserve (x.nameOf k)).goes t .idle

def introduce (t : T) (k : ℕ) (own : Option ℕ) : Introduced → Master T
  | .done => (x.amend k fun o => { o with life := .live }).goes t (.closing own false)
  | .failed => (x.unreserve (x.nameOf k)).goes t (.closing own true)
  | .listed => (x.amend k fun o => { o with life := .live }).goes t (.closing own true)

def act (t : T) (a : Answers) : Phase → Option (Master T)
  | .idle => none
  | .finding k => x.find t k a.found
  | .reading k parent => some (x.goes t (.asking k (x.task parent).tgrp))
  | .asking k p => some (x.ask t k p)
  | .entering k next c => x.enter t k next c
  | .leaving k next c => x.leave t k a.ok next c (x.task k).tgrp
  | .dropping k g next c => some ((x.drop g (.task k)).goes t (.clearing k next c))
  | .clearing k next c => some (x.clear t k next c)
  | .joining k next left c => some (x.join t k left c next)
  | .installing k g c => some (x.install t k g c)
  | .assigning k g c => some (x.assign t k g c)
  | .refusing k next c => some ((x.dropNext t next).returns t k c)
  | .constructed k own => some (x.construct t k own a.ok)
  | .introducing k own => some (x.introduce t k own a.introduced)
  | .closing own again =>
    some ((x.dropNext t own).goes t (if again then .closing own false else .idle))
  | .burying k => some ((x.unreserve (x.nameOf k)).goes t .idle)

def next : Event T → Option (Master T)
  | .call t r =>
    match x.faulted, x.phase t with
    | false, .idle => x.start t r
    | _, _ => none
  | .act t a => if x.faulted then none else x.act t a (x.phase t)
  | .share g =>
    if (x.group g).holding.owners = [] then none else some (x.held g (·.reference .outside))
  | .release g =>
    if Owner.outside ∈ (x.group g).holding.owners then some (x.drop g .outside) else none

end Master

end MachUS.Tm.Groups

namespace MachUS.Tm.Groups

namespace Caller

def own : Caller → List ℕ
  | .constructor own => own.toList
  | _ => []

end Caller

namespace Phase

def locks : Phase → Option ℕ
  | .leaving k _ _ | .dropping k _ _ _ | .clearing k _ _ | .joining k _ _ _ | .installing k _ _
  | .assigning k _ _ => some k
  | _ => none

def task : Phase → Option ℕ
  | .idle | .closing _ _ => none
  | .finding k | .reading k _ | .asking k _ | .entering k _ _ | .leaving k _ _ | .dropping k _ _ _
  | .clearing k _ _ | .joining k _ _ _ | .installing k _ _ | .assigning k _ _ | .refusing k _ _
  | .constructed k _ | .introducing k _ | .burying k => some k

def owes : Phase → List ℕ
  | .idle | .finding _ | .reading _ _ | .asking _ _ | .burying _ => []
  | .entering _ next c | .leaving _ next c | .dropping _ _ next c | .clearing _ next c
  | .joining _ next _ c | .refusing _ next c => next.toList ++ c.own
  | .installing _ g c | .assigning _ g c => g :: c.own
  | .constructed _ own | .introducing _ own | .closing own false => own.toList
  | .closing own true => own.toList ++ own.toList

theorem task_of_locks {p : Phase} {k : ℕ} (h : p.locks = some k) : p.task = some k := by
  cases p <;> first | exact h | cases h

end Phase

namespace Master

section Views

variable {T : Type} (x : Master T)

def Sits (k : ℕ) (l : Option (ℕ × Bool)) : Prop := ∀ g n b,
  (x.group g).entry n = some ⟨k, b⟩ ↔ l = some (g, b) ∧ n = x.nameOf k

def owners (g : ℕ) : List (Owner T) := (x.group g).holding.owners

def Member (g k : ℕ) : Prop := ∃ n, (x.group g).entry n = some ⟨k, true⟩

end Views

variable {T : Type} [DecidableEq T] (x : Master T)

def Owns (k : ℕ) (o : Option ℕ) : Prop := ∀ g,
  (x.owners g).count (.task k) = if o = some g then 1 else 0

structure Stands (k : ℕ) (p : Ptr) (l : Option (ℕ × Bool)) (o : Option ℕ) : Prop where
  tgrp : (x.task k).tgrp = p
  sits : x.Sits k l
  owns : x.Owns k o

def Settled (k : ℕ) : Prop := (x.task k).tgrp ≠ .wild ∧
  x.Stands k (x.task k).tgrp ((x.task k).tgrp.asGroup.map (·, true)) (x.task k).tgrp.asGroup

def Fits : Phase → Prop
  | .leaving k _ _ => x.Settled k
  | .dropping k g _ _ => x.Stands k (.group g) none (some g)
  | .clearing k _ _ => ∃ g, x.Stands k (.group g) none none
  | .joining k _ _ _ => x.Stands k .null none none
  | .installing k g _ => x.Stands k .null (some (g, false)) none
  | .assigning k g _ => x.Stands k .null (some (g, true)) none
  | .asking _ p => p ≠ .wild
  | _ => True

structure Kept : Prop where
  balanced : ∀ g, (x.group g).holding.Balanced
  unbuilt : ∀ g, x.groups ≤ g → x.owners g = [] ∧ ∀ n, (x.group g).entry n = none
  reports : ∀ r ∈ x.reports, r.success = false → r.touched = false
  faulted : x.faulted = false

structure Inv : Prop where
  locks : ∀ t k, (x.task k).lock = some t ↔ (x.phase t).locks = some k
  fits : ∀ t, x.Fits (x.phase t)
  settled : ∀ k, (x.task k).lock = none → x.Settled k
  owed : ∀ t g, (x.phase t).owes.count g ≤ (x.owners g).count (.thread t)
  born : ∀ t k, (x.phase t).task = some k → k < x.tasks
  unborn : ∀ k, x.tasks ≤ k → (x.task k).life = .unborn ∧ (x.task k).tgrp = .null
  kept : x.Kept

def Orderly : Event T → Prop
  | .call _ (.registerInitial _ stale) => stale = .null
  | .act t a =>
    match x.phase t with
    | .asking _ (.group g) => ¬x.Freed g
    | .joining k (some g) true _ => (x.group g).entry (x.nameOf k) = none
    | .introducing _ (some _) => a.introduced = .done
    | _ => True
  | _ => True

structure Grouped : Prop where
  member : ∀ k g, (x.task k).lock = none → (x.Member g k ↔ (x.task k).tgrp = .group g)
  once : ∀ k g g' n n', (x.group g).entry n = some ⟨k, true⟩ →
    (x.group g').entry n' = some ⟨k, true⟩ → g = g' ∧ n = n'
  held : ∀ k g, (x.task k).lock = none →
    (x.owners g).count (.task k) = if (x.task k).tgrp = .group g then 1 else 0
  counted : ∀ g, (x.group g).holding.refs = (x.owners g).length
  reports : ∀ r ∈ x.reports, r.success = false → r.touched = false
  answered : x.faulted = false

end Master

end MachUS.Tm.Groups
