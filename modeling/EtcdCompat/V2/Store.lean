import EtcdCompat.V2.Node
import EtcdCompat.V2.Watcher

/-!
# The v2 store

The operations of the store on its tree of nodes, its heap of nodes with a TTL, its index and its
watchers, and runs of them. `Env` has what a call finds outside the store: the clock, and the order
in which it goes over the children of a directory, which for Go is any order.
-/

namespace EtcdCompat.V2

open GoPath

structure Env where
  now : Time
  order : List (Bytes × ℕ) → List (Bytes × ℕ)
  order_perm : ∀ children, (order children).Perm children

/-- Children by name, and a clock that stands at a time. -/
def Env.sorted (now : Time) : Env where
  now := now
  order children := children
  order_perm children := .refl children

structure TTLOptionSet where
  expireTime : Time := permanent
  refresh : Bool := false
deriving DecidableEq, Repr

structure Store where
  mem : ℕ → Node
  -- the address of the next node allocated
  next : ℕ
  watcherHub : WatcherHub
  currentIndex : ℕ := 0
  ttlKeyHeap : TtlKeyHeap := newTtlKeyHeap
  readonlySet : List Bytes

/-- What an operation with an error of its own answers, after the store it leaves. -/
abbrev Answer (α : Type) := Store × Except EtcdError α

/-- The start of the year 2000. -/
def minExpireTime : Time := 730119 * 86400 * second

namespace Store

section Nodes

def root : ℕ := 0

def setNode (s : Store) (a : ℕ) (n : Node) : Store :=
  { s with mem := Function.update s.mem a n }

/-- A new node takes the next address. -/
def alloc (s : Store) (n : Node) : Store := { s.setNode s.next n with next := s.next + 1 }

/-- `parent.Children[name] = child`. -/
def setChild (s : Store) (parent : ℕ) (name : Bytes) (child : ℕ) : Except Panic Store :=
  match (s.mem parent).children with
  | none => .error .nilMapAssignment
  | some children =>
    .ok (s.setNode parent { s.mem parent with children := some (children.insert name child) })

/-- `Add`, whose errors no caller looks at: the child is then not added. -/
def add (s : Store) (parent child : ℕ) : Store :=
  let name := file (s.mem child).path
  match (s.mem parent).children with
  | none => s
  | some children =>
    if (children.find name).isSome then s
    else s.setNode parent { s.mem parent with children := some (children.insert name child) }

/-- Whether the parent has the node itself under its name. -/
def isAttached (s : Store) (a : ℕ) : Bool :=
  match (s.mem a).parent with
  | none => false
  | some parent => (s.mem parent).child (file (s.mem a).path) = some a

/-- The node deleted from the children of its parent, if it is one of them. -/
def detach (s : Store) (a : ℕ) : Store :=
  match (s.mem a).parent with
  | none => s
  | some parent =>
    if s.isAttached a then
      s.setNode parent { s.mem parent with
        children := (s.mem parent).children.map (·.erase (file (s.mem a).path)) }
    else s

def pushTTL (s : Store) (a : ℕ) : Store :=
  { s with ttlKeyHeap := s.ttlKeyHeap.push s.mem a }

def removeTTL (s : Store) (a : ℕ) : Store :=
  { s with ttlKeyHeap := s.ttlKeyHeap.remove s.mem a }

def updateTTL (s : Store) (a : ℕ) (expireTime : Time) : Store :=
  let n := s.mem a
  if ¬ n.isPermanent then
    let s := s.setNode a { n with expireTime }
    if expireTime = permanent then s.removeTTL a
    else { s with ttlKeyHeap := s.ttlKeyHeap.update s.mem a }
  else if expireTime = permanent then s
  else (s.setNode a { n with expireTime }).pushTTL a

end Nodes

section Remove

/-- The callback of `Remove`: the watchers of the path of a node removed by an event. -/
def callback (s : Store) (e : Option Event) (path : Bytes) : Except Panic Store :=
  match e with
  | none => .ok s
  | some e => do
    let watcherHub ← s.watcherHub.notifyWatchers e path true
    .ok { s with watcherHub }

/-- What `Remove` does last to a node: off its parent, the callback, and off the heap. -/
def drop (s : Store) (e : Option Event) (a : ℕ) : Except Panic Store := do
  let n := s.mem a
  let s ← (s.detach a).callback e n.path
  .ok (if n.isPermanent then s else s.removeTTL a)

/-- `Remove` for trees of a height below `fuel`. -/
def removeWithin (env : Env) (e : Option Event) :
    ℕ → Store → ℕ → Bool → Bool → Except Panic (Store × Option EtcdError)
  | 0, _, _, _, _ => .error .stackOverflow
  | fuel + 1, s, a, dir, recursive =>
    let n := s.mem a
    match n.children with
    | none => do
      let s ← s.drop e a
      .ok (s, none)
    | some children =>
      if ¬ dir then .ok (s, some ⟨.notFile, n.path, s.currentIndex⟩)
      else if children.entries ≠ [] ∧ ¬ recursive then
        .ok (s, some ⟨.dirNotEmpty, n.path, s.currentIndex⟩)
      else do
        let s ← (env.order children.entries).foldlM
          (fun s child => do
            let (s, _) ← removeWithin env e fuel s child.2 true true
            .ok s) s
        if s.isAttached a then do
          let s ← s.drop e a
          .ok (s, none)
        else .ok (s, none)

def remove (env : Env) (e : Option Event) (s : Store) (a : ℕ) (dir recursive : Bool) :
    Except Panic (Store × Option EtcdError) :=
  removeWithin env e s.next s a dir recursive

end Remove

section Walk

/-- `path.Clean(path.Join("/", nodePath))`. -/
def cleanPath (nodePath : Bytes) : Bytes := clean (join [slash] nodePath)

/-- The loop of `walk` over the components. -/
def walkFrom (walkFunc : Store → ℕ → Bytes → Except Panic (Answer ℕ)) :
    Store → ℕ → List Bytes → Except Panic (Answer ℕ)
  | s, curr, [] => .ok (s, .ok curr)
  | s, curr, component :: components =>
    if component = [] then .ok (s, .ok curr)
    else do
      match ← walkFunc s curr component with
      | (s, .error err) => .ok (s, .error err)
      | (s, .ok curr) => walkFrom walkFunc s curr components

def walk (s : Store) (nodePath : Bytes)
    (walkFunc : Store → ℕ → Bytes → Except Panic (Answer ℕ)) : Except Panic (Answer ℕ) :=
  walkFrom walkFunc s root (segments slash nodePath).tail

def getChild (s : Store) (parent : ℕ) (name : Bytes) : Except EtcdError ℕ :=
  let n := s.mem parent
  if ¬ n.isDir then .error ⟨.notDir, n.path, s.currentIndex⟩
  else match n.child name with
    | some child => .ok child
    | none => .error ⟨.keyNotFound, join n.path name, s.currentIndex⟩

/-- The walk of `internalGet`, whose steps leave the store alone. -/
def getFrom (s : Store) : ℕ → List Bytes → Except EtcdError ℕ
  | curr, [] => .ok curr
  | curr, component :: components =>
    if component = [] then .ok curr
    else do
      let curr ← s.getChild curr component
      s.getFrom curr components

def internalGet (s : Store) (nodePath : Bytes) : Except EtcdError ℕ :=
  s.getFrom root (segments slash (cleanPath nodePath)).tail

def checkDir (s : Store) (parent : ℕ) (dirName : Bytes) : Except Panic (Answer ℕ) :=
  match (s.mem parent).child dirName with
  | some a =>
    if (s.mem a).isDir then .ok (s, .ok a)
    else .ok (s, .error ⟨.notDir, (s.mem a).path, s.currentIndex⟩)
  | none => do
    let a := s.next
    let s := s.alloc
      (newDir (join (s.mem parent).path dirName) (s.currentIndex + 1) (some parent) permanent)
    let s ← s.setChild parent dirName a
    .ok (s, .ok a)

end Walk

section Get

/-- `Repr` of a node of a tree of a height below `fuel`. -/
def reprWithin (s : Store) (env : Env) (recursive sorted : Bool) :
    ℕ → ℕ → Except Panic NodeExtern
  | 0, _ => .error .stackOverflow
  | fuel + 1, a =>
    let n := s.mem a
    match n.children with
    | none => .ok (n.repr env.now)
    | some children =>
      if ¬ recursive then .ok (n.repr env.now)
      else do
        let nodes ← (env.order children.entries).filterMapM fun child => do
          if ← (s.mem child.2).isHidden then .ok none
          else (reprWithin s env recursive sorted fuel child.2).map some
        .ok { n.repr env.now with
          nodes := if sorted then nodes.insertionSort (·.key ≤ ·.key) else nodes }

/-- `loadInternalNode`, which lists the children of a directory in any case. -/
def loadInternalNode (s : Store) (env : Env) (recursive sorted : Bool) (eNode : NodeExtern)
    (a : ℕ) : Except Panic NodeExtern := do
  let n := s.mem a
  let eNode := { eNode with
    expiration := (n.expirationAndTTL env.now).1
    ttl := (n.expirationAndTTL env.now).2 }
  match n.children with
  | none => .ok { eNode with value := some n.value }
  | some children => do
    let nodes ← (env.order children.entries).filterMapM fun child => do
      if ← (s.mem child.2).isHidden then .ok none
      else (s.reprWithin env recursive sorted s.next child.2).map some
    .ok { eNode with
      dir := true
      nodes := if sorted then nodes.insertionSort (·.key ≤ ·.key) else nodes }

def get (s : Store) (env : Env) (nodePath : Bytes) (recursive sorted : Bool) :
    Except Panic (Except EtcdError Event) :=
  let nodePath := cleanPath nodePath
  match s.internalGet nodePath with
  | .error err => .ok (.error err)
  | .ok a => do
    let n := s.mem a
    let e := newEvent .get nodePath n.modifiedIndex n.createdIndex
    let node ← s.loadInternalNode env recursive sorted e.node a
    .ok (.ok { e with node, etcdIndex := s.currentIndex })

end Get

section Write

/-- `WatcherHub.notify`, and `WatcherHub.add` for a refresh. -/
def tell (wh : WatcherHub) (e : Event) : Except Panic WatcherHub :=
  if e.refresh then wh.add e else wh.notify e

def publish (s : Store) (e : Event) : Except Panic Store := do
  let watcherHub ← tell s.watcherHub e
  .ok { s with watcherHub }

/-- The name of a unique item: the index in decimal, with zeros to twenty places. -/
def uniqueName (index : ℕ) : Bytes :=
  List.replicate (20 - (decimal index).length) 48 ++ decimal index

/-- The path and time `internalCreate` goes on with. -/
def createPath (s : Store) (nodePath : Bytes) (unique : Bool) : Bytes :=
  cleanPath (if unique then nodePath ++ slash :: uniqueName (s.currentIndex + 1) else nodePath)

def createTime (expireTime : Time) : Time :=
  if expireTime < minExpireTime then permanent else expireTime

/-- The end of `internalCreate`, with the directory found and room for the node in it. -/
def addNew (s : Store) (env : Env) (e : Event) (d : ℕ) (dir : Bool) (value : Bytes)
    (expireTime : Time) : Store × Event :=
  let nodePath := e.node.key
  let nextIndex := s.currentIndex + 1
  let a := s.next
  let n := if dir then newDir nodePath nextIndex (some d) expireTime
    else newKV nodePath value nextIndex (some d) expireTime
  let s := (s.alloc n).add d a
  let eNode := { e.node with
    value := if dir then none else some value
    dir := dir
    expiration := (n.expirationAndTTL env.now).1
    ttl := (n.expirationAndTTL env.now).2 }
  let s := if n.isPermanent then s else s.pushTTL a
  ({ s with currentIndex := nextIndex }, { e with node := eNode })

def internalCreate (s : Store) (env : Env) (nodePath : Bytes) (dir : Bool) (value : Bytes)
    (unique replace : Bool) (expireTime : Time) (action : Action) : Except Panic (Answer Event) :=
      do
  let currIndex := s.currentIndex
  let nodePath := s.createPath nodePath unique
  if s.readonlySet.contains nodePath then .ok (s, .error ⟨.rootROnly, [slash], currIndex⟩)
  else
    match ← s.walk (GoPath.dir nodePath) checkDir with
    | (s, .error err) => .ok (s, .error { err with index := currIndex })
    | (s, .ok d) =>
      let e := newEvent action nodePath (currIndex + 1) (currIndex + 1)
      match (s.mem d).child (file nodePath) with
      | none =>
        let (s, e) := s.addNew env e d dir value (createTime expireTime)
        .ok (s, .ok e)
      | some a =>
        if ¬ replace then .ok (s, .error ⟨.nodeExist, nodePath, currIndex⟩)
        else if (s.mem a).isDir then .ok (s, .error ⟨.notFile, nodePath, currIndex⟩)
        else do
          let e := { e with prevNode := some ((s.mem a).repr env.now) }
          let (s, _) ← remove env none s a false false
          let (s, e) := s.addNew env e d dir value (createTime expireTime)
          .ok (s, .ok e)

def create (s : Store) (env : Env) (nodePath : Bytes) (dir : Bool) (value : Bytes)
    (unique : Bool) (expireOpts : TTLOptionSet) : Except Panic (Answer Event) := do
  match ← s.internalCreate env nodePath dir value unique false expireOpts.expireTime .create with
  | (s, .error err) => .ok (s, .error err)
  | (s, .ok e) => do
    let e := { e with etcdIndex := s.currentIndex }
    let s ← s.publish e
    .ok (s, .ok e)

/-- The event of `Set` with the node that was at the path before, if there was one. -/
def withPrev (s : Store) (env : Env) (nodePath : Bytes) (e : Event) :
    Option ℕ → Except Panic Event
  | none => .ok e
  | some a => do
    let n := s.mem a
    let prev := newEvent .get nodePath n.modifiedIndex n.createdIndex
    let prevNode ← s.loadInternalNode env false false prev.node a
    .ok { e with prevNode := some prevNode }

/-- The new node of `Set`, once the old one was asked for. -/
def setNew (s : Store) (env : Env) (nodePath : Bytes) (dir : Bool) (value : Bytes)
    (expireOpts : TTLOptionSet) (prev : Option ℕ) : Except Panic (Answer Event) := do
  match ← s.internalCreate env nodePath dir value false true expireOpts.expireTime .set with
  | (s, .error err) => .ok (s, .error err)
  | (s, .ok e) => do
    let e ← s.withPrev env nodePath { e with etcdIndex := s.currentIndex } prev
    let e := if expireOpts.refresh then e.setRefresh else e
    let s ← s.publish e
    .ok (s, .ok e)

def set (s : Store) (env : Env) (nodePath : Bytes) (dir : Bool) (value : Bytes)
    (expireOpts : TTLOptionSet) : Except Panic (Answer Event) :=
  match s.internalGet nodePath with
  | .ok a =>
    s.setNew env nodePath dir (if expireOpts.refresh then (s.mem a).value else value) expireOpts
      (some a)
  | .error err =>
    if err.errorCode ≠ .keyNotFound ∨ expireOpts.refresh then .ok (s, .error err)
    else s.setNew env nodePath dir value expireOpts none

def compareFailCause (n : Node) (which : CompareResult) (prevValue : Bytes) (prevIndex : ℕ) :
    Bytes :=
  let index := ascii "[" ++ decimal prevIndex ++ ascii " != " ++ decimal n.modifiedIndex
    ++ ascii "]"
  let value := ascii "[" ++ prevValue ++ ascii " != " ++ n.value ++ ascii "]"
  match which with
  | .indexNotMatch => index
  | .valueNotMatch => value
  | _ => value ++ ascii " " ++ index

/-- The node written with the value and TTL of `Update` and `CompareAndSwap`, and its event. -/
def rewrite (s : Store) (env : Env) (action : Action) (a : ℕ) (nodePath value : Bytes)
    (expireOpts : TTLOptionSet) : Store × Event :=
  let nextIndex := s.currentIndex + 1
  let old := s.mem a
  let value := if expireOpts.refresh then old.value else value
  let s := (s.setNode a (old.write value nextIndex)).updateTTL a expireOpts.expireTime
  let n := s.mem a
  let e := newEvent action nodePath nextIndex old.createdIndex
  let eNode := { e.node with
    value := if n.isDir then none else some value
    dir := n.isDir
    expiration := (n.expirationAndTTL env.now).1
    ttl := (n.expirationAndTTL env.now).2 }
  (s, { e with
    node := eNode
    prevNode := some (old.repr env.now)
    etcdIndex := nextIndex
    refresh := expireOpts.refresh })

def compareAndSwap (s : Store) (env : Env) (nodePath prevValue : Bytes) (prevIndex : ℕ)
    (value : Bytes) (expireOpts : TTLOptionSet) : Except Panic (Answer Event) :=
  let nodePath := cleanPath nodePath
  if s.readonlySet.contains nodePath then .ok (s, .error ⟨.rootROnly, [slash], s.currentIndex⟩)
  else match s.internalGet nodePath with
    | .error err => .ok (s, .error err)
    | .ok a =>
      let n := s.mem a
      if n.isDir then .ok (s, .error ⟨.notFile, nodePath, s.currentIndex⟩)
      else
        let which := n.compare prevValue prevIndex
        if which ≠ .match then
          let cause := compareFailCause n which prevValue prevIndex
          .ok (s, .error ⟨.testFailed, cause, s.currentIndex⟩)
        else do
          let (s, e) := s.rewrite env .compareAndSwap a nodePath value expireOpts
          let s := { s with currentIndex := s.currentIndex + 1 }
          let s ← s.publish e
          .ok (s, .ok e)

/-- The index goes up only after the watchers were notified. -/
def update (s : Store) (env : Env) (nodePath newValue : Bytes) (expireOpts : TTLOptionSet) :
    Except Panic (Answer Event) :=
  let nodePath := cleanPath nodePath
  if s.readonlySet.contains nodePath then .ok (s, .error ⟨.rootROnly, [slash], s.currentIndex⟩)
  else match s.internalGet nodePath with
    | .error err => .ok (s, .error err)
    | .ok a =>
      if (s.mem a).isDir ∧ newValue ≠ [] then
        .ok (s, .error ⟨.notFile, nodePath, s.currentIndex⟩)
      else do
        let (s, e) := s.rewrite env .update a nodePath newValue expireOpts
        let s ← s.publish e
        .ok ({ s with currentIndex := s.currentIndex + 1 }, .ok e)

def delete (s : Store) (env : Env) (nodePath : Bytes) (dir recursive : Bool)
    : Except Panic (Answer Event) :=
  let nodePath := cleanPath nodePath
  if s.readonlySet.contains nodePath then .ok (s, .error ⟨.rootROnly, [slash], s.currentIndex⟩)
  else match s.internalGet nodePath with
    | .error err => .ok (s, .error err)
    | .ok a => do
      let n := s.mem a
      let nextIndex := s.currentIndex + 1
      let e := newEvent .delete nodePath nextIndex n.createdIndex
      let e := { e with
        node := { e.node with dir := n.isDir }
        prevNode := some (n.repr env.now)
        etcdIndex := nextIndex }
      match ← remove env (some e) s a (dir || recursive) recursive with
      | (s, some err) => .ok (s, .error err)
      | (s, none) => do
        let s ← { s with currentIndex := s.currentIndex + 1 }.publish e
        .ok (s, .ok e)

def compareAndDelete (s : Store) (env : Env) (nodePath prevValue : Bytes) (prevIndex : ℕ) :
    Except Panic (Answer Event) :=
  let nodePath := cleanPath nodePath
  match s.internalGet nodePath with
  | .error err => .ok (s, .error err)
  | .ok a =>
    let n := s.mem a
    if n.isDir then .ok (s, .error ⟨.notFile, nodePath, s.currentIndex⟩)
    else
      let which := n.compare prevValue prevIndex
      if which ≠ .match then
        let cause := compareFailCause n which prevValue prevIndex
        .ok (s, .error ⟨.testFailed, cause, s.currentIndex⟩)
      else do
        let s := { s with currentIndex := s.currentIndex + 1 }
        let e := newEvent .compareAndDelete nodePath s.currentIndex n.createdIndex
        let e := { e with prevNode := some (n.repr env.now), etcdIndex := s.currentIndex }
        match ← remove env (some e) s a false false with
        | (s, some err) => .ok (s, .error err)
        | (s, none) => do
          let s ← s.publish e
          .ok (s, .ok e)

end Write

section Expire

/-- One turn of `DeleteExpiredKeys`, if the first node to expire has a time up to the cutoff. -/
def expireTop (s : Store) (env : Env) (cutoff : Time) : Except Panic (Option Store) :=
  match s.ttlKeyHeap.top with
  | none => .ok none
  | some a =>
    let n := s.mem a
    if n.expireTime > cutoff then .ok none
    else do
      let s := { s with currentIndex := s.currentIndex + 1 }
      let e := newEvent .expire n.path s.currentIndex n.createdIndex
      let e := { e with prevNode := some (n.repr env.now), etcdIndex := s.currentIndex }
      let s := { s with ttlKeyHeap := s.ttlKeyHeap.pop s.mem }
      let (s, _) ← remove env (some e) s a true true
      let s ← s.publish e
      .ok (some s)

/-- The loop of `DeleteExpiredKeys`, at most `fuel` times around. -/
def expireWithin (env : Env) (cutoff : Time) : ℕ → Store → Except Panic Store
  | 0, _ => .error .diverges
  | fuel + 1, s => do
    match ← s.expireTop env cutoff with
    | none => .ok s
    | some s => expireWithin env cutoff fuel s

def deleteExpiredKeys (s : Store) (env : Env) (cutoff : Time) : Except Panic Store :=
  expireWithin env cutoff (s.ttlKeyHeap.array.length + 1) s

end Expire

def watch (s : Store) (key : Bytes) (recursive stream : Bool) (sinceIndex : ℕ)
    : Except Panic (Answer ℕ) := do
  let key := cleanPath key
  let sinceIndex := if sinceIndex = 0 then s.currentIndex + 1 else sinceIndex
  let (watcherHub, w) ← s.watcherHub.watch key recursive stream sinceIndex s.currentIndex
  .ok ({ s with watcherHub }, w)

end Store

def newStore (namespaces : List Bytes) : Store :=
  let s : Store := {
    mem := fun _ => newDir [slash] 0 none permanent
    next := 1
    watcherHub := newWatchHub 1000
    readonlySet := namespaces ++ [[slash]] }
  namespaces.foldl
    (fun s ns => (s.alloc (newDir ns s.currentIndex (some Store.root) permanent)).add
      Store.root s.next) s

section Runs

/-- A call that writes a node. -/
inductive Write where
  | create (nodePath : Bytes) (dir : Bool) (value : Bytes) (unique : Bool)
    (expireOpts : TTLOptionSet)
  | set (nodePath : Bytes) (dir : Bool) (value : Bytes) (expireOpts : TTLOptionSet)
  | update (nodePath newValue : Bytes) (expireOpts : TTLOptionSet)
  | compareAndSwap (nodePath prevValue : Bytes) (prevIndex : ℕ) (value : Bytes)
    (expireOpts : TTLOptionSet)
  | delete (nodePath : Bytes) (dir recursive : Bool)
  | compareAndDelete (nodePath prevValue : Bytes) (prevIndex : ℕ)

def Write.apply (env : Env) (s : Store) : Write → Except Panic (Answer Event)
  | .create nodePath dir value unique expireOpts =>
    s.create env nodePath dir value unique expireOpts
  | .set nodePath dir value expireOpts => s.set env nodePath dir value expireOpts
  | .update nodePath newValue expireOpts => s.update env nodePath newValue expireOpts
  | .compareAndSwap nodePath prevValue prevIndex value expireOpts =>
    s.compareAndSwap env nodePath prevValue prevIndex value expireOpts
  | .delete nodePath dir recursive => s.delete env nodePath dir recursive
  | .compareAndDelete nodePath prevValue prevIndex =>
    s.compareAndDelete env nodePath prevValue prevIndex

inductive Op where
  | write (w : Write)
  | deleteExpiredKeys (cutoff : Time)
  | watch (key : Bytes) (recursive stream : Bool) (sinceIndex : ℕ)
  | receive (watcher : ℕ)
  | remove (watcher : ℕ)

def Op.apply (env : Env) (s : Store) : Op → Except Panic Store
  | .write w => (w.apply env s).map Prod.fst
  | .deleteExpiredKeys cutoff => s.deleteExpiredKeys env cutoff
  | .watch key recursive stream sinceIndex =>
    (s.watch key recursive stream sinceIndex).map Prod.fst
  | .receive watcher => .ok { s with watcherHub := (s.watcherHub.receive watcher).1 }
  | .remove watcher => do
    let watcherHub ← s.watcherHub.remove watcher
    .ok { s with watcherHub }

def Store.run (s : Store) (ops : List (Env × Op)) : Except Panic Store :=
  ops.foldlM (fun s op => op.2.apply op.1 s) s

end Runs

end EtcdCompat.V2
