import Gewodsys.Lai.Hash
import Gewodsys.Lai.Exec

/-!
# The namespace (`lai/core/ns.c`)

* `NsItem`, `Instance` : the nodes, and the table of all of them; a node is named by the order of its creation, the root
  is node 0;
* `laiInstallNsnode`, `laiUninstallNsnode`, `laiNsGetChild`;
* `laiDoResolve`, `laiDoResolveNewNode`, `laiResolveSearch`, `laiResolvePath`, `laiStringifyNodePath` : names of nodes;
* `Instance.namespace` : the namespace that the interpreter sees.
-/

namespace Gewodsys.Lai
open Gewodsys.Machine

/-- `type`, with what the node then has. -/
inductive NsType
  | root
  | aliasOf (target : Nat)
  | object (node : NsNode)

def NsType.isAlias : NsType → Bool
  | .aliasOf _ => true
  | _ => false

def NsType.isRoot : NsType → Bool
  | .root => true
  | _ => false

/-- `lai_nsnode_t` -/
structure NsItem where
  name : Seg
  type : NsType
  parent : Option Nat
  children : Hashtable Nat

/-- `struct lai_instance`: the nodes that were created, and `ns_array`. -/
structure Instance where
  count : Nat
  node : Nat → NsItem
  nsArray : List (Option Nat)

def Instance.setChildren (s : Instance) (p : Nat) (children : Hashtable Nat) : Instance :=
  { s with node := Function.update s.node p { s.node p with children := children } }

/-- `lai_create_nsnode`, and what the caller writes to the node. -/
def Instance.create (s : Instance) (name : Seg) (type : NsType) (parent : Nat) : Instance :=
  { s with
    count := s.count + 1
    node := Function.update s.node s.count ⟨name, type, some parent, .zero Nat⟩ }

/-- `\___` -/
def rootName : Seg := ⟨0x5C, 0x5F, 0x5F, 0x5F⟩

/-- The root, before anything is installed. -/
def Instance.root : Instance := ⟨1, fun _ => ⟨rootName, .root, none, .zero Nat⟩, []⟩

/-- `lai_hash_string` -/
def laiHashString (name : Seg) : HashCode :=
  name.bytes.foldl (fun x c => (x <<< 5) + x + c.signExtend 32) 5381

/-! ## Installing -/

/-- An error leaves the node in `ns_array`. -/
def laiInstallNsnode (node : Nat) (s : Instance) : Except Failure (Option ApiError × Instance) := do
  let s := { s with nsArray := s.nsArray ++ [some node] }
  match (s.node node).parent with
  | none => return (none, s)
  | some parent =>
      let name := (s.node node).name
      match ← searchChain (fun child => (s.node child).name = name) (laiHashString name) (s.node parent).children with
      | some _ => return (some .unexpectedResult, s)
      | none =>
          let children ← laiHashtableInsert (laiHashString name) node (s.node parent).children
          return (none, s.setChildren parent children)

def laiUninstallNsnode (node : Nat) (s : Instance) : Except Failure Instance := do
  let s := { s with nsArray := s.nsArray.map fun x => if x = some node then none else x }
  match (s.node node).parent with
  | none => return s
  | some parent =>
      let h := laiHashString (s.node node).name
      match ← searchChain (· = node) h (s.node parent).children with
      | none => .error .panic
      | some (i, _) =>
          let children ← laiHashtableChainRemove h i (s.node parent).children
          -- the sanity check: the rest of the chain
          match ← chainSearch (· = node) h children (children.bucketCapacity + 1) (i + 1) with
          | some _ => .error .panic
          | none => return s.setChildren parent children

def laiNsGetChild (parent : Nat) (name : Seg) (s : Instance) : Except Failure (Option Nat) := do
  match ← searchChain (fun child => (s.node child).name = name) (laiHashString name) (s.node parent).children with
  | some (_, child) => return some child
  | none => return none

/-! ## Resolving -/

/-- The node, or what it is an alias of. -/
def followAlias (s : Instance) (node : Nat) : Except Failure Nat :=
  match (s.node node).type with
  | .aliasOf target => if (s.node target).type.isAlias then .error .panic else .ok target
  | _ => .ok node

/-- `while (current->parent) current = current->parent;`: a parent is created before its children. -/
def climb (s : Instance) : Nat → Nat → Nat
  | 0, current => current
  | n + 1, current =>
      match (s.node current).parent with
      | none => current
      | some parent => climb s n parent

def climbToRoot (s : Instance) (current : Nat) : Except Failure Nat :=
  let top := climb s s.count current
  if (s.node top).type.isRoot then .ok top else .error .panic

/-- `height` times to the parent. -/
def climbBy (s : Instance) : Nat → Nat → Except Failure Nat
  | 0, current => .ok current
  | n + 1, current =>
      match (s.node current).parent with
      | none => if (s.node current).type.isRoot then .ok current else .error .panic
      | some parent => climbBy s n parent

/-- The loop over the segments of a name. -/
def descend (s : Instance) : List Seg → Nat → Except Failure (Option Nat)
  | [], current => .ok (some current)
  | segment :: segs, current => do
      match ← laiNsGetChild current segment s with
      | none => return none
      | some child => descend s segs child

/-- The loop of `lai_resolve_search`, over the scopes. -/
def searchScopes (s : Instance) (segment : Seg) : Nat → Nat → Except Failure (Option Nat)
  | 0, _ => .ok none
  | n + 1, current => do
      match ← laiNsGetChild current segment s with
      | some node => return some (← followAlias s node)
      | none =>
          match (s.node current).parent with
          | none => return none
          | some parent => searchScopes s segment n parent

def laiResolveSearch (ctxHandle : Nat) (segment : Seg) (s : Instance) : Except Failure (Option Nat) :=
  if (s.node ctxHandle).type.isAlias then .error .panic else searchScopes s segment (s.count + 1) ctxHandle

/-- Where the segments of a name start. -/
def startNode (s : Instance) (ctxHandle : Nat) (amln : AmlName) : Except Failure Nat := do
  if (s.node ctxHandle).type.isAlias then .error .panic else
  let current ← if amln.isAbsolute then climbToRoot s ctxHandle else .ok ctxHandle
  climbBy s amln.height current

def laiDoResolve (ctxHandle : Nat) (amln : AmlName) (s : Instance) : Except Failure (Option Nat) := do
  if amln.searchScopes then
    match amln.segs with
    | [segment] => laiResolveSearch ctxHandle segment s
    | _ => .error .panic
  else
    let current ← startNode s ctxHandle amln
    match amln.segs with
    | [] => return some current
    | segs =>
        match ← descend s segs current with
        | none => return none
        | some node => return some (← followAlias s node)

/-- The parent and the name of a new node, from where its name starts. -/
def descendNew (s : Instance) : List Seg → Nat → Except Failure (Nat × Seg)
  | [], _ => .error .panic
  | [segment], parent => .ok (parent, segment)
  | segment :: segs, parent => do
      match ← laiNsGetChild parent segment s with
      | none => .error .panic
      | some child => descendNew s segs (← followAlias s child)

def laiDoResolveNewNode (ctxHandle : Nat) (amln : AmlName) (s : Instance) : Except Failure (Nat × Seg) := do
  let parent ← startNode s ctxHandle amln
  descendNew s amln.segs parent

/-! ## Paths -/

def dot : Byte := 0x2E

/-- The names up to the root, each behind a dot. -/
def pathBytes (s : Instance) : Nat → Nat → List Byte → List Byte
  | 0, _, str => str
  | n + 1, current, str =>
      match (s.node current).parent with
      | none => str
      | some parent => pathBytes s n parent (dot :: (s.node current).name.bytes ++ str)

def laiStringifyNodePath (node : Nat) (s : Instance) : Except Failure (List Byte) :=
  match (s.node node).parent with
  | none => if (s.node node).type.isRoot then .ok [rootChar] else .error .panic
  -- the first dot is overwritten
  | some _ => .ok (rootChar :: (pathBytes s s.count node []).tail)

/-- A segment of a path: up to four characters of a name, and what is behind them. -/
def readSegment (path : List Byte) : Seg × List Byte :=
  let chars := (path.take 4).takeWhile laiIsName
  (⟨chars.getD 0 0x5F, chars.getD 1 0x5F, chars.getD 2 0x5F, chars.getD 3 0x5F⟩, path.drop chars.length)

/-- The loop of `lai_resolve_path`. A turn takes at least a dot. -/
def resolveLoop (s : Instance) : Nat → Nat → List Byte → Except Failure (Option Nat)
  | 0, _, _ => .error .panic
  | n + 1, current, path => do
      let (segment, path) := readSegment path
      match ← laiNsGetChild current segment s with
      | none => return none
      | some child =>
          let current ← followAlias s child
          match path with
          | [] => return some current
          | c :: path => if c = dot then resolveLoop s n current path else .error .panic

/-- `ctx_handle` is `none` for the root. A path is a string without its end. -/
def laiResolvePath (ctxHandle : Option Nat) (path : List Byte) (s : Instance) : Except Failure (Option Nat) := do
  let current := ctxHandle.getD 0
  let (current, path) ←
    match path with
    | c :: rest =>
        if c = rootChar then do
          let top ← climbToRoot s current
          pure (top, rest)
        else do
          let (height, rest) := skipParents path
          let top ← climbBy s height current
          pure (top, rest)
    | [] => pure (current, [])
  if path = [] then return some current
  resolveLoop s (path.length + 1) current path

/-- What the interpreter sees of the nodes. -/
def Instance.namespace (s : Instance) : Namespace Nat where
  laiDoResolve h amln := laiDoResolve h amln s
  node h :=
    match (s.node h).type with
    | .object node => node
    | _ => .other

end Gewodsys.Lai
