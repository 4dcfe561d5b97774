/-
  Workflows.Graph.Plan — the order in which the nodes of a definition can run.

  A definition has a plan when its node ids are distinct, its connections join nodes that are
  there and do not go round in a circle. The plan lists the nodes so that every connection
  points forward, always taking the smallest id that is free to come next, and keeps for each
  node the distinct nodes before and after it.
-/
import Workflows.Failure
namespace Workflows

/-- For each node the distinct ids at the other ends of its connections, ascending. -/
abbrev Adjacency := Keyed NameSet

def Adjacency.at (g : Adjacency) (id : String) : NameSet := (Keyed.get? g id).getD []

/-- Adds `value` to the names kept under `key`. -/
def Adjacency.add (g : Adjacency) (key value : String) : Adjacency :=
  Keyed.insert g key ((g.at key).insert value)

/-- How many nodes and edges there are. -/
def Adjacency.size (g : Adjacency) : Nat := g.foldl (fun n (_, ids) => n + ids.length + 1) 0

structure Plan where
  /-- Every node, each after the nodes it depends on. -/
  order : List String
  /-- The nodes with no connection into them, ascending. -/
  roots : List String
  /-- For each node the nodes that feed it. -/
  producers : Adjacency
  /-- For each node the nodes that it feeds. -/
  consumers : Adjacency
deriving DecidableEq

/-- Why a definition has no plan. -/
inductive PlanError where
  | duplicateNode (id : String)
  | unknownNode (connection node : String)
  | cycle (nodes : List String)
deriving DecidableEq, Repr

def PlanError.toFailure : PlanError → Failure
  | .duplicateNode id => .planning s!"Duplicate node id '{id}'"
  | .unknownNode c n => .planning s!"Connection '{c}' references unknown node '{n}'"
  | .cycle nodes => .cycle nodes

namespace Plan

/-! ## The graph of a definition -/

/-- The nodes, or the first id that comes twice. -/
def distinctIds : (seen : List String) → List Node → Except PlanError (List String)
  | seen, [] => .ok seen
  | seen, n :: rest =>
    if seen.contains n.id then .error (.duplicateNode n.id) else distinctIds (n.id :: seen) rest

/-- The first end of a connection that is no node. -/
def strayEnd? (ids : List String) (c : Connection) : Option String :=
  if !ids.contains c.source then some c.source
  else if !ids.contains c.target then some c.target
  else none

def checkEnds (ids : List String) (cs : List Connection) : Except PlanError Unit :=
  match cs.findSome? fun c => (strayEnd? ids c).map fun n => PlanError.unknownNode c.id n with
  | some e => .error e
  | none => .ok ()

/-- A graph with the nodes and nothing between them. -/
def bare (nodes : List Node) : Adjacency := nodes.foldl (fun g n => Keyed.insert g n.id []) []

def consumersOf (d : Definition) : Adjacency :=
  d.connections.foldl (fun g c => g.add c.source c.target) (bare d.nodes)

def producersOf (d : Definition) : Adjacency :=
  d.connections.foldl (fun g c => g.add c.target c.source) (bare d.nodes)

/-! ## Cycles -/

/-- What a search has learned: the nodes it has entered, or a cycle. -/
inductive Search where
  | clear (visited : List String)
  | cycle (nodes : List String)

/-- Walks from a node along connections in ascending order; `path` leads to the node, last
first. A node that is met while it is on the path closes a cycle. `fuel` bounds the length of
a path (the number of nodes suffices). -/
def visit (g : Adjacency) : (fuel : Nat) → (path visited : List String) → String → Search
  | 0, _, visited, _ => .clear visited
  | fuel + 1, path, visited, id =>
    (g.at id).foldl (fun search n =>
      match search with
      | .cycle nodes => .cycle nodes
      | .clear visited =>
        if (id :: path).contains n then
          .cycle (((id :: path).takeWhile (· ≠ n) ++ [n]).reverse)
        else if visited.contains n then .clear visited
        else visit g fuel (id :: path) visited n) (.clear (id :: visited))

/-- The first cycle met by a search from each node in ascending order. -/
def findCycle? (g : Adjacency) : Option (List String) :=
  go [] (Keyed.keys g)
where
  go (visited : List String) : List String → Option (List String)
    | [] => none
    | id :: rest =>
      if visited.contains id then go visited rest
      else
        match visit g g.length [] visited id with
        | .clear visited => go visited rest
        | .cycle nodes => some nodes

/-! ## The order -/

/-- Takes one producer off the count of each consumer; also those that have none left. -/
def releaseAll (counts : Keyed Nat) (ready : NameSet) (consumers : List String) :
    Keyed Nat × NameSet :=
  consumers.foldl (fun (counts, ready) id =>
    match Keyed.get? counts id with
    | none => (counts, ready)
    | some n =>
      (Keyed.insert counts id (n - 1), if n - 1 = 0 then NameSet.insert ready id else ready))
    (counts, ready)

/-- Takes the smallest ready node, then frees its consumers. -/
def takeReady (down : Adjacency) : (fuel : Nat) → (counts : Keyed Nat) → (ready : NameSet) →
    List String
  | 0, _, _ => []
  | _ + 1, _, [] => []
  | fuel + 1, counts, id :: ready =>
    let (counts, ready) := releaseAll counts ready (down.at id)
    id :: takeReady down fuel counts ready

def rootsOf (up : Adjacency) : List String :=
  (up.filter fun (_, producers) => producers.isEmpty).map (·.1)

def orderOf (up down : Adjacency) : List String :=
  takeReady down up.length (Keyed.mapValues List.length up) (rootsOf up)

/-- The plan of a definition. -/
def ofDefinition (d : Definition) : Except PlanError Plan := do
  let ids ← distinctIds [] d.nodes
  checkEnds ids d.connections
  let up := producersOf d
  let down := consumersOf d
  match findCycle? down with
  | some nodes => throw (.cycle nodes)
  | none => return ⟨orderOf up down, rootsOf up, up, down⟩

/-! ## Asking a plan -/

/-- The distinct nodes that feed a node. -/
def dependencies (p : Plan) (id : String) : List String := p.producers.at id

/-- The distinct nodes that a node feeds. -/
def dependents (p : Plan) (id : String) : List String := p.consumers.at id

def toJson (p : Plan) : Json :=
  .object [("order", .ofStrings p.order), ("roots", .ofStrings p.roots)]

def position? (p : Plan) (id : String) : Option Nat := p.order.findIdx? (· == id)

/-- Follows connections until no new node is met; `fuel` bounds the nodes and connections. -/
def closure (g : Adjacency) : (fuel : Nat) → (seen : NameSet) → (stack : List String) → NameSet
  | 0, seen, _ => seen
  | _ + 1, seen, [] => seen
  | fuel + 1, seen, id :: stack =>
    if seen.contains id then closure g fuel seen stack
    else closure g fuel (seen.insert id) (g.at id ++ stack)

/-- Every node reached from a node by one or more connections, ascending. -/
def allDependents (p : Plan) (id : String) : NameSet :=
  closure p.consumers (p.consumers.size + 1) [] (p.dependents id)

end Plan
end Workflows
