import TripleGrammar.Canonical
import TripleGrammar.Matching
import TripleGrammar.Pruning

/-!
# Derivations

A grammar is a list of rules in order of priority. A derivation reads one domain of a host and
writes another: in each pass the first rule that has a match and adds something there fires, and the
next pass starts again from the first rule. A pass in which no rule fires ends the derivation.

Whether it ends at all depends on the rules, so a run is given a number of passes that it may take
and has no outcome if it needs more.
-/

namespace TripleGrammar

/-- Rules in order of priority, with what governs their use. -/
structure Grammar where
  rules : List Rule
  policy : Policy := {}
  /-- The strategy of the search with the given number, counted from zero over the whole run. -/
  strategy : Nat → Strategy := fun _ => .backtracking

/-- How many nodes and edges a rule added when it fired. -/
structure Firing where
  nodes : Nat
  edges : Nat

def Firing.isEmpty (f : Firing) : Bool := f.nodes == 0 && f.edges == 0

namespace Rule

/-- New nodes for the templates that the match does not bind, and the match extended by them. An id
that the host has already is an error. -/
def instantiate (host : Graph) :
    List Node → Match → IdSupply → Except GraphError (List Node × Match) × IdSupply
  | [], found, ids => (.ok ([], found), ids)
  | template :: rest, found, ids =>
    if found.contains template.id then instantiate host rest found ids
    else
      -- the id stays taken even if firing fails further on
      let (n, ids) := ids.instantiate template
      if host.contains n.id then (.error (.duplicateNode n.id), ids)
      else
        match instantiate host rest (found.insert template.id n.id) ids with
        | (.ok (ns, found), ids) => (.ok (n :: ns, found), ids)
        | (.error e, ids) => (.error e, ids)

def placeEdge (found : Match) (e : Edge) : Except GraphError Edge :=
  match found.get? e.tail, found.get? e.head with
  | some tail, some head => .ok { tail, head, kind := e.kind }
  | none, _ => .error (.unknownNode e.tail)
  | _, none => .error (.unknownNode e.head)

/-- Adds a created edge to the host, unless it is part of the context read from `d`. Returns the
number of edges added. -/
def linkEdge (created : Graph) (found : Match) (d : Domain) (e : Edge) : Graph.Edit Nat := do
  let tail ← ofExcept (created.node e.tail)
  let head ← ofExcept (created.node e.head)
  if tail.domain == d && head.domain == d then return 0
  else
    Graph.addEdge (← ofExcept (placeEdge found e))
    return 1

/-- Adds the new nodes to the host, and then the created edges by the extended match. -/
def install (r : Rule) (nodes : List Node) (found : Match) (d : Domain) : Graph.Edit Firing := do
  nodes.forM Graph.addNode
  let created := r.graph.creator
  let edges ← created.edges.foldlM
    (fun count e => return count + (← linkEdge created found d e)) 0
  return { nodes := nodes.length, edges }

/-- Adds what the rule creates to the host, at a match read from `d`. The host and the ids are
returned as the firing leaves them, also if it fails. -/
def fire (r : Rule) (found : Match) (d : Domain) (host : Graph) (ids : IdSupply) :
    Except GraphError Firing × Graph × IdSupply :=
  -- all ids are drawn and checked before the host is touched
  match instantiate host r.graph.creationNodes found ids with
  | (.error e, ids) => (.error e, host, ids)
  | (.ok (nodes, found), ids) =>
    match (r.install nodes found d).run host with
    | .ok f host => (.ok f, host, ids)
    | .error e host => (.error e, host, ids)

end Rule

/-- How far a derivation has come. -/
structure Progress where
  host : Graph
  ids : IdSupply
  /-- The number of passes begun. -/
  passes : Nat := 0
  /-- How often the rules of each name have fired. -/
  firings : SortedMap String Nat := ∅
  /-- The number of searches for a match. -/
  searches : Nat := 0
  events : Array Event := #[]

namespace Progress

def beginPass (p : Progress) : Progress := { p with passes := p.passes + 1 }

def searched (p : Progress) (r : Rule) (s : MatchSearch) : Progress :=
  { p with
    searches := p.searches + 1
    events := p.events ++ (s.events r.graph.name).toArray }

def fired (p : Progress) (r : Rule) (f : Firing) : Progress :=
  { p with
    firings := p.firings.insert r.name ((p.firings.get? r.name).getD 0 + 1)
    events := p.events.push (.ruleFired r.name p.passes f.nodes f.edges) }

end Progress

/-- How the passes over the rules come to an end. -/
inductive Ending where
  /-- No rule applies any more. -/
  | settled
  | failed (error : GraphError)
deriving DecidableEq

/-- What comes of trying a rule. -/
inductive Attempt where
  /-- The rule has no match, or nothing to add there. -/
  | idle (p : Progress)
  | fired (found : Match) (p : Progress)
  | failed (error : GraphError) (p : Progress)

inductive Pass where
  /-- A rule fired at a match. -/
  | fired (r : Rule) (found : Match) (p : Progress)
  | ended (ending : Ending) (p : Progress)

/-- How far the derivation has come with the pass. -/
def Pass.progress : Pass → Progress
  | .fired _ _ p => p
  | .ended _ p => p

/-- What a derivation comes to if it succeeds. -/
structure Derivation where
  reads : Domain
  writes : Domain
  graph : Graph
  /-- The number of passes over the rules, that in which none fired included. -/
  passes : Nat
  /-- How often the rules of each name fired. -/
  firings : SortedMap String Nat
  policyHash : String

def Derivation.totalFirings (t : Derivation) : Nat := t.firings.values.foldl (· + ·) 0

instance : Canonical Derivation where
  toJson t := .ofMembers
    [("from", toJson t.reads), ("to", toJson t.writes), ("graph", toJson t.graph),
     ("passes", .ofNat t.passes),
     ("firings", .ofMembers (t.firings.toList.map fun (name, n) => (name, .ofNat n))),
     ("policy_hash", .ofText t.policyHash)]

/-- The end of a derivation: its result, and the host and the ids as it leaves them. A derivation
that fails leaves the host as the firings before the failure made it. -/
structure Outcome where
  result : Except DerivationError Derivation
  host : Graph
  ids : IdSupply
  events : Array Event

namespace Grammar

/-- Searches the host for a match of the rule and fires it there. -/
def attempt (G : Grammar) (d : Domain) (r : Rule) (p : Progress) : Attempt :=
  if !r.hasCreation then .idle p
  else
    let search := p.host.searchMatch r.graph d (G.strategy p.searches)
    let p := p.searched r search
    if search.found.isEmpty then .idle p
    else
      match r.fire search.found d p.host p.ids with
      | (.error e, host, ids) => .failed e { p with host, ids }
      | (.ok f, host, ids) =>
        let p := { p with host, ids }
        -- a firing that adds nothing does not count
        if f.isEmpty then .idle p else .fired search.found (p.fired r f)

/-- Goes through the rules until one fires. -/
def pass (G : Grammar) (d : Domain) : List Rule → Progress → Pass
  | [], p => .ended .settled p
  | r :: rules, p =>
    match G.attempt d r p with
    | .idle p => pass G d rules p
    | .fired found p => .fired r found p
    | .failed e p => .ended (.failed e) p

/-- Passes over the rules until none fires or one fails, at most `fuel` times. -/
def run (G : Grammar) (d : Domain) : Nat → Progress → Option (Ending × Progress)
  | 0, _ => none
  | fuel + 1, p =>
    match pass G d G.rules p.beginPass with
    | .fired _ _ p => run G d fuel p
    | .ended ending p => some (ending, p)

/-- The graph that a derivation returns, with the events on the way. -/
def output (G : Grammar) (host : Graph) (writes : Domain) :
    Except DerivationError (Graph × List Event) :=
  if G.policy.prune then do
    let p ← host.prune writes
    return (p.graph, [p.event writes])
  else .ok (host, [])

def finish (G : Grammar) (reads writes : Domain) (p : Progress) : Outcome :=
  match G.output p.host writes with
  | .error e => { result := .error e, host := p.host, ids := p.ids, events := p.events }
  | .ok (graph, events) =>
    let t : Derivation :=
      { reads, writes, graph, passes := p.passes, firings := p.firings,
        policyHash := canonicalHash G.policy }
    let ending := Event.settled G.policy.version reads writes t.passes t.totalFirings
      p.host.nodes.length graph.nodes.length graph.edges.length
    { result := .ok t, host := p.host, ids := p.ids,
      events := p.events ++ events.toArray ++ #[ending] }

/-- Fires rules on the host, read from `reads`, until none applies, and returns the part that
belongs to `writes`. There is no outcome if that takes more than `fuel` passes. -/
def derive (G : Grammar) (reads writes : Domain) (fuel : Nat) (host : Graph) (ids : IdSupply) :
    Option Outcome :=
  match G.run reads fuel { host, ids } with
  | none => none
  | some (.failed e, p) =>
    some { result := .error (.graph e), host := p.host, ids := p.ids, events := p.events }
  | some (.settled, p) => some (G.finish reads writes p)

/-- Derives the target graph from the source graph. -/
def forward (G : Grammar) : Nat → Graph → IdSupply → Option Outcome := G.derive .source .target

/-- Derives the source graph from the target graph. -/
def backward (G : Grammar) : Nat → Graph → IdSupply → Option Outcome := G.derive .target .source

end Grammar

end TripleGrammar
