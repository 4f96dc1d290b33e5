import TripleGrammar.Proofs.Parts
import TripleGrammar.Proofs.Runs
import TripleGrammar.Proofs.Edits
import TripleGrammar.Readable
import TripleGrammar.Rule.Draft

/-!
# The graphs that can arise

Every graph comes from the empty one, from records or from a text by changes in place, by taking
parts, or by firing rules on it. All of them are well formed, although several of the operations
build their result without the checks of a single change.
-/

namespace TripleGrammar

/-! ### Firing keeps hosts well formed -/

namespace Rule

variable {r : Rule} {found : Match} {d : Domain} {host : Graph} {ids : IdSupply}

lemma linkEdge_keeps_wellFormed (created : Graph) (found : Match) (d : Domain) (e : Edge) :
    (linkEdge created found d e).Keeps Graph.WellFormed := by
  unfold linkEdge
  refine Graph.keeps_bind (Graph.keeps_ofExcept _) fun tail => ?_
  refine Graph.keeps_bind (Graph.keeps_ofExcept _) fun head => ?_
  split
  · exact Graph.keeps_pure _
  · refine Graph.keeps_bind (Graph.keeps_ofExcept _) fun placed => ?_
    exact Graph.keeps_bind (Graph.addEdge_keeps_wellFormed placed) fun _ => Graph.keeps_pure _

lemma install_keeps_wellFormed (r : Rule) (nodes : List Node) (found : Match) (d : Domain) :
    (r.install nodes found d).Keeps Graph.WellFormed := by
  unfold install
  refine Graph.keeps_bind (Graph.keeps_forM fun n _ => Graph.addNode_keeps_wellFormed n) fun _ => ?_
  refine Graph.keeps_bind (Graph.keeps_foldlM (fun count e _ => ?_) 0) fun _ => Graph.keeps_pure _
  exact Graph.keeps_bind (linkEdge_keeps_wellFormed _ found d e) fun _ => Graph.keeps_pure _

/-- Firing leaves a well-formed host, at any match and also if it fails. -/
theorem wellFormed_fire (hhost : host.WellFormed) : (r.fire found d host ids).2.1.WellFormed := by
  unfold fire
  split
  · exact hhost
  next nodes found' ids' _ =>
    have hafter := install_keeps_wellFormed r nodes found' d host hhost
    unfold Graph.Edit.after at hafter
    split
    next f host' hrun =>
      rw [hrun] at hafter
      exact hafter
    next e host' hrun =>
      rw [hrun] at hafter
      exact hafter

lemma graph_of_ofGraph {name : String} {g : Graph} (h : ofGraph name g = .ok r) :
    r.graph = { g with name := g.name <|> some name } := by
  unfold ofGraph at h
  split at h
  · obtain rfl := Except.ok.inj h
    rfl
  · cases h

lemma exists_ofGraph_of_build {draft : Draft} (h : draft.build = .ok r) :
    ∃ records edges g, Graph.ofParts records edges = .ok g ∧ ofGraph draft.name g = .ok r := by
  unfold Draft.build at h
  cases hedges : draft.edges.mapM draft.resolveEdge with
  | error e =>
    rw [hedges] at h
    cases h
  | ok edges =>
    rw [hedges] at h
    simp only [bind, Except.bind] at h
    split at h
    next g hg => exact ⟨draft.nodes, edges, g, hg, h⟩
    next => cases h

end Rule

namespace Grammar

lemma wellFormed_firings (G : Grammar) (d : Domain) : G.FiringsKeep d Graph.WellFormed := by
  intro r _ p q result hp htries
  have hfire : (r.fire (G.nextMatch d r p) d p.host p.ids).2.1.WellFormed :=
    Rule.wellFormed_fire hp
  rw [htries.fire] at hfire
  exact hfire

end Grammar

namespace Graph

variable {g : Graph}

lemma wellFormed_of_prune {d : Domain} {pruned : Pruned} (h : g.prune d = .ok pruned) :
    pruned.graph.WellFormed := by
  unfold prune at h
  cases hpartners : g.partners with
  | error e =>
    rw [hpartners] at h
    cases h
  | ok partners =>
    rw [hpartners] at h
    simp only [bind, Except.bind] at h
    split at h
    next kept hkept =>
      cases h
      exact (wellFormed_of_ofParts hkept).renamed g.name
    next => cases h

lemma wellFormed_of_readGraph {text : String} (h : readGraph text = .ok g) : g.WellFormed := by
  unfold readGraph at h
  split at h
  · cases h
  · split at h
    · cases h
    · split at h
      · cases h
      next draft hbuild =>
        split at h
        · cases h
          exact wellFormed_of_build ‹_›
        · cases h

/-- The graphs that can arise. A change that fails leaves a graph too, and so does a firing. -/
inductive Reachable : Graph → Prop where
  | empty : Reachable ∅
  | named {g : Graph} (name : String) (h : Reachable g) : Reachable (g.named name)
  | ofParts {records : List Node} {edges : List Edge} {g : Graph}
      (h : ofParts records edges = .ok g) : Reachable g
  | built {draft : Draft} {g : Graph} (h : draft.build = .ok g) : Reachable g
  | read {text : String} {g : Graph} (h : readGraph text = .ok g) : Reachable g
  | nodeAdded {g : Graph} (n : Node) (h : Reachable g) : Reachable ((addNode n).after g)
  | edgeAdded {g : Graph} (e : Edge) (h : Reachable g) : Reachable ((addEdge e).after g)
  | reversed {g : Graph} (h : Reachable g) : Reachable g.reverse
  | projected {g : Graph} (d : Domain) (h : Reachable g) : Reachable (g.project d)
  | context {g : Graph} (d : Domain) (h : Reachable g) : Reachable (g.context d)
  | creator {g : Graph} (h : Reachable g) : Reachable g.creator
  | pruned {g : Graph} {d : Domain} {p : Pruned} (h : Reachable g) (hp : g.prune d = .ok p) :
      Reachable p.graph
  | fired {g : Graph} (r : Rule) (found : Match) (d : Domain) (ids : IdSupply)
      (h : Reachable g) : Reachable (r.fire found d g ids).2.1

lemma Reachable.wellFormed (h : g.Reachable) : g.WellFormed := by
  induction h with
  | empty => exact wellFormed_bare none
  | named name _ ih => exact ih.renamed (some name)
  | ofParts h => exact wellFormed_of_ofParts h
  | built h => exact wellFormed_of_build h
  | read h => exact wellFormed_of_readGraph h
  | nodeAdded n _ ih => exact addNode_keeps_wellFormed n _ ih
  | edgeAdded e _ ih => exact addEdge_keeps_wellFormed e _ ih
  | reversed _ ih => exact ih.reverse
  | projected d _ ih => exact (isPart_project ih d).wellFormed
  | context d _ ih => exact (isPart_context ih d).wellFormed
  | creator _ ih => exact (isPart_creator ih).wellFormed
  | pruned _ hp _ => exact wellFormed_of_prune hp
  | fired r found d ids _ ih => exact Rule.wellFormed_fire ih

lemma Reachable.ofGraph {name : String} {r : Rule} (h : g.Reachable)
    (hr : Rule.ofGraph name g = .ok r) : r.graph.Reachable := by
  rw [Rule.graph_of_ofGraph hr]
  cases hname : g.name with
  | none => exact h.named name
  | some old =>
    have hsame : ({ g with name := some old } : Graph) = g := by rw [← hname]
    exact hsame ▸ h

lemma Reachable.draft {draft : Rule.Draft} {r : Rule} (h : draft.build = .ok r) :
    r.graph.Reachable := by
  obtain ⟨records, edges, g, hg, hr⟩ := Rule.exists_ofGraph_of_build h
  exact (Reachable.ofParts hg).ofGraph hr

/-- A derivation leaves a host that can arise, at its end and if it fails, and returns one. -/
theorem Reachable.derive {G : Grammar} {reads writes : Domain} {fuel : Nat} {ids : IdSupply}
    {o : Outcome} (hg : g.Reachable) (h : G.derive reads writes fuel g ids = some o) :
    o.host.Reachable ∧ ∀ t, o.result = .ok t → t.graph.Reachable := by
  obtain ⟨ending, q, hrun, hhost, hgraph⟩ := Grammar.exists_run_of_derive h
  have hfirings : G.FiringsKeep reads Reachable := by
    intro r _ p q result hp htries
    have hfire := hp.fired r (G.nextMatch reads r p) reads p.ids
    rw [htries.fire] at hfire
    exact hfire
  have hq : q.host.Reachable := Grammar.run_keeps hfirings hg hrun
  refine ⟨hhost ▸ hq, fun t ht => ?_⟩
  rcases hgraph t ht with heq | ⟨pruned, hpruned, heq⟩
  · exact heq ▸ hq
  · exact heq ▸ hq.pruned hpruned

lemma eq_of_addNode_error {g' : Graph} {n : Node} {err : GraphError}
    (h : (addNode n).run g = .error err g') : g' = g := by
  rw [run_addNode] at h
  split at h
  · cases h
    rfl
  · cases h

lemma eq_of_addEdge_error {g' : Graph} {e : Edge} {err : GraphError}
    (h : (addEdge e).run g = .error err g') : g' = g := by
  rw [run_addEdge] at h
  split at h
  · split at h
    · cases h
    · cases h
      rfl
  · cases h
    rfl

/-- Every graph that can arise is well formed, and a change that fails leaves it as it was. -/
theorem reachable_graphs_wellFormed (h : g.Reachable) :
    g.WellFormed ∧
      (∀ n err g', (addNode n).run g = .error err g' → g' = g) ∧
      ∀ e err g', (addEdge e).run g = .error err g' → g' = g :=
  ⟨h.wellFormed, fun _ _ _ => eq_of_addNode_error, fun _ _ _ => eq_of_addEdge_error⟩

/-- A loop at a source node, reversed. -/
theorem reachable_graphs_wellFormed_loop :
    let n : Node := { id := ⟨7⟩, kind := "Class", domain := .source }
    let e : Edge := { tail := ⟨7⟩, head := ⟨7⟩ }
    let g := ((addEdge e).after ((addNode n).after ∅)).reverse
    g.Reachable ∧ g.WellFormed ∧ g.nodes = [n] ∧ g.edges = [e] := by
  intro n e g
  have hg : g.Reachable := ((Reachable.empty.nodeAdded n).edgeAdded e).reversed
  exact ⟨hg, (reachable_graphs_wellFormed hg).1, by decide +kernel, by decide +kernel⟩

end Graph

end TripleGrammar
