import TripleGrammar.Proofs.HostExtensions
import TripleGrammar.Proofs.FirstMatch

/-!
# What a firing realizes

Before a rule fires, its match binds the context only. The firing binds the created nodes that are
left to new nodes of the host, and draws the created edges that are left. After it the whole rule
embeds in the host, also where it preserves an edge at a created node or creates an edge inside the
domain that is read.
-/

namespace TripleGrammar

namespace Graph

variable {host rule : Graph} {m : Match}

/-- The match binds the nodes of the rule and nothing else, each to a host node of its type and
domain and different ones to different host nodes, and the edges of the rule run along host
edges. -/
structure Realizes (host rule : Graph) (m : Match) : Prop where
  contains_iff : ∀ id, m.contains id = true ↔ rule.contains id = true
  label : ∀ n ∈ rule.nodes, ∃ n' ∈ host.nodes,
    m.get? n.id = some n'.id ∧ n'.kind = n.kind ∧ n'.domain = n.domain
  injective : ∀ a b id, m.get? a = some id → m.get? b = some id → a = b
  edge : ∀ e ∈ rule.edges, ∃ e' ∈ host.edges,
    m.get? e.tail = some e'.tail ∧ m.get? e.head = some e'.head

/-- A match that realizes a rule is a placing of the rule in the host. -/
theorem Realizes.exists_suits (h : host.Realizes rule m) (hrule : rule.WellFormed) :
    ∃ f : host.Placing rule, host.Suits rule f ∧
      ∀ i, m.get? (rule.nodes.get i).id = some (host.nodes.get (f i)).id := by
  have hplace : ∀ i : Fin rule.nodes.length, ∃ j : Fin host.nodes.length,
      m.get? (rule.nodes.get i).id = some (host.nodes.get j).id ∧
        (host.nodes.get j).kind = (rule.nodes.get i).kind ∧
        (host.nodes.get j).domain = (rule.nodes.get i).domain := by
    intro i
    obtain ⟨n', hn', hget, hkind, hdomain⟩ := h.label _ (List.get_mem _ i)
    obtain ⟨j, rfl⟩ := List.get_of_mem hn'
    exact ⟨j, hget, hkind, hdomain⟩
  choose f hget hkind hdomain using hplace
  refine ⟨f, ⟨?_, hkind, hdomain, ?_⟩, hget⟩
  · intro i k hik
    have hk := hget k
    rw [← hik] at hk
    exact hrule.get_id_inj.mp (h.injective _ _ _ (hget i) hk)
  · rintro i k ⟨e, he, ht, hh⟩
    obtain ⟨e', he', htail, hhead⟩ := h.edge e he
    rw [ht, hget i] at htail
    rw [hh, hget k] at hhead
    exact ⟨e', he', (Option.some.inj htail).symm, (Option.some.inj hhead).symm⟩

end Graph

namespace Rule

variable {r : Rule} {d : Domain} {host : Graph} {found bound : Match} {nodes : List Node}
  {edges : List Edge} {k : NodeId}

lemma eq_of_mem_zip {α β : Type} {as : List α} {bs : List β} (hbs : bs.Nodup) {a a' : α} {b : β}
    (ha : (a, b) ∈ as.zip bs) (ha' : (a', b) ∈ as.zip bs) : a = a' := by
  obtain ⟨i, hi, hab⟩ := List.getElem_of_mem ha
  obtain ⟨j, hj, hab'⟩ := List.getElem_of_mem ha'
  rw [List.getElem_zip, Prod.mk.injEq] at hab hab'
  have hij : i = j := (hbs.getElem_inj_iff).mp (hab.2.trans hab'.2.symm)
  subst hij
  exact hab.1.symm.trans hab'.1

lemma mem_ids_of_mem_newTemplates (hk : k ∈ (r.newTemplates d).map (·.id)) :
    k ∈ r.graph.nodes.map (·.id) := by
  obtain ⟨t, ht, rfl⟩ := List.mem_map.mp hk
  exact List.mem_map_of_mem (List.mem_filter.mp (List.mem_filter.mp ht).1).1

/-- Each edge of a rule has to be there before the rule fires or is drawn when it fires. -/
lemma mem_contextEdges_or_mem_newEdges {e : Edge} (he : e ∈ r.graph.edges) :
    e ∈ r.graph.contextEdges d ∨ e ∈ r.newEdges d := by
  by_cases hcontext : e ∈ r.graph.contextEdges d
  · exact Or.inl hcontext
  · rw [Graph.mem_contextEdges_iff, not_and, not_or] at hcontext
    obtain ⟨hpreserve, hinside⟩ := hcontext he
    obtain ⟨action, haction⟩ := Option.isSome_iff_exists.mp (r.tagged.2 e he)
    refine Or.inr (mem_newEdges he ?_ (Bool.eq_false_iff.mpr hinside))
    cases action with
    | create => simp [Edge.hasAction, haction]
    | preserve => simp [Edge.hasAction, haction] at hpreserve

theorem Adds.realizes (h : r.Adds d host found nodes edges bound) (hrule : r.graph.WellFormed)
    (hhost : host.WellFormed) (hfits : host.Fits r.graph d found)
    (hbound : ∀ k id, bound.get? k = some id ↔ found.get? k = some id ∨
      (k, id) ∈ ((r.newTemplates d).map (·.id)).zip (nodes.map (·.id))) :
    (host.extend nodes edges).Realizes r.graph bound := by
  have hnew : ∀ k id, (k, id) ∈ ((r.newTemplates d).map (·.id)).zip (nodes.map (·.id)) →
      host.contains id = false := by
    intro k id hk
    obtain ⟨n, hn, rfl⟩ := List.mem_map.mp (List.of_mem_zip hk).2
    exact h.fresh n hn
  have hold : ∀ k id, found.get? k = some id → host.contains id = true :=
    fun k id hk => contains_of_get? hrule hhost hfits hk
  refine ⟨fun k => ?_, fun n hn => h.exists_node hrule hfits hn, fun a b id ha hb => ?_,
    fun e he => ?_⟩
  · rw [hrule.contains_iff]
    constructor
    · intro hk
      obtain ⟨id, hid⟩ := Option.isSome_iff_exists.mp hk
      rcases (hbound k id).mp hid with hid | hid
      · obtain ⟨n, hn, rfl⟩ := hfits.exists_rule_node hrule hid
        exact List.mem_map_of_mem hn
      · exact mem_ids_of_mem_newTemplates (List.of_mem_zip hid).1
    · intro hk
      exact Option.isSome_iff_exists.mpr (exists_bound hfits h.instances h.keeps hk)
  · -- an id that the host had before and a new one are never the same
    rcases (hbound a id).mp ha with ha | ha <;> rcases (hbound b id).mp hb with hb | hb
    · exact hfits.injective a b id ha hb
    · cases (hold a id ha).symm.trans (hnew b id hb)
    · cases (hold b id hb).symm.trans (hnew a id ha)
    · exact eq_of_mem_zip h.nodup ha hb
  · rw [h.edges_extend]
    rcases @mem_contextEdges_or_mem_newEdges r d e he with hcontext | hcreated
    · obtain ⟨e', he', ht, hh⟩ := hfits.edge e hcontext
      exact ⟨e', List.mem_append_left _ he', h.keeps _ _ ht, h.keeps _ _ hh⟩
    · obtain ⟨e', he', hplace⟩ := exists_right_of_forall₂ h.placed hcreated
      obtain ⟨ht, hh, -, -⟩ := placeEdge_eq_ok_iff.mp hplace
      exact ⟨e', List.mem_append_right _ he', ht, hh⟩

/-- A rule that fires at a match adds a node for each created node outside the context and an edge
for each created edge that does not lie inside the domain, in the order of the rule. The match that
is extended by the new nodes binds the whole rule, which embeds in the host from then on. -/
theorem fire_realizes_rule {S : Strategy} {ids ids' : IdSupply} {f : Firing} {host' : Graph}
    (hS : S.Sound) (hrule : r.graph.WellFormed) (hhost : host.WellFormed)
    (hsearch : (host.searchMatch r.graph d S).found = found) (hfound : found.isEmpty = false)
    (hfire : r.fire found d host ids = (.ok f, host', ids')) :
    ∃ nodes edges bound,
      f = ⟨nodes.length, edges.length⟩ ∧ host'.name = host.name ∧
      host'.nodes = host.nodes ++ nodes ∧ host'.edges = host.edges ++ edges ∧
      nodes.map (·.id) = ids.draws nodes.length ∧
      (∀ k id, bound.get? k = some id ↔ found.get? k = some id ∨
        (k, id) ∈ ((r.newTemplates d).map (·.id)).zip (nodes.map (·.id))) ∧
      List.Forall₂ (fun t n => n.kind = t.kind ∧ n.domain = t.domain ∧
        n.isDefault = t.isDefault ∧ n.action = none) (r.newTemplates d) nodes ∧
      List.Forall₂ (fun e e' => bound.get? e.tail = some e'.tail ∧
        bound.get? e.head = some e'.head ∧ e'.kind = e.kind ∧ e'.action = none)
        (r.newEdges d) edges ∧
      host'.Realizes r.graph bound ∧
      ∃ p : host'.Placing r.graph, host'.Suits r.graph p ∧
        ∀ i, bound.get? (r.graph.nodes.get i).id = some (host'.nodes.get (p i)).id := by
  subst hsearch
  obtain ⟨hfits, -⟩ := Graph.fits_of_searchMatch hS hhost hrule hfound
  obtain ⟨nodes, edges, bound, rfl, rfl, -, hdraws, hadds, hbound⟩ :=
    of_fire_ok hrule hhost hfits hfire
  have hrealizes := hadds.realizes hrule hhost hfits hbound
  refine ⟨nodes, edges, bound, rfl, Graph.name_extend, Graph.nodes_extend, hadds.edges_extend,
    hdraws, hbound, ?_, ?_, hrealizes, hrealizes.exists_suits hrule⟩
  · -- the graph of the rule has the default flag on correspondences only
    have hdefault : ∀ t ∈ r.newTemplates d, t.isDefault = true → t.isCorrespondence = true := by
      intro t ht hflag
      have hmem := (List.mem_filter.mp (List.mem_filter.mp ht).1).1
      simpa [Node.isCorrespondence] using hrule.default_mem t hmem hflag
    obtain ⟨hlength, hzip⟩ := List.forall₂_iff_zip.mp hadds.instances
    refine List.forall₂_iff_zip.mpr ⟨hlength, fun {t n} htn => ?_⟩
    have hinst := hzip htn
    refine ⟨hinst.kind, hinst.domain, ?_, hinst.action⟩
    rw [hinst.isDefault]
    cases hflag : t.isDefault with
    | false => rfl
    | true => simpa using hdefault t (List.of_mem_zip htn).1 hflag
  · exact hadds.placed.imp fun _ _ hplace => placeEdge_eq_ok_iff.mp hplace

/-- An attribute is given a column. The schema is found although the rule creates it, since the edge
from it is preserved, and the note is added although no edge touches it. -/
theorem fire_realizes_rule_columns :
    let create (id : UInt64) (kind : String) (domain : Domain) : Node :=
      { id := ⟨id⟩, kind, domain, action := some .create }
    let preserve (id : UInt64) (kind : String) (domain : Domain) : Node :=
      { id := ⟨id⟩, kind, domain, action := some .preserve }
    let g := (Graph.assemble
      [preserve 0 "Class" .source, preserve 1 "Table" .target, preserve 2 "Link" .correspondence,
        create 3 "Attribute" .source, create 4 "Column" .target, create 5 "Trace" .correspondence,
        create 6 "Schema" .target, create 7 "Note" .target]
      [{ tail := ⟨2⟩, head := ⟨0⟩, action := some .preserve },
        { tail := ⟨2⟩, head := ⟨1⟩, action := some .preserve },
        { tail := ⟨6⟩, head := ⟨1⟩, action := some .preserve },
        { tail := ⟨0⟩, head := ⟨3⟩, action := some .create },
        { tail := ⟨1⟩, head := ⟨4⟩, kind := some "Has", action := some .create },
        { tail := ⟨5⟩, head := ⟨3⟩, action := some .create },
        { tail := ⟨5⟩, head := ⟨4⟩, action := some .create }]).after ∅
    let r : Rule := { name := "Column", graph := g, tagged := by decide +kernel }
    let host := (Graph.assemble
      [{ id := ⟨10⟩, kind := "Class", domain := .source },
        { id := ⟨11⟩, kind := "Attribute", domain := .source },
        { id := ⟨12⟩, kind := "Table", domain := .target },
        { id := ⟨13⟩, kind := "Link", domain := .correspondence },
        { id := ⟨14⟩, kind := "Schema", domain := .target }]
      [{ tail := ⟨10⟩, head := ⟨11⟩ }, { tail := ⟨13⟩, head := ⟨10⟩ },
        { tail := ⟨13⟩, head := ⟨12⟩ }, { tail := ⟨14⟩, head := ⟨12⟩ }]).after ∅
    let found := (host.searchMatch r.graph .source .backtracking).found
    Strategy.backtracking.Sound ∧ r.graph.WellFormed ∧ host.WellFormed ∧ found.isEmpty = false ∧
      ∃ f host' ids' bound, r.fire found .source host { next := ⟨20⟩ } = (.ok f, host', ids') ∧
        host'.Realizes r.graph bound ∧ (host'.nodes.length, host'.edges.length) = (8, 7) := by
  intro create preserve g r host found
  have hg : g.WellFormed := Graph.assemble_keeps_wellFormed _ _ ∅ (Graph.wellFormed_bare none)
  have hrule : r.graph.WellFormed := by
    dsimp only [r]
    exact hg
  have hhost : host.WellFormed :=
    Graph.assemble_keeps_wellFormed _ _ ∅ (Graph.wellFormed_bare none)
  have hsearch : (host.searchMatch r.graph .source .backtracking).found = found := rfl
  have hfound : found.isEmpty = false := by decide +kernel
  have hfires : (r.fire found .source host { next := ⟨20⟩ }).1.toOption.isSome = true ∧
      ((r.fire found .source host { next := ⟨20⟩ }).2.1.nodes.length,
        (r.fire found .source host { next := ⟨20⟩ }).2.1.edges.length) = (8, 7) := by
    decide +kernel
  rcases hfire : r.fire found .source host { next := ⟨20⟩ } with ⟨result, host', ids'⟩
  rw [hfire] at hfires
  obtain ⟨hok, hsize⟩ := hfires
  cases result with
  | error e => cases hok
  | ok f =>
    obtain ⟨-, -, bound, -, -, -, -, -, -, -, -, hrealizes, -⟩ :=
      fire_realizes_rule Strategy.backtracking_sound hrule hhost hsearch hfound hfire
    exact ⟨Strategy.backtracking_sound, hrule, hhost, hfound, f, host', ids', bound, rfl,
      hrealizes, hsize⟩

end Rule

end TripleGrammar
