import TripleGrammar.Proofs.Assembly

/-!
# Which nodes assembling enters, and in which order

Assembling goes through the ends of the edges and then through the records. A node is entered where
its id comes up for the first time, by its first record. The first id that has no record, or whose
first record carries a default flag that it must not carry, is the error. A draft is assembled from
the records and edges of its calls, so each edge brings records of its ends.
-/

namespace TripleGrammar.Graph

variable {g : Graph} {records : List Node} {edges : List Edge} {ids : List NodeId} {id : NodeId}
  {err : GraphError}

/-- The ids in the order in which assembling enters them: the ends of the edges by first sight, tail
before head, and then the other ids by their first records. -/
def enteredIds (records : List Node) (edges : List Edge) : List NodeId :=
  (endpoints edges).eraseDups ++ ((records.map (·.id)).removeAll (endpoints edges)).eraseDups

lemma enteredIds_eq (records : List Node) (edges : List Edge) :
    enteredIds records edges = (endpoints edges ++ records.map (·.id)).eraseDups :=
  List.eraseDups_append.symm

lemma mem_enteredIds_iff :
    id ∈ enteredIds records edges ↔ id ∈ endpoints edges ++ records.map (·.id) := by
  rw [enteredIds_eq, List.mem_eraseDups]

/-! ### The first id that is refused -/

/-- Leaving out what a search passes over makes no difference to it. -/
lemma findSome?_filter {α β : Type} {f : α → Option β} {p : α → Bool} {l : List α}
    (h : ∀ a ∈ l, p a = false → f a = none) : (l.filter p).findSome? f = l.findSome? f := by
  rw [← List.head?_filterMap, ← List.head?_filterMap, List.filterMap_filter]
  refine congrArg List.head? (List.filterMap_congr fun a ha => ?_)
  cases hp : p a with
  | true => rfl
  | false => exact (h a ha hp).symm

/-- A search finds nothing where it comes to an element again. -/
lemma findSome?_eraseDups {α β : Type} [BEq α] [LawfulBEq α] (f : α → Option β) (l : List α) :
    l.eraseDups.findSome? f = l.findSome? f := by
  induction hn : l.length using Nat.strongRecOn generalizing l with
  | ind n ih =>
    cases l with
    | nil => rfl
    | cons a l =>
      rw [List.eraseDups_cons, List.findSome?_cons, List.findSome?_cons]
      cases ha : f a with
      | some b => rfl
      | none =>
        have hshort : (l.filter fun b => !b == a).length < n :=
          hn ▸ Nat.lt_succ_of_le (List.length_filter_le _ l)
        refine (ih _ hshort _ rfl).trans (findSome?_filter fun b _ hb => ?_)
        obtain rfl : b = a := by simpa using hb
        exact ha

/-- What is refused is refused on the way, if nothing is in the graph that would be refused. -/
lemma exists_run_forM_enterRecorded_error
    (hg : ∀ id, g.contains id = true → refusal? records id = none)
    (h : ids.findSome? (refusal? records) = some err) :
    ∃ g', (ids.forM (enterRecorded records)).run g = .error err g' := by
  induction ids generalizing g with
  | nil => cases h
  | cons id ids ih =>
    rw [List.findSome?_cons] at h
    cases hid : refusal? records id with
    | some err' =>
      rw [hid] at h
      obtain rfl := Option.some.inj h
      have hnew : ¬g.contains id = true := by
        intro hold
        rw [hg id hold] at hid
        cases hid
      exact ⟨g, run_forM_cons_error (run_enterRecorded_of_refusal? hnew hid)⟩
    | none =>
      rw [hid] at h
      obtain ⟨n, hfind, hdefault⟩ := refusal?_eq_none_iff.mp hid
      obtain ⟨-, hn⟩ := of_find?_id hfind
      have hentered : ∀ id', (g.enterNew n).contains id' = true → refusal? records id' = none := by
        intro id' hold
        rw [contains_enterNew, hn, Bool.or_eq_true, beq_iff_eq] at hold
        rcases hold with rfl | hold
        · exact hid
        · exact hg id' hold
      obtain ⟨g', hrun⟩ := ih hentered h
      exact ⟨g', (run_forM_cons (run_enterRecorded hfind hdefault)).trans hrun⟩

lemma ofParts_eq_error (h : (enteredIds records edges).findSome? (refusal? records) = some err) :
    ofParts records edges = .error err := by
  rw [enteredIds_eq, findSome?_eraseDups] at h
  obtain ⟨g, hrun⟩ := exists_run_forM_enterRecorded_error (g := ∅) (fun id hold => by cases hold) h
  unfold ofParts
  rw [assemble_eq, EStateM.run_bind, hrun]

/-! ### The nodes that are entered -/

/-- Nodes that are entered one after the other stand in the order of their first appearance. -/
lemma nodes_foldl_enterNew (hids : ∀ id ∈ ids, id ∈ records.map (·.id)) :
    ((recordsOf records ids).foldl enterNew g).nodes =
      g.nodes ++ recordsOf records (ids.filter fun id => !g.contains id).eraseDups := by
  induction ids generalizing g with
  | nil => simp [recordsOf]
  | cons id ids ih =>
    obtain ⟨n, -, hid, hfind⟩ := exists_record (hids id List.mem_cons_self)
    rw [recordsOf_cons hfind, List.foldl_cons,
      ih fun id' hid' => hids id' (List.mem_cons_of_mem _ hid')]
    by_cases hold : g.contains id = true
    · rw [enterNew_of_contains (hid ▸ hold), List.filter_cons_of_neg (by simp [hold])]
    · have hnew : (ids.filter fun id' => !(g.enter n).contains id') =
          (ids.filter fun id' => !g.contains id').filter fun id' => !id' == id := by
        rw [List.filter_filter]
        exact List.filter_congr fun id' _ => by rw [contains_enter, hid, Bool.not_or]
      rw [enterNew_of_not_contains (by simpa [hid] using hold), nodes_enter, hnew,
        List.filter_cons_of_pos (by simp [hold]), List.eraseDups_cons, recordsOf_cons hfind,
        List.append_assoc]
      rfl

/-- Entering ids that have records enters each of them once, by its first record. -/
lemma ids_recordsOf (hids : ∀ id ∈ ids, id ∈ records.map (·.id)) :
    (recordsOf records ids).map (·.id) = ids := by
  induction ids with
  | nil => rfl
  | cons id ids ih =>
    obtain ⟨n, -, hid, hfind⟩ := exists_record (hids id List.mem_cons_self)
    have hrest := ih fun id' hid' => hids id' (List.mem_cons_of_mem _ hid')
    rw [recordsOf_cons hfind, List.map_cons, hid, hrest]

lemma find?_of_mem_recordsOf {n : Node} (hn : n ∈ recordsOf records ids) :
    records.find? (·.id == n.id) = some n := by
  obtain ⟨id, -, hfind⟩ := List.mem_filterMap.mp hn
  obtain ⟨-, rfl⟩ := of_find?_id hfind
  exact hfind

lemma nodes_entered (hends : ∀ id ∈ endpoints edges, id ∈ records.map (·.id)) :
    (entered records edges).nodes = recordsOf records (enteredIds records edges) := by
  have hids : ∀ id ∈ endpoints edges ++ records.map (·.id), id ∈ records.map (·.id) :=
    fun id hid => (List.mem_append.mp hid).elim (hends id) fun hmem => hmem
  have hall : (endpoints edges ++ records.map (·.id)).filter
      (fun id => !(∅ : Graph).contains id) = endpoints edges ++ records.map (·.id) :=
    List.filter_eq_self.mpr fun _ _ => rfl
  unfold entered
  rw [nodes_foldl_enterNew hids, hall, enteredIds_eq]
  rfl

lemma exists_ofParts_of_entered
    (h : (enteredIds records edges).findSome? (refusal? records) = none) :
    ∃ g, ofParts records edges = .ok g ∧
      g.nodes = recordsOf records (enteredIds records edges) ∧ g.edges = edges := by
  have hids : ∀ id ∈ endpoints edges ++ records.map (·.id), refusal? records id = none :=
    fun id hid => List.findSome?_eq_none_iff.mp h id (mem_enteredIds_iff.mpr hid)
  have hends : ∀ id ∈ endpoints edges, id ∈ records.map (·.id) :=
    fun id hid => mem_ids_of_refusal? (hids id (List.mem_append_left _ hid))
  refine ⟨edges.foldl join (entered records edges), ?_, ?_, edges_foldl_join_entered ?_⟩
  · unfold ofParts
    rw [run_assemble hids]
  · rw [nodes_foldl_join, nodes_entered hends]
  · exact forall_mem_endpoints_iff.mp hends

/-! ### When assembling succeeds -/

lemma ofParts_eq_error_iff : ofParts records edges = .error err ↔
    (enteredIds records edges).findSome? (refusal? records) = some err := by
  refine ⟨fun herr => ?_, ofParts_eq_error⟩
  cases h : (enteredIds records edges).findSome? (refusal? records) with
  | some err' =>
    rw [ofParts_eq_error h] at herr
    rw [Except.error.inj herr]
  | none =>
    obtain ⟨g, hparts, -⟩ := exists_ofParts_of_entered h
    rw [hparts] at herr
    cases herr

lemma exists_ofParts_iff : (∃ g, ofParts records edges = .ok g) ↔
    (enteredIds records edges).findSome? (refusal? records) = none := by
  constructor
  · rintro ⟨g, hparts⟩
    cases h : (enteredIds records edges).findSome? (refusal? records) with
    | none => rfl
    | some err =>
      rw [ofParts_eq_error h] at hparts
      cases hparts
  · intro h
    obtain ⟨g, hparts, -⟩ := exists_ofParts_of_entered h
    exact ⟨g, hparts⟩

lemma nodes_ofParts (h : ofParts records edges = .ok g) :
    g.nodes = recordsOf records (enteredIds records edges) := by
  obtain ⟨g', hparts, hnodes, -⟩ := exists_ofParts_of_entered (exists_ofParts_iff.mp ⟨g, h⟩)
  obtain rfl := Except.ok.inj (h.symm.trans hparts)
  exact hnodes

lemma edges_ofParts (h : ofParts records edges = .ok g) : g.edges = edges := by
  obtain ⟨g', hparts, -, hedges⟩ := exists_ofParts_of_entered (exists_ofParts_iff.mp ⟨g, h⟩)
  obtain rfl := Except.ok.inj (h.symm.trans hparts)
  exact hedges

lemma ids_nodes_ofParts (h : ofParts records edges = .ok g) :
    g.nodes.map (·.id) = enteredIds records edges := by
  have hids := List.findSome?_eq_none_iff.mp (exists_ofParts_iff.mp ⟨g, h⟩)
  rw [nodes_ofParts h, ids_recordsOf fun id hid => mem_ids_of_refusal? (hids id hid)]

lemma refusal?_ne_unknownNode (hid : id ∈ records.map (·.id)) (x : NodeId) :
    refusal? records id ≠ some (.unknownNode x) := by
  obtain ⟨n, -, -, hfind⟩ := exists_record hid
  unfold refusal?
  rw [hfind]
  dsimp only
  split <;> simp

/-- There is a record of each end of an edge, and no first record carries a default flag that it
must not carry. -/
def Fitting (records : List Node) (edges : List Edge) : Prop :=
  (∀ e ∈ edges, e.tail ∈ records.map (·.id) ∧ e.head ∈ records.map (·.id)) ∧
    ∀ n, records.find? (·.id == n.id) = some n → n.isDefault = true → n.domain = .correspondence

lemma fitting_iff : Fitting records edges ↔
    (enteredIds records edges).findSome? (refusal? records) = none := by
  rw [List.findSome?_eq_none_iff]
  constructor
  · rintro ⟨hends, hdefault⟩ id hid
    have hmem : id ∈ records.map (·.id) := by
      rcases List.mem_append.mp (mem_enteredIds_iff.mp hid) with hid | hid
      · exact forall_mem_endpoints_iff.mpr hends id hid
      · exact hid
    obtain ⟨n, -, rfl, hfind⟩ := exists_record hmem
    exact refusal?_eq_none_iff.mpr ⟨n, hfind, hdefault n hfind⟩
  · intro hids
    have hends : ∀ id ∈ endpoints edges, id ∈ records.map (·.id) := fun id hid =>
      mem_ids_of_refusal? (hids id (mem_enteredIds_iff.mpr (List.mem_append_left _ hid)))
    refine ⟨forall_mem_endpoints_iff.mp hends, fun n hfind => ?_⟩
    have hmem : n.id ∈ records.map (·.id) := List.mem_map_of_mem (List.mem_of_find?_eq_some hfind)
    obtain ⟨m, hm, hdefault⟩ := refusal?_eq_none_iff.mp
      (hids n.id (mem_enteredIds_iff.mpr (List.mem_append_right _ hmem)))
    rw [hfind] at hm
    exact Option.some.inj hm ▸ hdefault

/-! ### Drafts -/

namespace Draft

/-- One step in the making of a draft. -/
inductive Call where
  | named (name : String)
  | node (n : Node)
  | edge (tail head : Node) (kind : Option String)

namespace Call

def apply (d : Draft) : Call → Draft
  | named name => d.named name
  | node n => d.node n
  | edge tail head kind => d.edge tail head kind

def name? : Call → Option String
  | named name => some name
  | node _ => none
  | edge _ _ _ => none

/-- The nodes of which the call brings records. -/
def nodes : Call → List Node
  | named _ => []
  | node n => [n]
  | edge tail head _ => [tail, head]

def edge? : Call → Option Edge
  | named _ => none
  | node _ => none
  | edge tail head kind => some { tail := tail.id, head := head.id, kind }

end Call

/-- The draft that comes of these calls. -/
def ofCalls (calls : List Call) : Draft := calls.foldl Call.apply {}

variable {calls : List Call}

lemma foldl_apply (calls : List Call) (d : Draft) : calls.foldl Call.apply d =
    { name := (calls.filterMap Call.name?).getLast?.or d.name
      records := d.records ++ calls.flatMap Call.nodes
      edges := d.edges ++ calls.filterMap Call.edge? } := by
  induction calls generalizing d with
  | nil => simp
  | cons c calls ih =>
    rw [List.foldl_cons, ih]
    cases c with
    | named name => simp [Call.apply, Call.name?, Call.nodes, Call.edge?, Draft.named,
        List.filterMap_cons, List.getLast?_cons]
    | node n => simp [Call.apply, Call.name?, Call.nodes, Call.edge?, Draft.node,
        List.filterMap_cons]
    | edge tail head kind => simp [Call.apply, Call.name?, Call.nodes, Call.edge?, Draft.edge,
        List.filterMap_cons]

lemma ofCalls_eq (calls : List Call) : ofCalls calls =
    { name := (calls.filterMap Call.name?).getLast?
      records := calls.flatMap Call.nodes
      edges := calls.filterMap Call.edge? } := by
  simp [ofCalls, foldl_apply]

/-- Each edge brings records of its ends. -/
lemma mem_records_of_mem_endpoints (calls : List Call) :
    ∀ id ∈ endpoints (calls.filterMap Call.edge?), id ∈ (calls.flatMap Call.nodes).map (·.id) := by
  rw [forall_mem_endpoints_iff]
  intro e he
  obtain ⟨c, hc, hce⟩ := List.mem_filterMap.mp he
  cases c with
  | named name => cases hce
  | node n => cases hce
  | edge tail head kind =>
    obtain rfl := Option.some.inj hce
    have hrecord : ∀ n ∈ [tail, head], n.id ∈ (calls.flatMap Call.nodes).map (·.id) :=
      fun n hn => List.mem_map_of_mem (List.mem_flatMap.mpr ⟨_, hc, hn⟩)
    exact ⟨hrecord tail (by simp), hrecord head (by simp)⟩

lemma build_ofCalls (calls : List Call) : (ofCalls calls).build =
    (ofParts (calls.flatMap Call.nodes) (calls.filterMap Call.edge?)).map
      fun g => { g with name := (calls.filterMap Call.name?).getLast? } := by
  rw [ofCalls_eq]
  unfold build
  cases ofParts (calls.flatMap Call.nodes) (calls.filterMap Call.edge?) <;> rfl

lemma build_ofCalls_ne_unknownNode (calls : List Call) (id : NodeId) :
    (ofCalls calls).build ≠ .error (.unknownNode id) := by
  rw [build_ofCalls]
  cases hparts : ofParts (calls.flatMap Call.nodes) (calls.filterMap Call.edge?) with
  | ok g => exact fun h => by cases h
  | error err =>
    obtain ⟨x, hx, hrefused⟩ :=
      List.exists_of_findSome?_eq_some (ofParts_eq_error_iff.mp hparts)
    have hrecord : x ∈ (calls.flatMap Call.nodes).map (·.id) :=
      (List.mem_append.mp (mem_enteredIds_iff.mp hx)).elim
        (mem_records_of_mem_endpoints calls x) fun hmem => hmem
    intro h
    obtain rfl := Except.error.inj h
    exact refusal?_ne_unknownNode hrecord id hrefused

end Draft

/-- Assembling succeeds exactly if the parts fit. Then it has entered the first record of each id,
the ends of the edges by first sight and the others after them, and it has the edges as they were
given. If it fails, the error is that of the first of these ids that is refused. What comes of calls
on a draft is assembled from their records and edges in order, and no end of an edge is unknown. -/
theorem ofParts_enters (records : List Node) (edges : List Edge) (calls : List Draft.Call) :
    ((∃ g, ofParts records edges = .ok g) ↔ Fitting records edges) ∧
      (∀ g, ofParts records edges = .ok g → g.nodes.map (·.id) = enteredIds records edges ∧
        (∀ n ∈ g.nodes, records.find? (·.id == n.id) = some n) ∧ g.edges = edges) ∧
      (∀ err, ofParts records edges = .error err ↔
        (enteredIds records edges).findSome? (refusal? records) = some err) ∧
      (Draft.ofCalls calls).build =
        (ofParts (calls.flatMap Draft.Call.nodes) (calls.filterMap Draft.Call.edge?)).map
          (fun g => { g with name := (calls.filterMap Draft.Call.name?).getLast? }) ∧
      ∀ id, (Draft.ofCalls calls).build ≠ .error (.unknownNode id) := by
  refine ⟨exists_ofParts_iff.trans fitting_iff.symm, fun g hparts => ?_,
    fun err => ofParts_eq_error_iff, Draft.build_ofCalls calls,
    Draft.build_ofCalls_ne_unknownNode calls⟩
  have hfirst : ∀ n ∈ g.nodes, records.find? (·.id == n.id) = some n := by
    intro n hn
    rw [nodes_ofParts hparts] at hn
    exact find?_of_mem_recordsOf hn
  exact ⟨ids_nodes_ofParts hparts, hfirst, edges_ofParts hparts⟩

/-- A class with two records, a loop and a node that no edge touches. A flag on the second record
does no harm, but with the records the other way round it comes before the missing end of an
edge. -/
theorem ofParts_enters_classes :
    let c : Node := { id := ⟨3⟩, kind := "Class", domain := .source }
    let c' : Node := { id := ⟨3⟩, kind := "Class", domain := .source, isDefault := true }
    let n : Node := { id := ⟨5⟩, kind := "Table", domain := .target }
    let l : Node := { id := ⟨1⟩, kind := "Link", domain := .correspondence, isDefault := true }
    let loop : Edge := { tail := ⟨3⟩, head := ⟨3⟩, kind := some "Uses" }
    let link : Edge := { tail := ⟨1⟩, head := ⟨3⟩ }
    let lost : Edge := { tail := ⟨3⟩, head := ⟨4⟩ }
    (∃ g, ofParts [n, c, l, c'] [link, loop] = .ok g ∧ g.nodes.map (·.id) = [⟨1⟩, ⟨3⟩, ⟨5⟩] ∧
      g.edges = [link, loop]) ∧
      ofParts [n, c, l, c'] [link, lost] = .error (.unknownNode ⟨4⟩) ∧
      ofParts [n, c', l, c] [link, lost] = .error (.defaultOutsideCorrespondence ⟨3⟩) ∧
      (Draft.ofCalls [.edge l c none, .node n]).build ≠ .error (.unknownNode ⟨5⟩) := by
  intro c c' n l loop link lost
  obtain ⟨hok, hentered, -, -, hknown⟩ :=
    ofParts_enters [n, c, l, c'] [link, loop] [.edge l c none, .node n]
  obtain ⟨-, -, herror, -⟩ := ofParts_enters [n, c, l, c'] [link, lost] []
  obtain ⟨-, -, herror', -⟩ := ofParts_enters [n, c', l, c] [link, lost] []
  obtain ⟨g, hg⟩ := hok.mpr (fitting_iff.mpr (by decide +kernel))
  obtain ⟨hids, -, hedges⟩ := hentered g hg
  refine ⟨⟨g, hg, hids.trans (by decide +kernel), hedges⟩, ?_, ?_, hknown _⟩
  · exact (herror _).mpr (by decide +kernel)
  · exact (herror' _).mpr (by decide +kernel)

end TripleGrammar.Graph
