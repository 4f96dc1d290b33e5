import TripleGrammar.Graph.Signature
import TripleGrammar.Proofs.JsonTexts
import TripleGrammar.Proofs.Renamings

/-!
# What a signature tells

The labels in a signature are sorted by a linear order, and its text can be read back. So the texts
of two signatures are the same exactly if the labels occur equally often on the nodes, and edges of
each type join the nodes of each pair of labels equally often. That much isomorphic graphs have in
common.
-/

namespace TripleGrammar

/-! ### The order of labels -/

section

variable {α β γ δ : Type} [Ord β] [Ord γ] [Ord δ] [Std.LawfulEqOrd β] [Std.LawfulEqOrd γ]
  [Std.LawfulEqOrd δ] {b : α → β} {c : α → γ} {d : α → δ} {x y : α}

/-- In a record that is compared field by field, equal fields compare equal and no others do. -/
lemma eq_of_compareLex
    (h : compareLex (compareOn b) (compareLex (compareOn c) (compareOn d)) x y = .eq) :
    b x = b y ∧ c x = c y ∧ d x = d y := by
  obtain ⟨hb, hrest⟩ := Ordering.then_eq_eq.mp h
  obtain ⟨hc, hd⟩ := Ordering.then_eq_eq.mp hrest
  exact ⟨Std.LawfulEqCmp.eq_of_compare hb, Std.LawfulEqCmp.eq_of_compare hc,
    Std.LawfulEqCmp.eq_of_compare hd⟩

end

instance : Std.TransOrd Domain := inferInstanceAs (Std.TransCmp (compareOn Domain.rank))

lemma Domain.rank_injective : Function.Injective Domain.rank := by
  intro a b h
  cases a <;> cases b <;> cases h <;> rfl

instance : Std.LawfulEqOrd Domain where
  eq_of_compare {a b} h := by
    have hrank : compare a.rank b.rank = .eq := h
    exact Domain.rank_injective (Std.LawfulEqCmp.eq_of_compare hrank)

instance : Std.TransOrd NodeLabel :=
  inferInstanceAs (Std.TransCmp (compareLex (compareOn NodeLabel.domain)
    (compareLex (compareOn NodeLabel.kind) (compareOn NodeLabel.isDefault))))

instance : Std.LawfulEqOrd NodeLabel where
  eq_of_compare {a b} h := by
    obtain ⟨hdomain, hkind, hdefault⟩ := eq_of_compareLex h
    exact NodeLabel.ext hdomain hkind hdefault

instance : Std.TransOrd EdgeLabel :=
  inferInstanceAs (Std.TransCmp (compareLex (compareOn EdgeLabel.tail)
    (compareLex (compareOn EdgeLabel.head) (compareOn EdgeLabel.kind))))

instance : Std.LawfulEqOrd EdgeLabel where
  eq_of_compare {a b} h := by
    obtain ⟨htail, hhead, hkind⟩ := eq_of_compareLex h
    exact EdgeLabel.ext htail hhead hkind

/-- Two lists that are sorted come out the same exactly if they hold the same, equally often. -/
lemma mergeSort_eq_iff_perm {α : Type} [Ord α] [Std.TransOrd α] [Std.LawfulEqOrd α]
    {l l' : List α} :
    l.mergeSort (fun a b => (compare a b).isLE) = l'.mergeSort (fun a b => (compare a b).isLE) ↔
      l.Perm l' := by
  have htrans : ∀ a b c : α, (compare a b).isLE = true → (compare b c).isLE = true →
      (compare a c).isLE = true := fun _ _ _ => Std.TransCmp.isLE_trans
  have htotal : ∀ a b : α, ((compare a b).isLE || (compare b a).isLE) = true := by
    intro a b
    rw [@Std.OrientedCmp.eq_swap α compare _ b a]
    cases compare a b <;> rfl
  constructor
  · intro heq
    have hperm := (List.mergeSort_perm l fun a b => (compare a b).isLE).symm
    rw [heq] at hperm
    exact hperm.trans (List.mergeSort_perm l' _)
  · intro hperm
    refine List.Perm.eq_of_pairwise (fun a b _ _ hab hba => ?_)
      (List.pairwise_mergeSort htrans htotal l) (List.pairwise_mergeSort htrans htotal l')
      ((List.mergeSort_perm l _).trans (hperm.trans (List.mergeSort_perm l' _).symm))
    exact Std.LawfulEqCmp.eq_of_compare (Std.OrientedCmp.isLE_antisymm hab hba)

/-! ### The text of a signature -/

lemma Domain.text_injective : Function.Injective Domain.text := by
  intro a b h
  cases a <;> cases b <;> simp [text] at h ⊢

namespace NodeLabel

lemma written_toJson (l : NodeLabel) : (toJson l).Written :=
  Json.written_ofMembers (List.forall_mem_cons.mpr ⟨Json.written_ofText _,
    List.forall_mem_cons.mpr ⟨Json.written_ofText _,
      List.forall_mem_singleton.mpr (Json.Written.bool _)⟩⟩)

lemma toJson_injective : Function.Injective (toJson : NodeLabel → Json) := by
  intro a b h
  have hmembers := Json.ofMembers_inj.mp h
  simp only [List.cons.injEq, Prod.mk.injEq, true_and, and_true, Json.bool.injEq] at hmembers
  obtain ⟨hdomain, hkind, hdefault⟩ := hmembers
  exact NodeLabel.ext (Domain.text_injective (Json.ofText_inj.mp hdomain))
    (Json.ofText_inj.mp hkind) hdefault

end NodeLabel

namespace EdgeLabel

lemma written_toJson (l : EdgeLabel) : (toJson l).Written := by
  have hkind : ((l.kind.map Json.ofText).getD .null).Written := by
    cases l.kind with
    | none => exact .null
    | some k => exact Json.written_ofText k
  exact .array (List.forall_mem_cons.mpr ⟨l.tail.written_toJson,
    List.forall_mem_cons.mpr ⟨l.head.written_toJson, List.forall_mem_singleton.mpr hkind⟩⟩)

/-- An edge without a type is told from one whose type is the empty text. -/
lemma kind_injective :
    Function.Injective fun k : Option String => (k.map Json.ofText).getD .null := by
  intro k k' h
  cases k with
  | none =>
    cases k' with
    | none => rfl
    | some s => cases h
  | some s =>
    cases k' with
    | none => cases h
    | some s' => exact congrArg some (Json.ofText_inj.mp h)

lemma toJson_injective : Function.Injective (toJson : EdgeLabel → Json) := by
  intro a b h
  have hitems := Json.array.inj h
  simp only [List.cons.injEq, and_true] at hitems
  obtain ⟨htail, hhead, hkind⟩ := hitems
  exact EdgeLabel.ext (NodeLabel.toJson_injective htail) (NodeLabel.toJson_injective hhead)
    (kind_injective hkind)

end EdgeLabel

namespace Signature

variable {s t : Signature}

lemma written_toJson (s : Signature) : (toJson s).Written := by
  refine Json.written_ofMembers (List.forall_mem_cons.mpr ⟨.array fun v hv => ?_,
    List.forall_mem_singleton.mpr (.array fun v hv => ?_)⟩)
  · obtain ⟨l, -, rfl⟩ := List.mem_map.mp hv
    exact l.written_toJson
  · obtain ⟨l, -, rfl⟩ := List.mem_map.mp hv
    exact l.written_toJson

/-- The text of a signature can be read back. -/
theorem canonicalText_inj : canonicalText s = canonicalText t ↔ s = t := by
  refine ⟨fun h => ?_, congrArg canonicalText⟩
  have hmembers :=
    Json.ofMembers_inj.mp (s.written_toJson.eq_of_compact_eq t.written_toJson h)
  simp only [List.cons.injEq, Prod.mk.injEq, true_and, and_true, Json.array.injEq] at hmembers
  obtain ⟨hnodes, hedges⟩ := hmembers
  exact Signature.ext (List.map_injective_iff.mpr NodeLabel.toJson_injective hnodes)
    (List.map_injective_iff.mpr EdgeLabel.toJson_injective hedges)

end Signature

namespace Graph

variable {g h : Graph} {e : Edge} {σ : NodeId → NodeId}

/-! ### The labels of a graph -/

/-- The number of nodes with the label. -/
def labelCount (g : Graph) (l : NodeLabel) : Nat := g.nodes.countP (·.signatureLabel == l)

/-- The number of edges of the type that run from a node with the one label to a node with the
other. -/
def edgeCount (g : Graph) (a b : NodeLabel) (kind : Option String) : Nat :=
  g.edges.countP fun e => e.kind == kind &&
    (g.nodes.any fun n => n.id == e.tail && n.signatureLabel == a) &&
    g.nodes.any fun n => n.id == e.head && n.signatureLabel == b

lemma find?_signatureLabel_iff (hg : g.WellFormed) {id : NodeId} {l : NodeLabel} :
    (g.find? id).map (·.signatureLabel) = some l ↔
      (g.nodes.any fun n => n.id == id && n.signatureLabel == l) = true := by
  rw [Option.map_eq_some_iff, List.any_eq_true]
  simp only [hg.find?_iff, Bool.and_eq_true, beq_iff_eq, and_assoc]

lemma edgeLabel?_eq_some_iff {l : EdgeLabel} : g.edgeLabel? e = some l ↔
    (g.find? e.tail).map (·.signatureLabel) = some l.tail ∧
      (g.find? e.head).map (·.signatureLabel) = some l.head ∧ e.kind = l.kind := by
  unfold edgeLabel?
  cases htail : g.find? e.tail with
  | none => simp
  | some n =>
    cases hhead : g.find? e.head with
    | none => simp
    | some m =>
      simp only [Option.bind_eq_bind, Option.bind_some, Option.pure_def, Option.some.injEq,
        Option.map_some]
      exact EdgeLabel.ext_iff

/-- Every edge of a graph has a label. -/
lemma isSome_edgeLabel? (hg : g.WellFormed) (he : e ∈ g.edges) :
    (g.edgeLabel? e).isSome = true := by
  obtain ⟨n, -, -, htail⟩ := hg.exists_find? (hg.contains_tail he)
  obtain ⟨m, -, -, hhead⟩ := hg.exists_find? (hg.contains_head he)
  unfold edgeLabel?
  rw [htail, hhead]
  rfl

lemma length_edgeLabels (hg : g.WellFormed) :
    (g.edges.filterMap g.edgeLabel?).length = g.edges.length := by
  rw [List.length_filterMap_eq_countP, List.countP_eq_length]
  exact fun e he => isSome_edgeLabel? hg he

lemma count_edgeLabels (hg : g.WellFormed) (l : EdgeLabel) :
    (g.edges.filterMap g.edgeLabel?).count l = g.edgeCount l.tail l.head l.kind := by
  unfold edgeCount
  rw [List.count, List.countP_filterMap]
  apply List.countP_congr
  intro e he
  obtain ⟨b, hb⟩ := Option.isSome_iff_exists.mp (isSome_edgeLabel? hg he)
  have hsome : ((g.edgeLabel? e).map (· == l)).getD false = true ↔ g.edgeLabel? e = some l := by
    rw [hb]
    simp
  rw [hsome, edgeLabel?_eq_some_iff, Bool.and_eq_true, Bool.and_eq_true, beq_iff_eq,
    ← find?_signatureLabel_iff hg, ← find?_signatureLabel_iff hg]
  exact ⟨fun ⟨htail, hhead, hkind⟩ => ⟨⟨hkind, htail⟩, hhead⟩,
    fun ⟨⟨hkind, htail⟩, hhead⟩ => ⟨htail, hhead, hkind⟩⟩

/-- Signatures agree exactly if the labels occur equally often. -/
lemma signature_eq_iff (hg : g.WellFormed) (hh : h.WellFormed) : g.signature = h.signature ↔
    (∀ l, g.labelCount l = h.labelCount l) ∧
      ∀ a b kind, g.edgeCount a b kind = h.edgeCount a b kind := by
  have hlabels : ∀ (g : Graph) l, (g.nodes.map (·.signatureLabel)).count l = g.labelCount l := by
    intro g l
    unfold labelCount
    rw [List.count, List.countP_map]
    rfl
  unfold signature
  rw [Signature.mk.injEq, mergeSort_eq_iff_perm, mergeSort_eq_iff_perm, List.perm_iff_count,
    List.perm_iff_count]
  simp only [hlabels, count_edgeLabels hg, count_edgeLabels hh]
  exact and_congr_right fun _ =>
    ⟨fun hedges a b kind => hedges ⟨a, b, kind⟩, fun hedges l => hedges l.tail l.head l.kind⟩

/-! ### Isomorphic graphs -/

namespace Renames

variable (hσ : g.Renames h σ) (hg : g.WellFormed) (hh : h.WellFormed)
include hσ hg hh

lemma perm_ids : (h.nodes.map fun n => σ n.id).Perm (g.nodes.map (·.id)) := by
  have hmap : h.nodes.map (fun n => σ n.id) = (h.nodes.map (·.id)).map σ := by
    rw [List.map_map]
    rfl
  rw [hmap]
  refine (List.perm_ext_iff_of_nodup (hh.nodup.map_on fun a ha b hb heq => ?_) hg.nodup).mpr
    fun id => ?_
  · exact hσ.bijOn.injOn (List.mem_map.mp ha) (List.mem_map.mp hb) heq
  · simp only [List.mem_map]
    exact Set.ext_iff.mp hσ.bijOn.image_eq id

lemma find?_signatureLabel {id : NodeId} (hid : h.contains id = true) :
    (g.find? (σ id)).map (·.signatureLabel) = (h.find? id).map (·.signatureLabel) := by
  obtain ⟨n, hn, rfl, hfind⟩ := hh.exists_find? hid
  obtain ⟨m, hm, hmid, hkind, hdomain, hdefault⟩ := hσ.label n hn
  rw [hfind, ← hmid, hg.find?_of_mem hm, Option.map_some, Option.map_some]
  exact congrArg some (NodeLabel.ext hdomain hkind hdefault)

lemma perm_signatureLabels :
    (g.nodes.map (·.signatureLabel)).Perm (h.nodes.map (·.signatureLabel)) := by
  let label? (id : NodeId) := (g.find? id).map (·.signatureLabel)
  have hlabels : (g.nodes.map (·.id)).filterMap label? = g.nodes.map (·.signatureLabel) := by
    rw [List.filterMap_map, ← List.filterMap_eq_map]
    refine List.filterMap_congr fun n hn => ?_
    change (g.find? n.id).map _ = _
    rw [hg.find?_of_mem hn]
    rfl
  have hlabels' : (h.nodes.map fun n => σ n.id).filterMap label? =
      h.nodes.map (·.signatureLabel) := by
    rw [List.filterMap_map, ← List.filterMap_eq_map]
    refine List.filterMap_congr fun n hn => ?_
    change (g.find? (σ n.id)).map _ = _
    rw [hσ.find?_signatureLabel hg hh (hh.contains_of_mem hn), hh.find?_of_mem hn]
    rfl
  rw [← hlabels, ← hlabels']
  exact (hσ.perm_ids hg hh).symm.filterMap label?

lemma perm_edgeLabels :
    (g.edges.filterMap g.edgeLabel?).Perm (h.edges.filterMap h.edgeLabel?) := by
  let label? (t : NodeId × NodeId × Option String) := g.edgeLabel? ⟨t.1, t.2.1, t.2.2, none⟩
  have hlabels : (g.edges.map fun e => (e.tail, e.head, e.kind)).filterMap label? =
      g.edges.filterMap g.edgeLabel? := by
    rw [List.filterMap_map]
    rfl
  have hlabels' : (h.edges.map fun e => (σ e.tail, σ e.head, e.kind)).filterMap label? =
      h.edges.filterMap h.edgeLabel? := by
    rw [List.filterMap_map]
    refine List.filterMap_congr fun e he => Option.ext fun l => ?_
    change g.edgeLabel? ⟨σ e.tail, σ e.head, e.kind, none⟩ = some l ↔ _
    rw [edgeLabel?_eq_some_iff, edgeLabel?_eq_some_iff,
      hσ.find?_signatureLabel hg hh (hh.contains_tail he),
      hσ.find?_signatureLabel hg hh (hh.contains_head he)]
  rw [← hlabels, ← hlabels']
  exact hσ.edges.symm.filterMap label?

/-- Isomorphic graphs have the same signature. -/
theorem signature_eq : g.signature = h.signature :=
  Signature.ext (mergeSort_eq_iff_perm.mpr (hσ.perm_signatureLabels hg hh))
    (mergeSort_eq_iff_perm.mpr (hσ.perm_edgeLabels hg hh))

end Renames

/-- The hash of a graph is the digest of the canonical text of its signature. Isomorphic graphs have
the same hash, whether a renaming is known or the test finds one. The texts that are hashed are the
same exactly if the labels occur equally often, and every edge counts, with its type if it has
one. -/
theorem signature_texts_agree (hg : g.WellFormed) (hh : h.WellFormed) :
    g.structureHash = Digest.hex (Digest.ofText (canonicalText g.signature)) ∧
      h.structureHash = Digest.hex (Digest.ofText (canonicalText h.signature)) ∧
      ((∃ σ, g.Renames h σ) → g.structureHash = h.structureHash) ∧
      (g.isIsomorphicTo h = true → g.structureHash = h.structureHash) ∧
      (canonicalText g.signature = canonicalText h.signature ↔
        (∀ l, g.labelCount l = h.labelCount l) ∧
          ∀ a b kind, g.edgeCount a b kind = h.edgeCount a b kind) ∧
      g.signature.edges.length = g.edges.length := by
  have hhash : (∃ σ, g.Renames h σ) → g.structureHash = h.structureHash := by
    rintro ⟨σ, hσ⟩
    exact congrArg canonicalHash (hσ.signature_eq hg hh)
  refine ⟨rfl, rfl, hhash, fun hiso => hhash ((isIsomorphicTo_iff hg hh).mp hiso), ?_, ?_⟩
  · rw [Signature.canonicalText_inj]
    exact signature_eq_iff hg hh
  · exact (List.length_mergeSort _).trans (length_edgeLabels hg)

/-- A queue that triggers a function and is joined to it once more, by an edge without a type. Other
ids and another order give the same hash, but the empty text as the type gives another text. -/
theorem signature_texts_agree_queues :
    let g := (assemble
      [{ id := ⟨1⟩, kind := "Queue", domain := .source },
       { id := ⟨2⟩, kind := "Function", domain := .source }]
      [{ tail := ⟨1⟩, head := ⟨2⟩, kind := some "Triggers" },
       { tail := ⟨1⟩, head := ⟨2⟩ }]).after ∅
    let h := (assemble
      [{ id := ⟨8⟩, kind := "Function", domain := .source },
       { id := ⟨9⟩, kind := "Queue", domain := .source }]
      [{ tail := ⟨9⟩, head := ⟨8⟩ },
       { tail := ⟨9⟩, head := ⟨8⟩, kind := some "Triggers" }]).after ∅
    let k := (assemble
      [{ id := ⟨1⟩, kind := "Queue", domain := .source },
       { id := ⟨2⟩, kind := "Function", domain := .source }]
      [{ tail := ⟨1⟩, head := ⟨2⟩, kind := some "Triggers" },
       { tail := ⟨1⟩, head := ⟨2⟩, kind := some "" }]).after ∅
    g.WellFormed ∧ h.WellFormed ∧ k.WellFormed ∧ g.structureHash = h.structureHash ∧
      canonicalText g.signature = canonicalText h.signature ∧
      canonicalText g.signature ≠ canonicalText k.signature ∧ g.signature.edges.length = 2 := by
  intro g h k
  have hg : g.WellFormed := assemble_keeps_wellFormed _ _ ∅ (wellFormed_bare none)
  have hh : h.WellFormed := assemble_keeps_wellFormed _ _ ∅ (wellFormed_bare none)
  have hk : k.WellFormed := assemble_keeps_wellFormed _ _ ∅ (wellFormed_bare none)
  obtain ⟨-, -, hsame, -, -, hlength⟩ := signature_texts_agree hg hh
  obtain ⟨-, -, -, -, htexts, -⟩ := signature_texts_agree hg hk
  have hiso : ∃ σ, g.Renames h σ := (isIsomorphicTo_iff hg hh).mp (by decide +kernel)
  obtain ⟨σ, hσ⟩ := hiso
  refine ⟨hg, hh, hk, hsame ⟨σ, hσ⟩, ?_, fun htext => ?_, hlength⟩
  · exact congrArg canonicalText (hσ.signature_eq hg hh)
  · have hcount := (htexts.mp htext).2 ⟨.source, "Queue", false⟩ ⟨.source, "Function", false⟩ none
    exact absurd hcount (by decide +kernel)

end Graph

end TripleGrammar
