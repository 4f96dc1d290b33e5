import TripleGrammar.Isomorphism
import TripleGrammar.Proofs.Edits
import TripleGrammar.Proofs.Placings
import Mathlib.Data.List.Perm.Lattice
import Mathlib.Data.Set.Function
import Mathlib.SetTheory.Cardinal.Finite

/-!
# Isomorphism is renaming

The test for isomorphism searches one graph for a placing of the other, after it has compared three
counts. It succeeds exactly if there is a renaming, which is a relation in which neither graph is
the pattern, so isomorphism is an equivalence although the test is not symmetric.
-/

namespace TripleGrammar.Graph

variable {g h k : Graph} {σ τ : NodeId → NodeId} {f : g.Placing h}

/-- `σ` is a bijection from the nodes of `h` to those of `g` that keeps types, domains and default
flags, and it makes the edges of `h` with their types those of `g`, each as often as it occurs. -/
structure Renames (g h : Graph) (σ : NodeId → NodeId) : Prop where
  bijOn : Set.BijOn σ {id | ∃ n ∈ h.nodes, n.id = id} {id | ∃ n ∈ g.nodes, n.id = id}
  label : ∀ n ∈ h.nodes, ∃ m ∈ g.nodes, m.id = σ n.id ∧ m.kind = n.kind ∧
    m.domain = n.domain ∧ m.isDefault = n.isDefault
  edges : (h.edges.map fun e => (σ e.tail, σ e.head, e.kind)).Perm
    (g.edges.map fun e => (e.tail, e.head, e.kind))

/-! ### Renamings form an equivalence -/

namespace Renames

lemma refl (g : Graph) : g.Renames g id :=
  ⟨Set.bijOn_id _, fun n hn => ⟨n, hn, rfl, rfl, rfl, rfl⟩, .refl _⟩

lemma trans (hσ : g.Renames h σ) (hτ : h.Renames k τ) : g.Renames k (σ ∘ τ) := by
  refine ⟨hσ.bijOn.comp hτ.bijOn, fun n hn => ?_, ?_⟩
  · obtain ⟨m, hm, hid, hkind, hdomain, hdefault⟩ := hτ.label n hn
    obtain ⟨l, hl, hid', hkind', hdomain', hdefault'⟩ := hσ.label m hm
    exact ⟨l, hl, by rw [hid', hid]; rfl, hkind'.trans hkind, hdomain'.trans hdomain,
      hdefault'.trans hdefault⟩
  · have hmap := hτ.edges.map fun (a, b, k) => (σ a, σ b, k)
    rw [List.map_map, List.map_map] at hmap
    exact hmap.trans hσ.edges

lemma exists_inverse (hg : g.WellFormed) (hh : h.WellFormed) (hσ : g.Renames h σ) :
    ∃ τ, h.Renames g τ ∧ ∀ id ∈ h.nodes.map (·.id), τ (σ id) = id := by
  have : Nonempty NodeId := ⟨⟨0⟩⟩
  let τ := Function.invFunOn σ {id | ∃ n ∈ h.nodes, n.id = id}
  have hinv : Set.InvOn τ σ {id | ∃ n ∈ h.nodes, n.id = id} {id | ∃ n ∈ g.nodes, n.id = id} :=
    hσ.bijOn.invOn_invFunOn
  have hback : ∀ id ∈ h.nodes.map (·.id), τ (σ id) = id :=
    fun id hid => hinv.1 (List.mem_map.mp hid)
  refine ⟨τ, ⟨hσ.bijOn.symm hinv.symm, fun m hm => ?_, ?_⟩, hback⟩
  · obtain ⟨_, ⟨n, hn, rfl⟩, hid⟩ := hσ.bijOn.surjOn ⟨m, hm, rfl⟩
    obtain ⟨m', hm', hid', hkind, hdomain, hdefault⟩ := hσ.label n hn
    obtain rfl := hg.eq_of_id_eq hm' hm (hid'.trans hid)
    refine ⟨n, hn, ?_, hkind.symm, hdomain.symm, hdefault.symm⟩
    rw [← hid, hback _ (List.mem_map_of_mem hn)]
  · have hmap := hσ.edges.map fun (a, b, k) => (τ a, τ b, k)
    rw [List.map_map, List.map_map] at hmap
    refine hmap.symm.trans (.of_eq (List.map_congr_left fun e he => ?_))
    simp [hback _ (hh.tail_mem e he), hback _ (hh.head_mem e he)]

lemma symm (hg : g.WellFormed) (hh : h.WellFormed) (hσ : g.Renames h σ) :
    ∃ τ, h.Renames g τ := by
  obtain ⟨τ, hτ, -⟩ := hσ.exists_inverse hg hh
  exact ⟨τ, hτ⟩

end Renames

/-! ### Renamings from pairs -/

/-- If two lists agree up to order in what two functions make of them, their elements can be paired
accordingly. -/
lemma exists_pairs_of_perm {α β γ : Type} {as : List α} {bs : List β} {f : α → γ} {f' : β → γ}
    (hperm : (as.map f).Perm (bs.map f')) :
    ∃ l : List (α × β), l.map Prod.fst = as ∧ (l.map Prod.snd).Perm bs ∧
      ∀ p ∈ l, f p.1 = f' p.2 := by
  obtain ⟨bs', hsame, hbs⟩ : ∃ bs' : List β, as.map f = bs'.map f' ∧ bs'.Perm bs := by
    have hcomp := congrFun (congrFun (List.eq_map_comp_perm f') (as.map f)) bs
    exact hcomp.mpr hperm
  have hlength : as.length = bs'.length := by simpa using congrArg List.length hsame
  have hpairs : List.Forall₂ (fun a b => f a = f' b) as bs' := by
    rwa [← List.forall₂_eq_eq_eq, List.forall₂_map_left_iff, List.forall₂_map_right_iff] at hsame
  refine ⟨as.zip bs', List.map_fst_zip hlength.le, ?_, ?_⟩
  · rw [List.map_snd_zip hlength.ge]
    exact hbs
  · rintro ⟨a, b⟩ hp
    exact (List.forall₂_iff_zip.mp hpairs).2 hp

/-- What is said of the elements of a list can be said of their keys, if these tell them apart. -/
lemma exists_function_of_nodup {α κ γ : Type} [Nonempty γ] {l : List α} {f : α → κ}
    (hf : (l.map f).Nodup) (v : α → γ) : ∃ g : κ → γ, ∀ a ∈ l, g (f a) = v a := by
  classical
  refine ⟨fun k => if h : ∃ a ∈ l, f a = k then v h.choose else Classical.arbitrary γ,
    fun a ha => ?_⟩
  have h : ∃ b ∈ l, f b = f a := ⟨a, ha, rfl⟩
  dsimp only
  rw [dif_pos h, List.inj_on_of_nodup_map hf h.choose_spec.1 ha h.choose_spec.2]

/-- A function of ids is a renaming if it makes the nodes and the edges of the one graph those of
the other, up to order. -/
lemma renames_of_perm (hg : g.WellFormed)
    (hnodes : (h.nodes.map fun n => (σ n.id, n.kind, n.domain, n.isDefault)).Perm
      (g.nodes.map fun n => (n.id, n.kind, n.domain, n.isDefault)))
    (hedges : (h.edges.map fun e => (σ e.tail, σ e.head, e.kind)).Perm
      (g.edges.map fun e => (e.tail, e.head, e.kind))) : g.Renames h σ := by
  have hids := hnodes.map Prod.fst
  rw [List.map_map, List.map_map] at hids
  have hinj : (h.nodes.map fun n => σ n.id).Nodup := hids.nodup_iff.mpr hg.nodup
  refine ⟨⟨?_, ?_, ?_⟩, fun n hn => ?_, hedges⟩
  · rintro _ ⟨n, hn, rfl⟩
    exact List.mem_map.mp (hids.mem_iff.mp (List.mem_map.mpr ⟨n, hn, rfl⟩))
  · rintro _ ⟨n, hn, rfl⟩ _ ⟨m, hm, rfl⟩ heq
    rw [List.inj_on_of_nodup_map hinj hn hm heq]
  · rintro _ ⟨m, hm, rfl⟩
    obtain ⟨n, hn, heq⟩ := List.mem_map.mp (hids.mem_iff.mpr (List.mem_map.mpr ⟨m, hm, rfl⟩))
    exact ⟨n.id, ⟨n, hn, rfl⟩, heq⟩
  · obtain ⟨m, hm, heq⟩ :=
      List.mem_map.mp (hnodes.mem_iff.mp (List.mem_map.mpr ⟨n, hn, rfl⟩))
    simp only [Prod.mk.injEq] at heq
    exact ⟨m, hm, heq⟩

/-- Graphs are isomorphic if their nodes and their edges can be paired. -/
lemma exists_renames_of_pairs (hg : g.WellFormed) (hh : h.WellFormed)
    (ns : List (Node × Node)) (es : List (Edge × Edge))
    (hgn : g.nodes.Perm (ns.map Prod.fst)) (hhn : h.nodes.Perm (ns.map Prod.snd))
    (hge : g.edges.Perm (es.map Prod.fst)) (hhe : h.edges.Perm (es.map Prod.snd))
    (hlabel : ∀ p ∈ ns, p.1.kind = p.2.kind ∧ p.1.domain = p.2.domain ∧
      p.1.isDefault = p.2.isDefault)
    (hends : ∀ p ∈ es, p.1.kind = p.2.kind ∧
      (∃ q ∈ ns, q.1.id = p.1.tail ∧ q.2.id = p.2.tail) ∧
      ∃ q ∈ ns, q.1.id = p.1.head ∧ q.2.id = p.2.head) : ∃ σ, g.Renames h σ := by
  have hsnd : (ns.map (·.2.id)).Nodup := by
    have hids := (hhn.map (·.id)).nodup_iff.mp hh.nodup
    rwa [List.map_map] at hids
  have : Nonempty NodeId := ⟨⟨0⟩⟩
  obtain ⟨σ, hσ⟩ := exists_function_of_nodup hsnd (·.1.id)
  refine ⟨σ, renames_of_perm hg ?_ ?_⟩
  · have hsame : (ns.map Prod.snd).map (fun n => (σ n.id, n.kind, n.domain, n.isDefault)) =
        (ns.map Prod.fst).map fun n => (n.id, n.kind, n.domain, n.isDefault) := by
      rw [List.map_map, List.map_map]
      apply List.map_congr_left
      intro p hp
      obtain ⟨hkind, hdomain, hflag⟩ := hlabel p hp
      simp only [Function.comp_apply, hσ p hp, hkind, hdomain, hflag]
    exact (hhn.map _).trans ((List.Perm.of_eq hsame).trans (hgn.map _).symm)
  · have hsame : (es.map Prod.snd).map (fun e => (σ e.tail, σ e.head, e.kind)) =
        (es.map Prod.fst).map fun e => (e.tail, e.head, e.kind) := by
      rw [List.map_map, List.map_map]
      apply List.map_congr_left
      intro p hp
      obtain ⟨hkind, ⟨q, hq, ht, ht'⟩, r, hr, hd, hd'⟩ := hends p hp
      simp only [Function.comp_apply, ← ht', ← hd', hσ q hq, hσ r hr, ht, hd, hkind]
    exact (hhe.map _).trans ((List.Perm.of_eq hsame).trans (hge.map _).symm)

/-! ### Renamings by positions -/

/-- Every placing of one graph in another comes from a function of ids. -/
lemma exists_renaming (hh : h.WellFormed) (f : g.Placing h) :
    ∃ σ : NodeId → NodeId, ∀ i, σ (h.nodes.get i).id = (g.nodes.get (f i)).id := by
  have hinj : Function.Injective fun i => (h.nodes.get i).id := fun i j => hh.get_id_inj.mp
  exact ⟨Function.extend (fun i => (h.nodes.get i).id) (fun i => (g.nodes.get (f i)).id) id,
    hinj.extend_apply _ _⟩

lemma exists_placing (hσ : g.Renames h σ) :
    ∃ f : g.Placing h, ∀ i, σ (h.nodes.get i).id = (g.nodes.get (f i)).id := by
  have hplace : ∀ i, ∃ j, (g.nodes.get j).id = σ (h.nodes.get i).id := by
    intro i
    obtain ⟨m, hm, hid⟩ := hσ.bijOn.mapsTo ⟨_, List.get_mem h.nodes i, rfl⟩
    exact exists_position (List.mem_map.mpr ⟨m, hm, hid⟩)
  choose f hf using hplace
  exact ⟨f, fun i => (hf i).symm⟩

lemma bijOn_iff (hg : g.WellFormed) (hh : h.WellFormed)
    (hσ : ∀ i, σ (h.nodes.get i).id = (g.nodes.get (f i)).id) :
    Set.BijOn σ {id | ∃ n ∈ h.nodes, n.id = id} {id | ∃ n ∈ g.nodes, n.id = id} ↔
      Function.Bijective f := by
  constructor
  · intro hbij
    refine ⟨fun i j hij => ?_, fun j => ?_⟩
    · have hids : σ (h.nodes.get i).id = σ (h.nodes.get j).id := by rw [hσ, hσ, hij]
      exact hh.get_id_inj.mp
        (hbij.injOn ⟨_, List.get_mem _ i, rfl⟩ ⟨_, List.get_mem _ j, rfl⟩ hids)
    · obtain ⟨_, ⟨n, hn, rfl⟩, hid⟩ := hbij.surjOn ⟨_, List.get_mem g.nodes j, rfl⟩
      obtain ⟨i, rfl⟩ := List.get_of_mem hn
      exact ⟨i, hg.get_id_inj.mp ((hσ i).symm.trans hid)⟩
  · intro hf
    refine ⟨?_, ?_, ?_⟩
    · rintro _ ⟨n, hn, rfl⟩
      obtain ⟨i, rfl⟩ := List.get_of_mem hn
      exact ⟨_, List.get_mem _ (f i), (hσ i).symm⟩
    · rintro _ ⟨n, hn, rfl⟩ _ ⟨m, hm, rfl⟩ hid
      obtain ⟨i, rfl⟩ := List.get_of_mem hn
      obtain ⟨j, rfl⟩ := List.get_of_mem hm
      rw [hσ, hσ, hg.get_id_inj] at hid
      rw [hf.injective hid]
    · rintro _ ⟨m, hm, rfl⟩
      obtain ⟨j, rfl⟩ := List.get_of_mem hm
      obtain ⟨i, rfl⟩ := hf.surjective j
      exact ⟨_, ⟨_, List.get_mem _ i, rfl⟩, hσ i⟩

lemma flagsAgree_iff {i : Fin h.nodes.length} {j : Fin g.nodes.length} :
    g.flagsAgree h i j = true ↔ (g.nodes.get j).kind = (h.nodes.get i).kind ∧
      (g.nodes.get j).domain = (h.nodes.get i).domain ∧
      (g.nodes.get j).isDefault = (h.nodes.get i).isDefault := by
  unfold flagsAgree Node.sameLabel
  rw [List.getElem?_eq_getElem i.isLt, List.getElem?_eq_getElem j.isLt]
  simp only [Bool.and_eq_true, beq_iff_eq, List.get_eq_getElem, and_assoc]
  exact and_congr eq_comm (and_congr eq_comm eq_comm)

lemma label_iff (hg : g.WellFormed) (hσ : ∀ i, σ (h.nodes.get i).id = (g.nodes.get (f i)).id) :
    (∀ n ∈ h.nodes, ∃ m ∈ g.nodes, m.id = σ n.id ∧ m.kind = n.kind ∧ m.domain = n.domain ∧
      m.isDefault = n.isDefault) ↔ ∀ i : Fin h.nodes.length, g.flagsAgree h i (f i) = true := by
  simp only [flagsAgree_iff]
  constructor
  · intro hlabel i
    obtain ⟨m, hm, hid, hsame⟩ := hlabel _ (List.get_mem _ i)
    obtain rfl := hg.eq_of_id_eq hm (List.get_mem _ (f i)) (hid.trans (hσ i))
    exact hsame
  · intro hsame n hn
    obtain ⟨i, rfl⟩ := List.get_of_mem hn
    exact ⟨_, List.get_mem _ (f i), (hσ i).symm, hsame i⟩

/-! ### Edges by positions -/

lemma placedShapes_ofPlacing (hg : g.WellFormed) (hh : h.WellFormed)
    (hσ : ∀ i, σ (h.nodes.get i).id = (g.nodes.get (f i)).id) :
    h.placedShapes (BitMatrix.ofPlacing f) =
      h.edges.map fun e => (g.indexOf? (σ e.tail), g.indexOf? (σ e.head), e.kind) := by
  have hplace : ∀ id ∈ h.nodes.map (·.id),
      (h.indexOf? id).bind (placeOf (BitMatrix.ofPlacing f)) = g.indexOf? (σ id) := by
    intro id hid
    obtain ⟨i, rfl⟩ := exists_position hid
    rw [hσ, hh.indexOf?_iff.mpr (idAt?_eq_get i), hg.indexOf?_iff.mpr (idAt?_eq_get (f i))]
    unfold placeOf
    simp [BitMatrix.rowOnes_ofPlacing]
  unfold placedShapes edgeShapes
  rw [List.map_map]
  apply List.map_congr_left
  intro e he
  simp only [Function.comp_apply, hplace _ (hh.tail_mem e he), hplace _ (hh.head_mem e he)]

lemma perm_shapes_iff (hg : g.WellFormed) (hh : h.WellFormed)
    (hσ : ∀ i, σ (h.nodes.get i).id = (g.nodes.get (f i)).id) :
    (h.placedShapes (BitMatrix.ofPlacing f)).Perm g.edgeShapes ↔
      (h.edges.map fun e => (σ e.tail, σ e.head, e.kind)).Perm
        (g.edges.map fun e => (e.tail, e.head, e.kind)) := by
  rw [placedShapes_ofPlacing hg hh hσ]
  constructor
  · intro hperm
    -- positions are read back as ids
    have hmap := hperm.map fun t => (t.1.bind g.idAt?, t.2.1.bind g.idAt?, t.2.2)
    have hread : ∀ id ∈ g.nodes.map (·.id), (g.indexOf? id).bind g.idAt? = some id := by
      intro id hid
      obtain ⟨i, rfl⟩ := exists_position hid
      rw [hg.indexOf?_iff.mpr (idAt?_eq_get i)]
      exact idAt?_eq_get i
    have hreadσ : ∀ id ∈ h.nodes.map (·.id), (g.indexOf? (σ id)).bind g.idAt? = some (σ id) := by
      intro id hid
      obtain ⟨i, rfl⟩ := exists_position hid
      rw [hσ]
      exact hread _ (List.mem_map_of_mem (List.get_mem _ _))
    have hinj : Function.Injective fun t : NodeId × NodeId × Option String =>
        (some t.1, some t.2.1, t.2.2) := by
      rintro ⟨a, b, k⟩ ⟨a', b', k'⟩ heq
      simpa using heq
    rw [← List.map_perm_map_iff hinj, List.map_map, List.map_map]
    unfold edgeShapes at hmap
    rw [List.map_map, List.map_map] at hmap
    refine (List.Perm.of_eq (List.map_congr_left fun e he => ?_)).trans
      (hmap.trans (.of_eq (List.map_congr_left fun e he => ?_)))
    · simp [hreadσ _ (hh.tail_mem e he), hreadσ _ (hh.head_mem e he)]
    · simp [hread _ (hg.tail_mem e he), hread _ (hg.head_mem e he)]
  · intro hperm
    have hmap := hperm.map fun t => (g.indexOf? t.1, g.indexOf? t.2.1, t.2.2)
    rwa [List.map_map, List.map_map] at hmap

lemma renames_iff (hg : g.WellFormed) (hh : h.WellFormed)
    (hσ : ∀ i, σ (h.nodes.get i).id = (g.nodes.get (f i)).id) :
    g.Renames h σ ↔ Function.Bijective f ∧
      (∀ i : Fin h.nodes.length, g.flagsAgree h i (f i) = true) ∧
      (h.placedShapes (BitMatrix.ofPlacing f)).Perm g.edgeShapes := by
  rw [← bijOn_iff hg hh hσ, ← label_iff hg hσ, perm_shapes_iff hg hh hσ]
  exact ⟨fun hr => ⟨hr.bijOn, hr.label, hr.edges⟩, fun hr => ⟨hr.1, hr.2.1, hr.2.2⟩⟩

/-! ### Counts -/

lemma WellFormed.count_adjacency (hg : g.WellFormed) : g.adjacency.count =
    Nat.card {p : Fin g.nodes.length × Fin g.nodes.length // g.Adjacent p.1 p.2} := by
  have hlt : ∀ p ∈ g.adjacency.ones, p.1 < g.nodes.length ∧ p.2 < g.nodes.length := by
    intro p hp
    have hget := BitMatrix.lt_of_get (BitMatrix.mem_ones.mp hp)
    rwa [hg.rows_eq, hg.cols_eq] at hget
  let cells : {p // p ∈ g.adjacency.ones.toFinset} ≃
      {p : Fin g.nodes.length × Fin g.nodes.length // g.Adjacent p.1 p.2} :=
    { toFun := fun p =>
        have hp := List.mem_toFinset.mp p.2
        ⟨(⟨p.1.1, (hlt _ hp).1⟩, ⟨p.1.2, (hlt _ hp).2⟩),
          hg.get_adjacency_iff.mp (BitMatrix.mem_ones.mp hp)⟩
      invFun := fun p => ⟨(p.1.1, p.1.2),
        List.mem_toFinset.mpr (BitMatrix.mem_ones.mpr (hg.get_adjacency_iff.mpr p.2))⟩
      left_inv := fun _ => rfl
      right_inv := fun _ => rfl }
  rw [BitMatrix.count_eq_length_ones hg.cells_eq, ← Nat.card_congr cells, Nat.card_eq_fintype_card,
    Fintype.card_coe, List.toFinset_card_of_nodup BitMatrix.nodup_ones]

lemma Renames.adjacent_iff (hh : h.WellFormed) (hr : g.Renames h σ)
    (hσ : ∀ i, σ (h.nodes.get i).id = (g.nodes.get (f i)).id) {i j : Fin h.nodes.length} :
    h.Adjacent i j ↔ g.Adjacent (f i) (f j) := by
  have hmem : ∀ a b k, (a, b, k) ∈ h.edges.map (fun e => (σ e.tail, σ e.head, e.kind)) ↔
      (a, b, k) ∈ g.edges.map fun e => (e.tail, e.head, e.kind) :=
    fun a b k => hr.edges.mem_iff
  constructor
  · rintro ⟨e, he, ht, hd⟩
    obtain ⟨e', he', heq⟩ := List.mem_map.mp ((hmem _ _ _).mp (List.mem_map_of_mem he))
    obtain ⟨ht', hd', -⟩ : e'.tail = σ e.tail ∧ e'.head = σ e.head ∧ e'.kind = e.kind := by
      simpa using heq
    exact ⟨e', he', by rw [ht', ht, hσ], by rw [hd', hd, hσ]⟩
  · rintro ⟨e', he', ht', hd'⟩
    obtain ⟨e, he, heq⟩ := List.mem_map.mp ((hmem _ _ _).mpr (List.mem_map_of_mem he'))
    obtain ⟨ht, hd, -⟩ : σ e.tail = e'.tail ∧ σ e.head = e'.head ∧ e.kind = e'.kind := by
      simpa using heq
    have hinj : ∀ id ∈ h.nodes.map (·.id), ∀ i, σ id = (g.nodes.get (f i)).id →
        id = (h.nodes.get i).id := by
      intro id hid i heq
      rw [← hσ] at heq
      exact hr.bijOn.injOn (List.mem_map.mp hid) ⟨_, List.get_mem _ i, rfl⟩ heq
    exact ⟨e, he, hinj _ (hh.tail_mem e he) i (ht.trans ht'),
      hinj _ (hh.head_mem e he) j (hd.trans hd')⟩

/-! ### The test -/

/-- The assignment brings the nodes and edges of `h` onto those of `g`. -/
def brings (g h : Graph) (m : BitMatrix) : Bool :=
  (m.ones.all fun (i, j) => g.flagsAgree h i j) && (h.placedShapes m).isPerm g.edgeShapes

lemma value_visitEach_considerRenaming (ms : List BitMatrix) :
    (visitEach (g.considerRenaming h) ms false).value = ms.any (g.brings h) := by
  induction ms with
  | nil => rfl
  | cons m ms ih =>
    unfold visitEach
    by_cases hm : g.brings h m = true
    · have hvisit : g.considerRenaming h m false = .done true := if_pos hm
      rw [hvisit, List.any_cons, hm]
      rfl
    · have hvisit : g.considerRenaming h m false = .yield false := if_neg hm
      rw [hvisit, List.any_cons, Bool.eq_false_iff.mpr hm]
      exact ih

lemma brings_ofPlacing_iff : g.brings h (BitMatrix.ofPlacing f) = true ↔
    (∀ i : Fin h.nodes.length, g.flagsAgree h i (f i) = true) ∧
      (h.placedShapes (BitMatrix.ofPlacing f)).Perm g.edgeShapes := by
  unfold brings
  rw [BitMatrix.ones_ofPlacing, Bool.and_eq_true, List.isPerm_iff]
  simp [placedPairs]

lemma isIsomorphicTo_iff (hg : g.WellFormed) (hh : h.WellFormed) :
    g.isIsomorphicTo h = true ↔ ∃ σ, g.Renames h σ := by
  obtain ⟨fs, hfs, -, heq⟩ := exists_placings hg hh (g.flagsAgree h)
  unfold isIsomorphicTo
  rw [Strategy.search_eq, heq, value_visitEach_considerRenaming]
  simp only [Bool.and_eq_true, beq_iff_eq, List.any_map, List.any_eq_true, Function.comp_apply,
    brings_ofPlacing_iff, and_assoc]
  constructor
  · rintro ⟨hnodes, -, -, f, hf, hbrings⟩
    have hinj := ((hfs f).mp hf).1
    have hbij : Function.Bijective f :=
      (Fintype.bijective_iff_injective_and_card f).mpr ⟨hinj, by simp [hnodes]⟩
    obtain ⟨σ, hσ⟩ := exists_renaming hh f
    exact ⟨σ, (renames_iff hg hh hσ).mpr ⟨hbij, hbrings⟩⟩
  · rintro ⟨σ, hr⟩
    obtain ⟨f, hσ⟩ := exists_placing hr
    obtain ⟨hbij, hbrings⟩ := (renames_iff hg hh hσ).mp hr
    let e := Equiv.ofBijective f hbij
    let pairs : {p : Fin h.nodes.length × Fin h.nodes.length // h.Adjacent p.1 p.2} ≃
        {p : Fin g.nodes.length × Fin g.nodes.length // g.Adjacent p.1 p.2} :=
      (e.prodCongr e).subtypeEquiv fun _ => hr.adjacent_iff hh hσ
    refine ⟨?_, ?_, ?_, f, (hfs f).mpr ⟨hbij.injective, ?_, hbrings.1⟩, hbrings⟩
    · simpa using (Fintype.card_congr e).symm
    · simpa using hr.edges.length_eq.symm
    · rw [hg.count_adjacency, hh.count_adjacency, Nat.card_congr pairs]
    · exact fun i j => (hr.adjacent_iff hh hσ).mp

/-- The test succeeds exactly if there is a renaming, so it is an equivalence. -/
theorem isIsomorphicTo_equivalence (hg : g.WellFormed) (hh : h.WellFormed) (hk : k.WellFormed) :
    (g.isIsomorphicTo h = true ↔ ∃ σ, g.Renames h σ) ∧ g.isIsomorphicTo g = true ∧
      g.isIsomorphicTo h = h.isIsomorphicTo g ∧
      (g.isIsomorphicTo h = true → h.isIsomorphicTo k = true → g.isIsomorphicTo k = true) := by
  refine ⟨isIsomorphicTo_iff hg hh, ?_, ?_, ?_⟩
  · exact (isIsomorphicTo_iff hg hg).mpr ⟨id, Renames.refl g⟩
  · rw [Bool.eq_iff_iff, isIsomorphicTo_iff hg hh, isIsomorphicTo_iff hh hg]
    exact ⟨fun ⟨_, hr⟩ => hr.symm hg hh, fun ⟨_, hr⟩ => hr.symm hh hg⟩
  · rw [isIsomorphicTo_iff hg hh, isIsomorphicTo_iff hh hk, isIsomorphicTo_iff hg hk]
    rintro ⟨σ, hσ⟩ ⟨τ, hτ⟩
    exact ⟨σ ∘ τ, hσ.trans hτ⟩

/-- Two nodes with two edges between them, of which one has no type: neither the ids nor the order
of the edges nor the name matters. -/
theorem isIsomorphicTo_equivalence_parallel :
    let g := (assemble
      [{ id := ⟨1⟩, kind := "Class", domain := .source },
       { id := ⟨2⟩, kind := "Class", domain := .source }]
      [{ tail := ⟨1⟩, head := ⟨2⟩, kind := some "Uses" }, { tail := ⟨1⟩, head := ⟨2⟩ }]).after ∅
    let h := (assemble
      [{ id := ⟨4⟩, kind := "Class", domain := .source },
       { id := ⟨3⟩, kind := "Class", domain := .source }]
      [{ tail := ⟨4⟩, head := ⟨3⟩ }, { tail := ⟨4⟩, head := ⟨3⟩, kind := some "Uses" }]).after ∅
    g.WellFormed ∧ h.WellFormed ∧ (h.named "Model").WellFormed ∧ (∃ σ, g.Renames h σ) ∧
      h.isIsomorphicTo g = true ∧ g.isIsomorphicTo (h.named "Model") = true := by
  intro g h
  have hg : g.WellFormed := assemble_keeps_wellFormed _ _ ∅ (wellFormed_bare none)
  have hh : h.WellFormed := assemble_keeps_wellFormed _ _ ∅ (wellFormed_bare none)
  have hk : (h.named "Model").WellFormed := hh.renamed (some "Model")
  have hgh : g.isIsomorphicTo h = true := by decide +kernel
  have hhk : h.isIsomorphicTo (h.named "Model") = true := by decide +kernel
  obtain ⟨hiff, -, hsymm, htrans⟩ := isIsomorphicTo_equivalence hg hh hk
  exact ⟨hg, hh, hk, hiff.mp hgh, hsymm ▸ hgh, htrans hgh hhk⟩

end TripleGrammar.Graph
