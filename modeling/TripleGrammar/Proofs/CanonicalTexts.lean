import TripleGrammar.Canonical
import TripleGrammar.Proofs.JsonRecords
import TripleGrammar.Readable
import TripleGrammar.SortedMap.Lemmas

/-!
# Canonical texts are read back

What a canonical text leaves out is what a reader fills in, and ids are read back as they are
written, as numbers or as keys. So every value is read back from its canonical text, and no two
values of a kind share one.
-/

namespace TripleGrammar

section

variable {α : Type} [Canonical α] [Readable α] {a b : α}

/-- The JSON form of the value can be written, and the value is read from it. -/
structure Lossless (a : α) : Prop where
  written : (toJson a).Written
  ofJson?_toJson : ofJson? (toJson a) = some a

namespace Lossless

theorem readText?_canonicalText (h : Lossless a) : readText? (canonicalText a) = some a := by
  unfold readText? canonicalText
  rw [h.written.parse?_compact]
  exact h.ofJson?_toJson

theorem eq_of_canonicalText_eq (ha : Lossless a) (hb : Lossless b)
    (h : canonicalText a = canonicalText b) : a = b := by
  have hread := ha.readText?_canonicalText
  rw [h, hb.readText?_canonicalText] at hread
  exact (Option.some.inj hread).symm

end Lossless

end

lemma written_optionalField {α : Type} {key : String} {a : Option α} {form : α → Json}
    (h : ∀ a, (form a).Written) : ∀ m ∈ optionalField key a form, m.2.Written := by
  cases a with
  | none => exact fun _ hm => by cases hm
  | some a => exact List.forall_mem_singleton.mpr (h a)

lemma nullable?_text (s : String) : Json.nullable? Json.text? (Json.ofText s) = some (some s) :=
  Json.nullable?_ofText (Json.text?_ofText s)

/-! ### The parts of a node -/

lemma NodeId.lossless (id : NodeId) : Lossless id where
  written := Json.written_ofNat _
  ofJson?_toJson := by
    have hword : (Json.ofNat id.raw.toNat).word? = some id.raw := by
      rw [Json.word?_ofNat id.raw.toNat_lt_size, UInt64.ofNat_toNat]
    exact congrArg (Option.map NodeId.mk) hword

lemma Domain.lossless (d : Domain) : Lossless d where
  written := Json.written_ofText _
  ofJson?_toJson := (Json.oneOf?_ofText _ _).trans (by cases d <;> decide)

lemma Action.lossless (a : Action) : Lossless a where
  written := Json.written_ofText _
  ofJson?_toJson := (Json.oneOf?_ofText _ _).trans (by cases a <;> decide)

lemma nullable?_action (a : Action) : Json.nullable? ofJson? (toJson a) = some (some a) :=
  Json.nullable?_ofText a.lossless.ofJson?_toJson

/-! ### The kinds of values -/

lemma Node.lossless (n : Node) : Lossless n where
  written := by
    refine Json.written_ofMembers (List.forall_mem_append.mpr
      ⟨List.forall_mem_append.mpr ⟨?_, written_optionalField fun a => a.lossless.written⟩, ?_⟩)
    · exact List.forall_mem_cons.mpr ⟨n.id.lossless.written, List.forall_mem_cons.mpr
        ⟨Json.written_ofText _, List.forall_mem_singleton.mpr n.domain.lossless.written⟩⟩
    · intro m hm
      obtain ⟨-, hm⟩ := List.mem_ite_nil_right.mp hm
      rw [List.mem_singleton.mp hm]
      exact .bool true
  ofJson?_toJson := by
    obtain ⟨id, kind, domain, action, isDefault⟩ := n
    have hid := id.lossless.ofJson?_toJson
    have hkind := Json.text?_ofText kind
    have hdomain := domain.lossless.ofJson?_toJson
    unfold instReadableNode instCanonicalNode optionalField
    dsimp only
    -- which fields there are depends on the action and the flag, but their names are told apart
    rw [Json.fields?_ofMembers (by cases action <;> cases isDefault <;> simp)
      (by cases action <;> cases isDefault <;> simp)]
    cases action <;> cases isDefault <;>
      simp [Json.required?, Json.optional?, Json.bool?, List.lookup_cons, hid, hkind, hdomain,
        nullable?_action]

lemma Edge.lossless (e : Edge) : Lossless e where
  written := by
    refine Json.written_ofMembers (List.forall_mem_append.mpr
      ⟨List.forall_mem_append.mpr ⟨?_, written_optionalField Json.written_ofText⟩,
        written_optionalField fun a => a.lossless.written⟩)
    exact List.forall_mem_cons.mpr
      ⟨e.tail.lossless.written, List.forall_mem_singleton.mpr e.head.lossless.written⟩
  ofJson?_toJson := by
    obtain ⟨tail, head, kind, action⟩ := e
    have htail := tail.lossless.ofJson?_toJson
    have hhead := head.lossless.ofJson?_toJson
    unfold instReadableEdge instCanonicalEdge optionalField
    dsimp only
    rw [Json.fields?_ofMembers (by cases kind <;> cases action <;> simp)
      (by cases kind <;> cases action <;> simp)]
    cases kind <;> cases action <;>
      simp [Json.required?, Json.optional?, List.lookup_cons, htail, hhead, nullable?_text,
        nullable?_action]

lemma IdSupply.lossless (ids : IdSupply) : Lossless ids where
  written := Json.written_ofMembers (List.forall_mem_singleton.mpr ids.next.lossless.written)
  ofJson?_toJson := by
    have hnext := ids.next.lossless.ofJson?_toJson
    unfold instReadableIdSupply instCanonicalIdSupply
    dsimp only
    rw [Json.fields?_ofMembers (by simp) (by simp)]
    simp [Json.required?, hnext]

lemma Policy.lossless (p : Policy) : Lossless p where
  written := Json.written_ofMembers (List.forall_mem_cons.mpr
    ⟨Json.written_ofText _, List.forall_mem_singleton.mpr (.bool p.prune)⟩)
  ofJson?_toJson := by
    have hversion := Json.text?_ofText p.version
    unfold instReadablePolicy instCanonicalPolicy
    dsimp only
    rw [Json.fields?_ofMembers (by simp) (by simp)]
    simp [Json.required?, Json.optional?, Json.bool?, List.lookup_cons, hversion]

/-! ### Matrices -/

namespace BitMatrix

variable {m m' : BitMatrix}

lemma written (m : BitMatrix) : (toJson m).Written := by
  have hcells : (Json.array (m.cells.toList.map .bool)).Written :=
    Json.written_array fun b _ => .bool b
  exact Json.written_ofMembers (List.forall_mem_cons.mpr ⟨Json.written_ofNat _,
    List.forall_mem_cons.mpr ⟨Json.written_ofNat _, List.forall_mem_singleton.mpr hcells⟩⟩)

lemma lossless (hrows : m.rows < UInt64.size) (hcols : m.cols < UInt64.size) : Lossless m where
  written := m.written
  ofJson?_toJson := by
    have hcells : Json.list? Json.bool? (.array (m.cells.toList.map .bool)) =
        some m.cells.toList := Json.list?_array fun b _ => rfl
    unfold instReadableBitMatrix instCanonicalBitMatrix
    dsimp only
    rw [Json.fields?_ofMembers (by simp) (by simp)]
    simp [Json.required?, List.lookup_cons, Json.word?_ofNat hrows, Json.word?_ofNat hcols, hcells,
      Nat.mod_eq_of_lt hrows, Nat.mod_eq_of_lt hcols]

/-- What is read has machine words as bounds. -/
lemma lt_size_of_ofJson? {v : Json} (h : ofJson? v = some m) :
    m.rows < UInt64.size ∧ m.cols < UInt64.size := by
  unfold instReadableBitMatrix at h
  dsimp only at h
  simp only [Option.bind_eq_bind, Option.bind_eq_some_iff, Option.pure_def, Option.some.injEq] at h
  obtain ⟨-, -, rows, -, cols, -, -, -, rfl⟩ := h
  exact ⟨rows.toNat_lt_size, cols.toNat_lt_size⟩

/-- A matrix is read back exactly if its bounds are machine words. -/
theorem readText?_canonicalText_iff :
    readText? (canonicalText m) = some m ↔ m.rows < UInt64.size ∧ m.cols < UInt64.size := by
  constructor
  · intro h
    obtain ⟨v, -, hv⟩ := Option.bind_eq_some_iff.mp h
    exact lt_size_of_ofJson? hv
  · rintro ⟨hrows, hcols⟩
    exact (lossless hrows hcols).readText?_canonicalText

/-- Matrices of any size are told apart by their texts. -/
theorem eq_of_canonicalText_eq (h : canonicalText m = canonicalText m') : m = m' := by
  have hjson : toJson m = toJson m' := m.written.eq_of_compact_eq m'.written h
  obtain ⟨rows, cols, cells⟩ := m
  obtain ⟨rows', cols', cells'⟩ := m'
  have hfields := Json.ofMembers_inj.mp hjson
  simp only [List.cons.injEq, Prod.mk.injEq, true_and, and_true, Json.array.injEq] at hfields
  obtain ⟨hrows, hcols, hcells⟩ := hfields
  obtain rfl := Lexeme.ofNatural_injective (Json.number.inj hrows)
  obtain rfl := Lexeme.ofNatural_injective (Json.number.inj hcols)
  have hlists := List.map_injective_iff.mpr (fun _ _ hb => Json.bool.inj hb) hcells
  exact congrArg (BitMatrix.mk rows cols) (Array.ext' hlists)

end BitMatrix

/-! ### Matches -/

namespace Match

lemma written (m : Match) : (toJson m).Written := by
  refine Json.written_ofMembers (List.forall_mem_singleton.mpr ?_)
  refine .object (fun b hb => ?_) fun b hb => ?_
  · obtain ⟨e, -, rfl⟩ := List.mem_map.mp hb
    exact Lexeme.isString_ofNatural _
  · obtain ⟨e, -, rfl⟩ := List.mem_map.mp hb
    exact e.2.lossless.written

lemma readBinding?_eq (r h : NodeId) :
    readBinding? (Lexeme.ofNatural r.raw.toNat, toJson h) = some (r, h) := by
  have hr : ofJson? (Json.number (Lexeme.ofNatural r.raw.toNat)) = some r :=
    r.lossless.ofJson?_toJson
  unfold readBinding?
  rw [hr, h.lossless.ofJson?_toJson]
  rfl

lemma lossless (m : Match) : Lossless m where
  written := m.written
  ofJson?_toJson := by
    have hpairs : readBindings? (.object (m.toList.map fun e =>
        (Lexeme.ofNatural e.1.raw.toNat, toJson e.2))) = some m.toList :=
      Json.mapM_map fun e _ => readBinding?_eq e.1 e.2
    unfold instReadableMatch instCanonicalMatch
    dsimp only
    rw [Json.fields?_ofMembers (by simp) (by simp)]
    simp only [Json.required?, List.lookup_cons_self, Option.bind_eq_bind, Option.bind_some, hpairs]
    exact congrArg some m.ofList_toList

end Match

/-- A value of every kind is read back from its canonical text, a matrix if its bounds are machine
words. So different values of a kind have different texts. -/
theorem canonicalText_readsBack :
    (∀ n : Node, readText? (canonicalText n) = some n) ∧
      (∀ e : Edge, readText? (canonicalText e) = some e) ∧
      (∀ m : Match, readText? (canonicalText m) = some m) ∧
      (∀ ids : IdSupply, readText? (canonicalText ids) = some ids) ∧
      (∀ m : BitMatrix, readText? (canonicalText m) = some m ↔
        m.rows < UInt64.size ∧ m.cols < UInt64.size) ∧
      (∀ p : Policy, readText? (canonicalText p) = some p) ∧
      Function.Injective (canonicalText : Node → String) ∧
      Function.Injective (canonicalText : Edge → String) ∧
      Function.Injective (canonicalText : Match → String) ∧
      Function.Injective (canonicalText : IdSupply → String) ∧
      Function.Injective (canonicalText : BitMatrix → String) ∧
      Function.Injective (canonicalText : Policy → String) := by
  refine ⟨fun n => n.lossless.readText?_canonicalText, fun e => e.lossless.readText?_canonicalText,
    fun m => (Match.lossless m).readText?_canonicalText,
    fun ids => ids.lossless.readText?_canonicalText,
    fun m => BitMatrix.readText?_canonicalText_iff,
    fun p => p.lossless.readText?_canonicalText, ?_, ?_, ?_, ?_, ?_, ?_⟩
  · exact fun n n' h => n.lossless.eq_of_canonicalText_eq n'.lossless h
  · exact fun e e' h => e.lossless.eq_of_canonicalText_eq e'.lossless h
  · exact fun m m' h => (Match.lossless m).eq_of_canonicalText_eq (Match.lossless m') h
  · exact fun ids ids' h => ids.lossless.eq_of_canonicalText_eq ids'.lossless h
  · exact fun m m' h => BitMatrix.eq_of_canonicalText_eq h
  · exact fun p p' h => p.lossless.eq_of_canonicalText_eq p'.lossless h

end TripleGrammar
