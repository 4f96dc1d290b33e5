import TripleGrammar.SortedMap
import Mathlib.Algebra.GroupWithZero.Nat

/-!
# Lemmas about sorted maps

A map holds an entry exactly if the key is looked up with that value, and a map that is made from a
list holds the entries of the list. A map of counts counts one more in all when it counts a key once
more.
-/

namespace TripleGrammar.SortedMap

universe u v

variable {κ : Type u} {α : Type v} [Ord κ]

theorem findEntry_eq_none {k : κ} {l : List (κ × α)} (h : ∀ e ∈ l, compare k e.1 = .lt) :
    findEntry k l = none := by
  induction l with
  | nil => rfl
  | cons e l ih =>
    obtain ⟨hfirst, hrest⟩ := List.forall_mem_cons.1 h
    rw [findEntry, hfirst, if_neg (by decide)]
    exact ih hrest

/-- An entry that is put in place adds its value, less the value that its key had. -/
theorem sum_insertEntry [Std.TransOrd κ] (k : κ) (n : Nat) {l : List (κ × Nat)}
    (h : l.Pairwise fun e₁ e₂ => compare e₁.1 e₂.1 = .lt) :
    ((insertEntry k n l).map Prod.snd).sum + (findEntry k l).getD 0 =
      (l.map Prod.snd).sum + n := by
  induction l with
  | nil => simp [insertEntry, findEntry]
  | cons e l ih =>
    obtain ⟨hfirst, hrest⟩ := List.pairwise_cons.1 h
    rw [insertEntry]
    split
    next hlt =>
      have hnone : findEntry k (e :: l) = none := by
        refine findEntry_eq_none (List.forall_mem_cons.2 ⟨hlt, fun e' he' => ?_⟩)
        exact Std.TransCmp.lt_trans hlt (hfirst e' he')
      rw [hnone]
      simp only [List.map_cons, List.sum_cons, Option.getD_none]
      omega
    next heq =>
      simp only [findEntry, heq, if_true, List.map_cons, List.sum_cons, Option.getD_some]
      omega
    next hgt =>
      have htail := ih hrest
      simp only [findEntry, hgt, reduceCtorEq, if_false, List.map_cons, List.sum_cons]
      omega

variable [Std.LawfulEqOrd κ]

theorem mem_toList_iff {m : SortedMap κ α} {k : κ} {a : α} :
    (k, a) ∈ m.toList ↔ m.get? k = some a := by
  obtain ⟨l, hl⟩ := m
  change (k, a) ∈ l ↔ findEntry k l = some a
  induction l with
  | nil => simp [findEntry]
  | cons e l ih =>
    obtain ⟨hfirst, hrest⟩ := List.pairwise_cons.1 hl
    rw [List.mem_cons, findEntry]
    by_cases hk : k = e.1
    · subst hk
      have hself : compare e.1 e.1 = .eq := Std.ReflCmp.compare_self
      have hnone : (e.1, a) ∉ l := by
        intro hmem
        have hlt := hfirst _ hmem
        rw [hself] at hlt
        cases hlt
      rw [if_pos hself]
      constructor
      · rintro (he | hmem)
        · exact congrArg (some ·.2) he.symm
        · exact absurd hmem hnone
      · intro he
        exact Or.inl (Prod.ext rfl (Option.some.inj he).symm)
    · have hne : ¬compare k e.1 = .eq := fun he => hk (Std.LawfulEqCmp.eq_of_compare he)
      rw [if_neg hne, ← ih hrest]
      constructor
      · rintro (rfl | hmem)
        · exact absurd rfl hk
        · exact hmem
      · exact Or.inr

theorem mem_keys_iff {m : SortedMap κ α} {k : κ} : k ∈ m.keys ↔ ∃ a, m.get? k = some a := by
  simp [keys, ← mem_toList_iff]

theorem mem_values_iff {m : SortedMap κ α} {a : α} : a ∈ m.values ↔ ∃ k, m.get? k = some a := by
  simp [values, ← mem_toList_iff]

theorem isEmpty_eq_false_iff {m : SortedMap κ α} :
    m.isEmpty = false ↔ ∃ k a, m.get? k = some a := by
  simp only [isEmpty, List.isEmpty_eq_false_iff_exists_mem, ← mem_toList_iff, Prod.exists]

variable [Std.TransOrd κ]

/-- Maps in which every key is looked up with the same value are equal. -/
theorem ext_get? {m m' : SortedMap κ α} (h : ∀ k, m.get? k = m'.get? k) : m = m' := by
  have hnodup : ∀ m : SortedMap κ α, m.toList.Nodup := by
    intro m
    refine m.ascending.imp fun {e₁ e₂} hlt heq => ?_
    have hself : compare e₂.1 e₂.1 = .eq := Std.ReflCmp.compare_self
    rw [heq, hself] at hlt
    cases hlt
  have hmem : ∀ e, e ∈ m.toList ↔ e ∈ m'.toList := by
    rintro ⟨k, a⟩
    rw [mem_toList_iff, mem_toList_iff, h]
  have hperm := (List.perm_ext_iff_of_nodup (hnodup m) (hnodup m')).2 hmem
  have heq : m.toList = m'.toList := by
    refine hperm.eq_of_pairwise (fun e₁ e₂ _ _ hlt hgt => ?_) m.ascending m'.ascending
    rw [Std.OrientedCmp.gt_of_lt hlt] at hgt
    cases hgt
  cases m
  cases m'
  congr

/-- Counting something once more adds one to all that is counted. -/
theorem sum_values_insert_succ (m : SortedMap κ Nat) (k : κ) :
    (m.insert k ((m.get? k).getD 0 + 1)).values.sum = m.values.sum + 1 := by
  have hsum := sum_insertEntry k ((m.get? k).getD 0 + 1) m.ascending
  change (m.insert k ((m.get? k).getD 0 + 1)).values.sum + (m.get? k).getD 0 =
    m.values.sum + ((m.get? k).getD 0 + 1) at hsum
  omega

theorem mem_of_get?_foldl_insert {k : κ} {a : α} {l : List (κ × α)} {m : SortedMap κ α}
    (h : (l.foldl (fun m e => m.insert e.1 e.2) m).get? k = some a) :
    (k, a) ∈ l ∨ m.get? k = some a := by
  induction l generalizing m with
  | nil => exact Or.inr h
  | cons e l ih =>
    rcases ih h with hmem | hget
    · exact Or.inl (List.mem_cons_of_mem _ hmem)
    · by_cases hk : k = e.1
      · subst hk
        rw [get?_insert_self] at hget
        obtain rfl := Option.some.inj hget
        exact Or.inl List.mem_cons_self
      · rw [get?_insert_of_ne _ _ hk] at hget
        exact Or.inr hget

theorem exists_get?_foldl_insert {k : κ} {l : List (κ × α)} {m : SortedMap κ α}
    (h : k ∈ l.map Prod.fst ∨ ∃ a, m.get? k = some a) :
    ∃ a, (l.foldl (fun m e => m.insert e.1 e.2) m).get? k = some a := by
  induction l generalizing m with
  | nil => simpa using h
  | cons e l ih =>
    apply ih
    by_cases hk : k = e.1
    · subst hk
      exact Or.inr ⟨e.2, get?_insert_self ..⟩
    · rw [get?_insert_of_ne _ _ hk]
      rcases h with hmem | hget
      · exact Or.inl ((List.mem_cons.1 hmem).resolve_left hk)
      · exact Or.inr hget

theorem mem_of_get?_ofList {k : κ} {a : α} {l : List (κ × α)}
    (h : (ofList l).get? k = some a) : (k, a) ∈ l := by
  rcases mem_of_get?_foldl_insert h with hmem | hget
  · exact hmem
  · cases hget

theorem exists_get?_ofList_iff {k : κ} {l : List (κ × α)} :
    (∃ a, (ofList l).get? k = some a) ↔ ∃ a, (k, a) ∈ l := by
  constructor
  · rintro ⟨a, ha⟩
    exact ⟨a, mem_of_get?_ofList ha⟩
  · rintro ⟨a, ha⟩
    exact exists_get?_foldl_insert (Or.inl (List.mem_map.2 ⟨_, ha, rfl⟩))

/-- If no key has two values in a list, the map holds the entries of the list and nothing else. -/
theorem get?_ofList_iff {l : List (κ × α)} (hl : ∀ k a b, (k, a) ∈ l → (k, b) ∈ l → a = b) {k : κ}
    {a : α} : (ofList l).get? k = some a ↔ (k, a) ∈ l := by
  refine ⟨mem_of_get?_ofList, fun hmem => ?_⟩
  obtain ⟨b, hb⟩ := exists_get?_ofList_iff.2 ⟨a, hmem⟩
  rw [hb, hl k a b hmem (mem_of_get?_ofList hb)]

@[simp] theorem mem_distinct {k : κ} {l : List κ} : k ∈ distinct l ↔ k ∈ l := by
  rw [distinct, mem_keys_iff, exists_get?_ofList_iff]
  simp

theorem pairwise_distinct (l : List κ) : (distinct l).Pairwise fun k k' => compare k k' = .lt :=
  List.pairwise_map.2 (ofList (l.map fun k => (k, ()))).ascending

theorem ofList_toList (m : SortedMap κ α) : ofList m.toList = m := by
  apply ext_get?
  intro k
  apply Option.ext
  intro a
  rw [get?_ofList_iff fun k a b ha hb => ?_, mem_toList_iff]
  rw [mem_toList_iff] at ha hb
  exact Option.some.inj (ha.symm.trans hb)

end TripleGrammar.SortedMap
