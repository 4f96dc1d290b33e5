/-!
# Sorted maps

A finite map as the list of its entries in strictly ascending order of their keys. Each map has one
such list, so two maps are equal exactly if they hold the same entries.
-/

namespace TripleGrammar

universe u v

/-- A finite map from `κ` to `α`, in ascending order of its keys. -/
structure SortedMap (κ : Type u) (α : Type v) [Ord κ] where
  /-- The entries, in ascending order of their keys. -/
  toList : List (κ × α)
  ascending : toList.Pairwise fun e₁ e₂ => compare e₁.1 e₂.1 = .lt := by simp
deriving DecidableEq

namespace SortedMap

variable {κ : Type u} {α : Type v} [Ord κ]

instance : EmptyCollection (SortedMap κ α) := ⟨{ toList := [] }⟩

instance : Inhabited (SortedMap κ α) := ⟨∅⟩

def size (m : SortedMap κ α) : Nat := m.toList.length

def isEmpty (m : SortedMap κ α) : Bool := m.toList.isEmpty

def keys (m : SortedMap κ α) : List κ := m.toList.map Prod.fst

def values (m : SortedMap κ α) : List α := m.toList.map Prod.snd

/-- The value of the first entry whose key compares equal to `k`. -/
def findEntry (k : κ) : List (κ × α) → Option α
  | [] => none
  | (k', a) :: l => if compare k k' = .eq then some a else findEntry k l

def get? (m : SortedMap κ α) (k : κ) : Option α := findEntry k m.toList

def contains (m : SortedMap κ α) (k : κ) : Bool := (m.get? k).isSome

/-- Puts an entry in its place, where it takes that of an entry with the same key. -/
def insertEntry (k : κ) (a : α) : List (κ × α) → List (κ × α)
  | [] => [(k, a)]
  | (k', a') :: l =>
    match compare k k' with
    | .lt => (k, a) :: (k', a') :: l
    | .eq => (k, a) :: l
    | .gt => (k', a') :: insertEntry k a l

theorem mem_insertEntry {k : κ} {a : α} {e : κ × α} {l : List (κ × α)}
    (h : e ∈ insertEntry k a l) : e = (k, a) ∨ e ∈ l := by
  induction l with
  | nil => simpa [insertEntry] using h
  | cons e' l ih =>
    rw [insertEntry] at h
    split at h <;> grind

variable [Std.LawfulEqOrd κ]

theorem findEntry_insertEntry_self (k : κ) (a : α) (l : List (κ × α)) :
    findEntry k (insertEntry k a l) = some a := by
  induction l with
  | nil => simp [insertEntry, findEntry]
  | cons e l ih =>
    rw [insertEntry]
    split <;> simp_all [findEntry]

theorem findEntry_insertEntry_of_ne {k k' : κ} (a : α) (l : List (κ × α)) (h : k' ≠ k) :
    findEntry k' (insertEntry k a l) = findEntry k' l := by
  have hne : compare k' k ≠ .eq := fun he => h (Std.LawfulEqCmp.eq_of_compare he)
  induction l with
  | nil => simp [insertEntry, findEntry, hne]
  | cons e l ih =>
    rw [insertEntry]
    split
    · simp [findEntry, hne]
    next heq =>
      obtain rfl := Std.LawfulEqCmp.eq_of_compare heq
      simp [findEntry, hne]
    · simp [findEntry, ih]

variable [Std.TransOrd κ]

theorem pairwise_insertEntry (k : κ) (a : α) {l : List (κ × α)}
    (h : l.Pairwise fun e₁ e₂ => compare e₁.1 e₂.1 = .lt) :
    (insertEntry k a l).Pairwise fun e₁ e₂ => compare e₁.1 e₂.1 = .lt := by
  induction l with
  | nil => simp [insertEntry]
  | cons e l ih =>
    obtain ⟨k', a'⟩ := e
    obtain ⟨hfirst, hrest⟩ := List.pairwise_cons.1 h
    rw [insertEntry]
    split
    next hlt =>
      refine List.pairwise_cons.2 ⟨fun e he => ?_, h⟩
      rcases List.mem_cons.1 he with rfl | he
      · exact hlt
      · exact Std.TransCmp.lt_trans hlt (hfirst e he)
    next heq =>
      obtain rfl := Std.LawfulEqCmp.eq_of_compare heq
      exact List.pairwise_cons.2 ⟨hfirst, hrest⟩
    next hgt =>
      refine List.pairwise_cons.2 ⟨fun e he => ?_, ih hrest⟩
      rcases mem_insertEntry he with rfl | he
      · exact Std.OrientedCmp.lt_of_gt hgt
      · exact hfirst e he

/-- The map in which `k` has the value `a`, whatever it had before. -/
def insert (m : SortedMap κ α) (k : κ) (a : α) : SortedMap κ α where
  toList := insertEntry k a m.toList
  ascending := pairwise_insertEntry k a m.ascending

/-- The map that holds the entries of a list. Of two entries with one key the later one counts. -/
def ofList (l : List (κ × α)) : SortedMap κ α := l.foldl (fun m e => m.insert e.1 e.2) ∅

/-- The elements of a list, each once, in ascending order. -/
def distinct (l : List κ) : List κ := (ofList (l.map fun k => (k, ()))).keys

@[simp] theorem get?_insert_self (m : SortedMap κ α) (k : κ) (a : α) :
    (m.insert k a).get? k = some a :=
  findEntry_insertEntry_self k a m.toList

theorem get?_insert_of_ne (m : SortedMap κ α) {k k' : κ} (a : α) (h : k' ≠ k) :
    (m.insert k a).get? k' = m.get? k' :=
  findEntry_insertEntry_of_ne a m.toList h

end SortedMap

end TripleGrammar
