import TripleGrammar.Json.Reader
import Mathlib.Data.List.Basic

/-!
# JSON texts can be read back

A value whose lexemes have the right form is read back from the text that it is written as, so no
two such values have the same text. What the escaping of a text makes is the lexeme of a string, and
it stands for that text.
-/

namespace TripleGrammar

/-- A run of characters of one kind ends where a character of another kind follows, or nothing. -/
lemma span_append {p : Char → Bool} {cs rest : List Char} (hcs : ∀ c ∈ cs, p c = true)
    (hrest : ∀ c ∈ rest.head?, p c = false) :
    (cs ++ rest).takeWhile p = cs ∧ (cs ++ rest).dropWhile p = rest := by
  rw [List.takeWhile_append_of_pos hcs, List.dropWhile_append_of_pos hcs]
  cases rest with
  | nil => exact ⟨List.append_nil cs, rfl⟩
  | cons c rest =>
    have hc : ¬p c = true := by simp [hrest c rfl]
    rw [List.takeWhile_cons_of_neg hc, List.dropWhile_cons_of_neg hc]
    exact ⟨List.append_nil cs, rfl⟩

namespace Lexeme

/-- The lexeme is that of a string: it goes up to the quote that closes it. -/
def IsString (l : Lexeme) : Prop := ∀ rest, Json.readString (l ++ '"' :: rest) = some (l, rest)

/-! ### Escapes -/

/-- A character is written as a short escape, as the code of a control character or as it is. -/
lemma escapeChar_cases (c : Char) :
    (∃ e, escapeChar c = ['\\', e] ∧ e ≠ 'u' ∧ shortEscape? e = some c) ∨
      (c.toNat < 0x20 ∧ escapeChar c =
        ['\\', 'u', '0', '0', Nat.digitChar (c.toNat / 16), Nat.digitChar (c.toNat % 16)]) ∨
      (escapeChar c = [c] ∧ c ≠ '"' ∧ c ≠ '\\' ∧ ¬c.toNat < 0x20) := by
  unfold escapeChar
  split
  case h_8 hquote hbackslash _ _ _ _ _ =>
    by_cases hcontrol : c.toNat < 0x20
    · exact Or.inr (Or.inl ⟨hcontrol, if_pos hcontrol⟩)
    · exact Or.inr (Or.inr ⟨if_neg hcontrol, hquote, hbackslash, hcontrol⟩)
  all_goals exact Or.inl ⟨_, rfl, by decide, rfl⟩

lemma codeUnit?_control : ∀ n < 0x20,
    codeUnit? '0' '0' (Nat.digitChar (n / 16)) (Nat.digitChar (n % 16)) = some n := by
  decide

/-- A reader takes the lexeme of a character as a whole. -/
lemma readString_escapeChar (c : Char) (cs : List Char) :
    Json.readString (escapeChar c ++ cs) =
      (Json.readString cs).map fun p => (escapeChar c ++ p.1, p.2) := by
  rcases escapeChar_cases c with ⟨e, heq, hu, hshort⟩ | ⟨hcontrol, heq⟩ | ⟨heq, hquote, hback, hc⟩
  · rw [heq]
    change Json.readString ('\\' :: e :: cs) = _
    rw [Json.readString, hshort]
    · cases Json.readString cs <;> rfl
    · exact fun _ _ _ _ _ he _ => hu he
  · rw [heq]
    change Json.readString ('\\' :: 'u' :: '0' :: '0' :: _ :: _ :: cs) = _
    rw [Json.readString, codeUnit?_control _ hcontrol]
    cases Json.readString cs <;> rfl
  · rw [heq]
    change Json.readString (c :: cs) = _
    have hplain : (c == '\\' || decide (c.toNat < 0x20)) = false := by simp [hback, hc]
    rw [Json.readString, hplain]
    · cases Json.readString cs <;> rfl
    · exact hquote
    · exact fun _ _ _ _ _ he _ => hback he
    · exact fun _ _ he _ => hback he

lemma isString_escape (cs : List Char) : IsString (escape cs) := by
  intro rest
  induction cs with
  | nil => rfl
  | cons c cs ih =>
    change Json.readString ((escapeChar c ++ escape cs) ++ '"' :: rest) = _
    rw [List.append_assoc, readString_escapeChar, ih]
    rfl

lemma unescape?_escapeChar (c : Char) (cs : List Char) :
    unescape? (escapeChar c ++ cs) = (unescape? cs).map (c :: ·) := by
  rcases escapeChar_cases c with ⟨e, heq, hu, hshort⟩ | ⟨hcontrol, heq⟩ | ⟨heq, hquote, hback, hc⟩
  · rw [heq]
    change unescape? ('\\' :: e :: cs) = _
    rw [unescape?, hshort]
    · cases unescape? cs <;> rfl
    · exact fun _ _ _ _ _ he _ => hu he
  · rw [heq]
    change unescape? ('\\' :: 'u' :: '0' :: '0' :: _ :: _ :: cs) = _
    have hlow : isLowSurrogate c.toNat = false := by simp [isLowSurrogate]; omega
    have hhigh : isHighSurrogate c.toNat = false := by simp [isHighSurrogate]; omega
    rw [unescape?, codeUnit?_control _ hcontrol]
    simp only [Option.bind_eq_bind, Option.bind_some, hlow, hhigh, Bool.false_eq_true, if_false,
      Char.ofNat_toNat]
    cases unescape? cs <;> rfl
  · rw [heq]
    change unescape? (c :: cs) = _
    rw [unescape?, if_neg (by simpa using hback)]
    · cases unescape? cs <;> rfl
    · exact fun _ _ _ _ _ he _ => hback he
    · exact fun _ _ he _ => hback he

lemma unescape?_escape (cs : List Char) : unescape? (escape cs) = some cs := by
  induction cs with
  | nil => rfl
  | cons c cs ih =>
    change unescape? (escapeChar c ++ escape cs) = _
    rw [unescape?_escapeChar, ih]
    rfl

/-- The escaping of a text stands for the text. -/
theorem text?_escape (s : String) : text? (escape s.toList) = some s := by
  unfold text?
  rw [unescape?_escape, Option.map_some, String.ofList_toList]

end Lexeme

namespace Json

variable {v : Json} {fuel : Nat} {l : Lexeme} {rest : List Char}

/-- The lexemes of the value have the right form. -/
inductive Written : Json → Prop where
  | null : Written null
  | bool (b : Bool) : Written (bool b)
  | number {l : Lexeme} (form : Lexeme.isNumber l = true)
      (chars : ∀ c ∈ l, Lexeme.isNumberChar c = true) : Written (number l)
  | string {l : Lexeme} (form : Lexeme.IsString l) : Written (string l)
  | array {items : List Json} (each : ∀ v ∈ items, Written v) : Written (array items)
  | object {members : List (Lexeme × Json)} (keys : ∀ m ∈ members, Lexeme.IsString m.1)
      (values : ∀ m ∈ members, Written m.2) : Written (object members)

/-- A number that stands before the text ends there. -/
def EndsNumber (rest : List Char) : Prop := ∀ c ∈ rest.head?, Lexeme.isNumberChar c = false

/-- The value is read back from its text, whatever follows it. -/
def ReadsBack (v : Json) : Prop :=
  ∀ fuel rest, EndsNumber rest → 2 * v.render.length ≤ fuel + 1 →
    readValue fuel (v.render ++ rest) = some (v, rest)

/-! ### Numbers -/

lemma readNumber_append (hform : Lexeme.isNumber l = true)
    (hchars : ∀ c ∈ l, Lexeme.isNumberChar c = true) (hrest : EndsNumber rest) :
    readNumber (l ++ rest) = some (l, rest) := by
  obtain ⟨htake, hdrop⟩ := span_append hchars hrest
  unfold readNumber
  rw [htake, hdrop, if_pos hform]

lemma exists_cons_of_isNumber (hform : Lexeme.isNumber l = true) : ∃ c cs, l = c :: cs := by
  cases l with
  | nil => cases hform
  | cons c cs => exact ⟨c, cs, rfl⟩

lemma ne_of_isNumberChar {c c' : Char} (h : Lexeme.isNumberChar c = true)
    (h' : Lexeme.isNumberChar c' = false) : c ≠ c' := by
  rintro rfl
  rw [h] at h'
  cases h'

/-! ### Blanks -/

/-- A value begins with a character that is neither a blank nor a closing bracket. -/
lemma Written.exists_cons (h : v.Written) :
    ∃ c cs, v.render = c :: cs ∧ isBlank c = false ∧ c ≠ ']' := by
  cases h with
  | null => exact ⟨_, _, render.eq_1, by decide, by decide⟩
  | bool b => cases b <;> exact ⟨_, _, by rw [render], by decide, by decide⟩
  | number form chars =>
    obtain ⟨c, cs, rfl⟩ := exists_cons_of_isNumber form
    have hc := chars c List.mem_cons_self
    have hblank : isBlank c = false := by
      unfold isBlank
      simp only [Bool.or_eq_false_iff, beq_eq_false_iff_ne]
      exact ⟨⟨⟨ne_of_isNumberChar hc rfl, ne_of_isNumberChar hc rfl⟩,
        ne_of_isNumberChar hc rfl⟩, ne_of_isNumberChar hc rfl⟩
    exact ⟨c, cs, by rw [render], hblank, ne_of_isNumberChar hc rfl⟩
  | string form => exact ⟨_, _, by rw [render, quoted], by decide, by decide⟩
  | @array items each =>
    cases items with
    | nil => exact ⟨_, _, by rw [render], by decide, by decide⟩
    | cons v vs => exact ⟨_, _, by rw [render], by decide, by decide⟩
  | @object members keys values =>
    cases members with
    | nil => exact ⟨_, _, by rw [render], by decide, by decide⟩
    | cons m ms =>
      obtain ⟨k, v⟩ := m
      exact ⟨_, _, by rw [render], by decide, by decide⟩

lemma skipBlanks_cons {c : Char} {cs : List Char} (hc : isBlank c = false) :
    skipBlanks (c :: cs) = c :: cs :=
  List.dropWhile_cons_of_neg (by simp [hc])

/-! ### Values -/

lemma endsNumber_renderItems (vs : List Json) (rest : List Char) :
    EndsNumber (renderItems vs ++ rest) := by
  cases vs with
  | nil => rw [renderItems]; rintro c ⟨rfl⟩; rfl
  | cons v vs => rw [renderItems]; rintro c ⟨rfl⟩; rfl

lemma endsNumber_renderMembers (ms : List (Lexeme × Json)) (rest : List Char) :
    EndsNumber (renderMembers ms ++ rest) := by
  cases ms with
  | nil => rw [renderMembers]; rintro c ⟨rfl⟩; rfl
  | cons m ms => obtain ⟨k, v⟩ := m; rw [renderMembers]; rintro c ⟨rfl⟩; rfl

lemma readsBack_number (hform : Lexeme.isNumber l = true)
    (hchars : ∀ c ∈ l, Lexeme.isNumberChar c = true) : ReadsBack (number l) := by
  intro fuel rest hrest hfuel
  obtain ⟨c, cs, hrender, hblank, -⟩ := (Written.number hform hchars).exists_cons
  obtain rfl : l = c :: cs := hrender
  have hc := hchars c List.mem_cons_self
  rw [render] at hfuel ⊢
  cases fuel with
  | zero =>
    rw [List.length_cons] at hfuel
    omega
  | succ fuel =>
    have hread := readNumber_append hform hchars hrest
    rw [readValue, List.cons_append, skipBlanks_cons hblank]
    split
    case h_7 => rw [← List.cons_append, hread]; rfl
    all_goals next heq => exact absurd (List.cons.inj heq).1 (ne_of_isNumberChar hc rfl)

lemma readItems_of_readsBack {vs : List Json} (hv : v.ReadsBack) (hvs : ∀ w ∈ vs, w.ReadsBack)
    (hfuel : 2 * (v.render.length + (renderItems vs).length) ≤ fuel + 1) :
    readItems fuel (v.render ++ (renderItems vs ++ rest)) = some (v :: vs, rest) := by
  induction vs generalizing v fuel with
  | nil =>
    rw [renderItems, List.length_singleton] at hfuel
    cases fuel with
    | zero => omega
    | succ fuel =>
      rw [readItems, hv fuel _ (endsNumber_renderItems [] rest) (by omega)]
      rfl
  | cons w vs ih =>
    rw [renderItems, List.length_cons, List.length_append] at hfuel
    cases fuel with
    | zero => omega
    | succ fuel =>
      obtain ⟨hw, hvs⟩ := List.forall_mem_cons.mp hvs
      have htail := @ih w fuel hw hvs (by omega)
      rw [readItems, hv fuel _ (endsNumber_renderItems (w :: vs) rest) (by omega)]
      change (readItems fuel (w.render ++ renderItems vs ++ rest)).bind _ = _
      rw [List.append_assoc, htail]
      rfl

lemma readKey_quoted (hk : Lexeme.IsString l) (rest : List Char) :
    readKey (quoted l ++ ':' :: rest) = some (l, rest) := by
  have hquoted : quoted l ++ ':' :: rest = '"' :: (l ++ '"' :: ':' :: rest) := by
    rw [quoted, List.cons_append, List.append_assoc, List.singleton_append]
  unfold readKey
  rw [hquoted, skipBlanks_cons (by decide)]
  change (readString (l ++ '"' :: ':' :: rest)).bind _ = _
  rw [hk]
  rfl

lemma readMembers_of_readsBack {ms : List (Lexeme × Json)} (hl : Lexeme.IsString l)
    (hv : v.ReadsBack) (hkeys : ∀ m ∈ ms, Lexeme.IsString m.1) (hvalues : ∀ m ∈ ms, m.2.ReadsBack)
    (hfuel : 2 * ((quoted l).length + v.render.length + (renderMembers ms).length) ≤ fuel) :
    readMembers fuel (quoted l ++ ':' :: (v.render ++ (renderMembers ms ++ rest))) =
      some ((l, v) :: ms, rest) := by
  induction ms generalizing l v fuel with
  | nil =>
    rw [renderMembers, List.length_singleton] at hfuel
    cases fuel with
    | zero => omega
    | succ fuel =>
      rw [readMembers, readKey_quoted hl]
      simp only [Option.bind_eq_bind, Option.bind_some]
      rw [hv fuel _ (endsNumber_renderMembers [] rest) (by omega)]
      rfl
  | cons m ms ih =>
    obtain ⟨k, w⟩ := m
    rw [renderMembers, List.length_cons, List.length_append, List.length_cons,
      List.length_append] at hfuel
    cases fuel with
    | zero => omega
    | succ fuel =>
      obtain ⟨hk, hkeys⟩ := List.forall_mem_cons.mp hkeys
      obtain ⟨hw, hvalues⟩ := List.forall_mem_cons.mp hvalues
      have htail := @ih w fuel k hk hw hkeys hvalues (by omega)
      rw [readMembers, readKey_quoted hl]
      simp only [Option.bind_eq_bind, Option.bind_some]
      rw [hv fuel _ (endsNumber_renderMembers ((k, w) :: ms) rest) (by omega)]
      change
        (readMembers fuel (quoted k ++ ':' :: (w.render ++ renderMembers ms) ++ rest)).bind _ = _
      rw [List.append_assoc, List.cons_append, List.append_assoc, htail]
      rfl

lemma readsBack_string (hl : Lexeme.IsString l) : ReadsBack (string l) := by
  intro fuel rest hrest hfuel
  have hquoted : (string l).render ++ rest = '"' :: (l ++ '"' :: rest) := by
    rw [render, quoted, List.cons_append, List.append_assoc, List.singleton_append]
  cases fuel with
  | zero =>
    rw [render, quoted, List.length_cons] at hfuel
    omega
  | succ fuel =>
    rw [readValue, hquoted, skipBlanks_cons (by decide)]
    change (readString (l ++ '"' :: rest)).bind _ = _
    rw [hl]
    rfl

lemma readsBack_array {vs : List Json} (hwritten : ∀ v ∈ vs, v.Written)
    (hvs : ∀ v ∈ vs, v.ReadsBack) : ReadsBack (array vs) := by
  intro fuel rest hrest hfuel
  cases vs with
  | nil =>
    cases fuel with
    | zero => exact absurd hfuel (by decide)
    | succ fuel => rfl
  | cons v vs =>
    obtain ⟨hv, hvs⟩ := List.forall_mem_cons.mp hvs
    obtain ⟨c, cs, hrender, hblank, hc⟩ := (hwritten v List.mem_cons_self).exists_cons
    rw [render, List.length_cons, List.length_append] at hfuel
    cases fuel with
    | zero => omega
    | succ fuel =>
      have hitems := @readItems_of_readsBack v fuel rest vs hv hvs (by omega)
      rw [render, List.cons_append, List.append_assoc, readValue, skipBlanks_cons (by decide)]
      -- the array is not read as empty, for a value does not begin with a closing bracket
      rw [hrender, List.cons_append] at hitems ⊢
      simp [skipBlanks_cons hblank, hitems, hc]

lemma readsBack_object {ms : List (Lexeme × Json)} (hkeys : ∀ m ∈ ms, Lexeme.IsString m.1)
    (hvalues : ∀ m ∈ ms, m.2.ReadsBack) : ReadsBack (object ms) := by
  intro fuel rest hrest hfuel
  cases ms with
  | nil =>
    cases fuel with
    | zero => exact absurd hfuel (by decide)
    | succ fuel => rfl
  | cons m ms =>
    obtain ⟨l, v⟩ := m
    obtain ⟨hl, hkeys⟩ := List.forall_mem_cons.mp hkeys
    obtain ⟨hv, hvalues⟩ := List.forall_mem_cons.mp hvalues
    rw [render, List.length_cons, List.length_append, List.length_cons,
      List.length_append] at hfuel
    cases fuel with
    | zero => omega
    | succ fuel =>
      have hmembers := @readMembers_of_readsBack v fuel l rest ms hl hv hkeys hvalues (by omega)
      rw [render, List.cons_append, List.append_assoc, List.cons_append, List.append_assoc,
        readValue, skipBlanks_cons (by decide)]
      change
        (readMembers fuel (quoted l ++ ':' :: (v.render ++ (renderMembers ms ++ rest)))).bind _ = _
      rw [hmembers]
      rfl

/-- A value is read back from its text, in whatever text it stands. -/
theorem Written.readsBack (h : v.Written) : v.ReadsBack := by
  induction h with
  | null =>
    intro fuel rest hrest hfuel
    cases fuel with
    | zero => exact absurd hfuel (by decide)
    | succ fuel => rfl
  | bool b =>
    intro fuel rest hrest hfuel
    cases fuel with
    | zero => cases b <;> exact absurd hfuel (by decide)
    | succ fuel => cases b <;> rfl
  | number form chars => exact readsBack_number form chars
  | string form => exact readsBack_string form
  | array each ih => exact readsBack_array each ih
  | object keys values ih => exact readsBack_object keys ih

lemma Written.read_compact (h : v.Written) : read v.compact.toList = some (v, []) := by
  have hread : readValue (2 * v.render.length + 1) (v.render ++ []) = some (v, []) :=
    h.readsBack _ [] (fun c hc => by cases hc) (by omega)
  rw [List.append_nil] at hread
  unfold read compact
  rw [String.toList_ofList, hread]

/-- The text of a value is that of no other value, and the value is read from it. -/
theorem Written.parse?_compact (h : v.Written) : parse? v.compact = some v := by
  unfold parse?
  rw [h.read_compact]
  rfl

theorem Written.eq_of_compact_eq {w : Json} (hv : v.Written) (hw : w.Written)
    (h : v.compact = w.compact) : v = w := by
  have hread := hv.parse?_compact
  rw [h, hw.parse?_compact] at hread
  exact (Option.some.inj hread).symm

/-! ### Values that are made from texts -/

lemma written_ofText (s : String) : (ofText s).Written := .string (Lexeme.isString_escape _)

lemma ofText_inj {s t : String} : ofText s = ofText t ↔ s = t := by
  refine ⟨fun h => ?_, congrArg ofText⟩
  have hs := Lexeme.text?_escape s
  rw [string.inj h, Lexeme.text?_escape] at hs
  exact (Option.some.inj hs).symm

lemma written_ofMembers {ms : List (String × Json)} (h : ∀ m ∈ ms, m.2.Written) :
    (ofMembers ms).Written := by
  refine .object (fun m hm => ?_) fun m hm => ?_
  · obtain ⟨m, -, rfl⟩ := List.mem_map.mp hm
    exact Lexeme.isString_escape _
  · obtain ⟨m, hmem, rfl⟩ := List.mem_map.mp hm
    exact h m hmem

lemma ofMembers_inj {ms ms' : List (String × Json)} : ofMembers ms = ofMembers ms' ↔ ms = ms' := by
  refine ⟨fun h => List.map_injective_iff.mpr ?_ (object.inj h), congrArg ofMembers⟩
  intro m m' heq
  obtain ⟨hkey, hvalue⟩ := Prod.mk.inj heq
  exact Prod.ext (ofText_inj.mp (congrArg string hkey)) hvalue

end Json

end TripleGrammar
