import TripleGrammar.Json.Record
import TripleGrammar.Proofs.JsonTexts
import Mathlib.Data.List.TakeWhile

/-!
# Numbers, lists and records are read back

A natural number is read back from the lexeme that is made of it, a list from the array of its
items, and a record from the object of its fields, of which some may be left out.
-/

namespace TripleGrammar

namespace Lexeme

variable {n : Nat} {c : Char} {cs : List Char}

/-! ### The lexeme of a natural number -/

lemma ofDigits_ofNatural (n : Nat) : ofDigits (ofNatural n) = n := by
  have hread : Nat.ofDigitChars 10 (Nat.toDigits 10 n) 0 = n := Nat.ofDigitChars_ten_toDigits
  rwa [Nat.ofDigitChars_eq_foldl] at hread

lemma isDigit_of_mem_ofNatural (hc : c ∈ ofNatural n) : c.isDigit = true :=
  Nat.isDigit_of_mem_toDigits (by decide) (by decide) hc

lemma digitChar_ne_zero : ∀ n < 10, 0 < n → Nat.digitChar n ≠ '0' := by decide

/-- Only the number zero begins with the digit zero. -/
lemma exists_ofNatural_eq_cons (hn : 0 < n) : ∃ c cs, ofNatural n = c :: cs ∧ c ≠ '0' := by
  induction n using Nat.strongRecOn with
  | ind n ih =>
    unfold ofNatural at ih ⊢
    by_cases hlt : n < 10
    · exact ⟨_, [], Nat.toDigits_of_lt_base hlt, digitChar_ne_zero n hlt hn⟩
    · obtain ⟨c, cs, heq, hc⟩ := ih (n / 10) (by omega) (by omega)
      exact ⟨c, _, by rw [Nat.toDigits_of_base_le (by decide) (by omega), heq]; rfl, hc⟩

lemma skipIntegral_ofNatural (n : Nat) : skipIntegral (ofNatural n) = some [] := by
  cases Nat.eq_zero_or_pos n with
  | inl hn => rw [hn]; rfl
  | inr hn =>
    obtain ⟨c, cs, heq, hc⟩ := exists_ofNatural_eq_cons hn
    have hdigits : ∀ x ∈ c :: cs, x.isDigit = true :=
      fun x hx => isDigit_of_mem_ofNatural (heq ▸ hx)
    rw [heq, skipIntegral]
    · rw [skipDigits, if_pos (hdigits c List.mem_cons_self), List.dropWhile_eq_nil_iff.mpr
        fun x hx => hdigits x (List.mem_cons_of_mem _ hx)]
    · rintro _ ⟨rfl, -⟩
      exact hc rfl

/-- The lexeme of a natural number stands for it. -/
theorem natural?_ofNatural (n : Nat) : natural? (ofNatural n) = some n := by
  unfold natural?
  rw [skipIntegral_ofNatural, ofDigits_ofNatural]
  rfl

lemma ofNatural_injective : Function.Injective ofNatural := by
  intro n m h
  have hn := natural?_ofNatural n
  rw [h, natural?_ofNatural] at hn
  exact (Option.some.inj hn).symm

lemma isNumber_ofNatural (n : Nat) : isNumber (ofNatural n) = true := by
  have hunsigned : skipUnsigned (ofNatural n) = some [] := by
    unfold skipUnsigned
    rw [skipIntegral_ofNatural]
    rfl
  unfold isNumber
  split
  next cs heq =>
    have hminus : Char.isDigit '-' = true :=
      isDigit_of_mem_ofNatural (n := n) (heq ▸ List.mem_cons_self)
    cases hminus
  next => rw [hunsigned]; rfl

lemma isNumberChar_of_isDigit (hc : c.isDigit = true) : isNumberChar c = true := by
  simp [isNumberChar, hc]

lemma escapeChar_of_isDigit (hc : c.isDigit = true) : escapeChar c = [c] := by
  have hrange : 48 ≤ c.toNat ∧ c.toNat ≤ 57 := by
    simpa [Char.isDigit, UInt32.le_iff_toNat_le] using hc
  unfold escapeChar
  split
  case h_8 => exact if_neg (by omega)
  all_goals cases hc

/-- Digits stand between quotes as they are. -/
lemma isString_ofNatural (n : Nat) : IsString (ofNatural n) := by
  have hplain : escape (ofNatural n) = ofNatural n := by
    unfold escape
    rw [List.flatMap_congr fun c hc => escapeChar_of_isDigit (isDigit_of_mem_ofNatural hc)]
    exact List.flatMap_singleton' _
  rw [← hplain]
  exact isString_escape _

end Lexeme

namespace Json

/-! ### Single values -/

lemma written_ofNat (n : Nat) : (ofNat n).Written :=
  .number (Lexeme.isNumber_ofNatural n) fun _ hc =>
    Lexeme.isNumberChar_of_isDigit (Lexeme.isDigit_of_mem_ofNatural hc)

lemma word?_ofNat {n : Nat} (hn : n < UInt64.size) : (ofNat n).word? = some (UInt64.ofNat n) := by
  unfold word? ofNat
  dsimp only
  rw [Lexeme.natural?_ofNatural]
  simp [hn]

lemma text?_ofText (s : String) : (ofText s).text? = some s := Lexeme.text?_escape s

lemma oneOf?_ofText {α : Type} (texts : List (String × α)) (s : String) :
    oneOf? texts (ofText s) = texts.lookup s := by
  unfold oneOf? ofText
  dsimp only
  rw [Lexeme.text?_escape]
  rfl

lemma nullable?_ofText {α : Type} {item : Json → Option α} {s : String} {a : α}
    (h : item (ofText s) = some a) : nullable? item (ofText s) = some (some a) := by
  have hmap : nullable? item (ofText s) = (item (ofText s)).map some := rfl
  rw [hmap, h]
  rfl

/-! ### Lists -/

section

variable {α β : Type} {form : α → β} {l : List α}

lemma mapM_map {item : β → Option α} (h : ∀ a ∈ l, item (form a) = some a) :
    (l.map form).mapM item = some l := by
  induction l with
  | nil => rfl
  | cons a l ih =>
    obtain ⟨ha, hl⟩ := List.forall_mem_cons.mp h
    rw [List.map_cons, List.mapM_cons, ha, ih hl]
    rfl

lemma list?_array {form : α → Json} {item : Json → Option α}
    (h : ∀ a ∈ l, item (form a) = some a) : list? item (array (l.map form)) = some l :=
  mapM_map h

lemma written_array {form : α → Json} (h : ∀ a ∈ l, (form a).Written) :
    (array (l.map form)).Written := by
  refine .array fun v hv => ?_
  obtain ⟨a, ha, rfl⟩ := List.mem_map.mp hv
  exact h a ha

end

/-! ### Records -/

variable {ms : List (String × Json)} {names : List String}

lemma members?_ofMembers (ms : List (String × Json)) : members? (ofMembers ms) = some ms :=
  mapM_map fun m _ => by rw [member, Lexeme.text?_escape]; rfl

/-- A record has the fields with which it is written. -/
lemma fields?_ofMembers (hnames : ∀ m ∈ ms, m.1 ∈ names) (hnodup : (ms.map Prod.fst).Nodup) :
    fields? names (ofMembers ms) = some ms := by
  have hknown : ms.filter (fun m => names.contains m.1) = ms :=
    List.filter_eq_self.mpr fun m hm => List.contains_iff_mem.mpr (hnames m hm)
  have hmembers := members?_ofMembers ms
  unfold ofMembers at hmembers ⊢
  unfold fields?
  dsimp only
  rw [hmembers]
  simp only [Option.bind_eq_bind, Option.bind_some, hknown, if_pos hnodup]
  rfl

end Json

end TripleGrammar
