import Mathlib

/-!
# Words of a text

A line of a program and the prefix form of an expression are words with one space between them. This
module takes such a text apart again and reads the numbers among its words.

* `Text.parts_intercalate`: a text is cut into the words that were put together.
* `Text.number?_toString`: a number is read back from its decimal form.
* `Text.int32_eq`: that form has digits only, apart from a sign.
-/

namespace LineCompiler.Text

/-! ## Cutting a text -/

/-- The parts of a text in front of, between and behind the places where it has this character. -/
def parts (separator : Char) (text : String) : List String :=
  (text.split separator).toList.map (·.copy)

theorem parts_intercalate {separator : Char} {words : List String} (hne : words ≠ [])
    (hwords : ∀ word ∈ words, separator ∉ word.toList) :
    parts separator ((String.singleton separator).intercalate words) = words := by
  rw [parts, String.toList_split_intercalate hwords, if_neg hne]

/-- A character that is in no word and does not separate them is not in the text. -/
theorem notMem_intercalate {separator : String} {words : List String} {c : Char}
    (hseparator : c ∉ separator.toList) (hwords : ∀ word ∈ words, c ∉ word.toList) :
    c ∉ (separator.intercalate words).toList := by
  induction words with
  | nil => simp
  | cons word rest ih =>
    have hword := hwords word List.mem_cons_self
    cases rest with
    | nil => simpa using hword
    | cons next rest =>
      have hrest := ih fun word hmem => hwords word (List.mem_cons_of_mem _ hmem)
      simp only [String.intercalate_cons_cons, String.toList_append, List.mem_append, not_or]
      exact ⟨⟨hword, hseparator⟩, hrest⟩

/-- The word without its last character, if that is the given one. -/
def strip? (last : Char) (word : String) : Option String :=
  if word.toList.getLast? = some last then some (String.ofList word.toList.dropLast) else none

theorem strip?_append (word : String) (last : Char) :
    strip? last (word ++ String.singleton last) = some word := by
  simp [strip?]

theorem strip?_of_notMem {last : Char} {word : String} (h : last ∉ word.toList) :
    strip? last word = none :=
  if_neg fun hlast => h (List.mem_of_getLast? hlast)

/-! ## Numbers -/

theorem isDigit_of_mem_nat {n : Nat} {c : Char} (hc : c ∈ (toString n).toList) : c.isDigit := by
  rw [Nat.toString_eq_ofList_toDigits, String.toList_ofList] at hc
  exact Nat.isDigit_of_mem_toDigits (by decide) (Nat.le_refl 10) hc

theorem exists_mem_nat (n : Nat) : ∃ c, c ∈ (toString n).toList := by
  rw [Nat.toString_eq_ofList_toDigits, String.toList_ofList]
  exact List.exists_mem_of_ne_nil _ Nat.toDigits_ne_nil

/-- A number is written as its absolute value, behind a sign if it is negative. -/
theorem int32_eq (value : Int32) :
    ∃ n : Nat, toString value = toString n ∨ toString value = "-" ++ toString n := by
  have hint : toString value = toString value.toInt := rfl
  rw [hint]
  cases value.toInt with
  | ofNat n => exact ⟨n, .inl rfl⟩
  | negSucc n => exact ⟨n + 1, .inr rfl⟩

theorem isDigit_or_minus_of_mem_int32 {value : Int32} {c : Char}
    (hc : c ∈ (toString value).toList) : c.isDigit ∨ c = '-' := by
  obtain ⟨n, h | h⟩ := int32_eq value
  · rw [h] at hc
    exact .inl (isDigit_of_mem_nat hc)
  · rw [h, String.toList_append] at hc
    rcases List.mem_append.mp hc with hminus | hdigit
    · exact .inr (by simpa using hminus)
    · exact .inl (isDigit_of_mem_nat hdigit)

theorem exists_digit_mem_int32 (value : Int32) : ∃ c ∈ (toString value).toList, c.isDigit := by
  obtain ⟨n, h⟩ := int32_eq value
  obtain ⟨c, hc⟩ := exists_mem_nat n
  refine ⟨c, ?_, isDigit_of_mem_nat hc⟩
  rcases h with h | h
  · rwa [h]
  · rw [h, String.toList_append]
    exact List.mem_append_right _ hc

/-- The number that a word writes in decimal. -/
def number? (word : String) : Option Int32 := word.toInt?.map Int32.ofInt

theorem number?_toString (value : Int32) : number? (toString value) = some value := by
  have hint : toString value = value.toInt.repr := rfl
  rw [number?, hint, Int.toInt?_repr, Option.map_some, Int32.ofInt_toInt]

end LineCompiler.Text
