import Mathlib.Data.List.Basic
import Mathlib.Data.List.Infix
import Mathlib.Tactic.Common

/-!
# Keywords at the start of a line

A parser that compares the start of a line with one keyword after the other accepts the line with
the first keyword that it begins with. If no keyword begins another, their order plays no part. What
it accepts is more than the lines whose first word is a keyword: the word may go on.

## Main definitions

* `keyword`, `codeOf` — the search
* `Incomparable` — no keyword begins another
* `word` — what stands in front of the first separator

## Main results

* `keyword_eq_some_iff` — the search finds the keyword that the line begins with
* `word_eq_iff_of_begins` — when that is the first word
-/

set_option autoImplicit false

namespace DuckChat

section Keywords

variable {α κ : Type} [BEq α] [LawfulBEq α]

/-- The first entry whose keyword the line begins with. -/
def keyword (table : List (List α × κ)) (inp : List α) : Option (List α × κ) :=
  table.find? fun e => e.1.isPrefixOf inp

/-- Its code, or the one for no keyword. -/
def codeOf (table : List (List α × κ)) (other : κ) (inp : List α) : κ :=
  ((keyword table inp).map Prod.snd).getD other

/-- No keyword begins that of another entry. -/
def Incomparable (table : List (List α × κ)) : Prop :=
  ∀ e ∈ table, ∀ e' ∈ table, e.1 <+: e'.1 → e = e'

/-- What stands in front of the first separator, or everything. -/
def word (sep : α) (inp : List α) : List α := inp.takeWhile (· != sep)

variable {table : List (List α × κ)} {other : κ} {inp kw : List α} {e : List α × κ} {sep : α}

omit [LawfulBEq α] in
/-- One comparison of the search. -/
theorem codeOf_cons : codeOf (e :: table) other inp =
    if e.1.isPrefixOf inp then e.2 else codeOf table other inp := by
  rw [codeOf, codeOf, keyword, keyword, List.find?_cons]
  split
  · next h => rw [if_pos h]; rfl
  · next h => rw [if_neg (ne_true_of_eq_false h)]

omit [BEq α] [LawfulBEq α] in
theorem Incomparable.eq_of_prefix (h : Incomparable table) {e' : List α × κ} (he : e ∈ table)
    (he' : e' ∈ table) (hp : e.1 <+: inp) (hp' : e'.1 <+: inp) : e = e' := by
  rcases List.prefix_or_prefix_of_prefix hp hp' with hle | hle
  · exact h e he e' he' hle
  · exact (h e' he' e he hle).symm

theorem mem_of_keyword (h : keyword table inp = some e) : e ∈ table ∧ e.1 <+: inp := by
  rw [keyword] at h
  have hp := List.find?_some h
  exact ⟨List.mem_of_find?_eq_some h, List.isPrefixOf_iff_prefix.mp hp⟩

/-- **The search** finds the one keyword that the line begins with. -/
theorem keyword_eq_some_iff (h : Incomparable table) :
    keyword table inp = some e ↔ e ∈ table ∧ e.1 <+: inp := by
  constructor
  · exact mem_of_keyword
  · rintro ⟨he, hp⟩
    cases hf : keyword table inp with
    | none =>
      exact absurd (List.isPrefixOf_iff_prefix.mpr hp) (List.find?_eq_none.mp hf e he)
    | some e' =>
      obtain ⟨he', hp'⟩ := mem_of_keyword hf
      rw [h.eq_of_prefix he he' hp hp']

theorem keyword_eq_none_iff : keyword table inp = none ↔ ∀ e ∈ table, ¬ e.1 <+: inp := by
  rw [keyword, List.find?_eq_none]
  simp only [List.isPrefixOf_iff_prefix]

omit [LawfulBEq α] in
theorem word_begins (sep : α) (inp : List α) : word sep inp <+: inp := List.takeWhile_prefix _

/-- The first word of a line that goes on behind a keyword. -/
theorem word_append (h : sep ∉ kw) (rest : List α) :
    word sep (kw ++ rest) = kw ++ word sep rest := by
  refine List.takeWhile_append_of_pos fun x hx => bne_iff_ne.mpr ?_
  rintro rfl
  exact h hx

/-- **The first word is the keyword** that the line begins with, unless it goes on. -/
theorem word_eq_iff_of_begins (h : sep ∉ kw) (hp : kw <+: inp) :
    word sep inp = kw ↔ ∀ x rest, inp = kw ++ x :: rest → x = sep := by
  obtain ⟨tail, rfl⟩ := hp
  rw [word_append h]
  cases tail with
  | nil => simp [word]
  | cons y ys =>
    simp only [List.append_cancel_left_eq, List.cons.injEq, and_imp]
    by_cases hy : y = sep
    · subst hy
      simp [word]
    · simp [word, hy]

end Keywords

end DuckChat
