import Mathlib.Data.List.Basic

/-!
# Text in groups

A `Grouping α k` cuts a nonempty text into groups from the right: every group but the first
has exactly `k` letters, the first has between one and `k`. It is rendered with a separator
before each group but the first.

* `Grouping.filter_render`: dropping the separators of the rendered text gives the text back.
* `Grouping.head?_render` and `Grouping.getLast?_render`: a rendered text starts and ends
  with a letter of the text, so with no separator.
* `Grouping.separated_splitLast` and `Grouping.flatten_splitLast`: a first part that is still
  too long loses its end to a new group. This is one step of an algorithm that inserts the
  separators from the right.
-/

namespace TmcExamples

universe u

/-- A text in groups of `k` letters, the first of which may be shorter. -/
structure Grouping (α : Type u) (k : ℕ) where
  first : List α
  groups : List (List α)
  first_pos : 0 < first.length
  first_le : first.length ≤ k
  length_groups : ∀ g ∈ groups, g.length = k

/-- The letters of groups, each group after a separator. -/
def separated {α : Type u} (sep : α) (groups : List (List α)) : List α :=
  groups.flatMap fun g => sep :: g

namespace Grouping

variable {α : Type u} {k : ℕ}

/-- The letters of the text. -/
def text (t : Grouping α k) : List α := t.first ++ t.groups.flatten

/-- The text with a separator between its groups. -/
def render (sep : α) (t : Grouping α k) : List α := t.first ++ separated sep t.groups

/-! ### One separator more -/

private theorem separated_cons (sep : α) (g : List α) (groups : List (List α)) :
    separated sep (g :: groups) = sep :: g ++ separated sep groups := rfl

private theorem separated_concat (sep : α) (groups : List (List α)) (g : List α) :
    separated sep (groups ++ [g]) = separated sep groups ++ sep :: g := by
  rw [separated, List.flatMap_append, List.flatMap_singleton]
  rfl

/-- Making a group of the end of the part before the groups keeps the letters. -/
theorem flatten_splitLast (first : List α) (groups : List (List α)) {i : ℕ} :
    first.take i ++ (first.drop i :: groups).flatten = first ++ groups.flatten := by
  rw [List.flatten_cons, ← List.append_assoc, List.take_append_drop]

/-- Inserting a separator in the part before the groups makes the rest of it a group. -/
theorem separated_splitLast (sep : α) (first : List α) (groups : List (List α)) {i : ℕ}
    (hi : i ≤ first.length) :
    (first ++ separated sep groups).take i ++ [sep] ++ (first ++ separated sep groups).drop i
      = first.take i ++ separated sep (first.drop i :: groups) := by
  rw [List.take_append_of_le_length hi, List.drop_append_of_le_length hi, separated_cons,
    List.append_assoc]
  rfl

/-! ### Taking the separators out -/

variable [DecidableEq α] {sep : α}

private theorem filter_separated {groups : List (List α)} (h : sep ∉ groups.flatten) :
    (separated sep groups).filter (· ≠ sep) = groups.flatten := by
  induction groups with
  | nil => rfl
  | cons g groups ih =>
    rw [List.flatten_cons, List.mem_append, not_or] at h
    have hg : g.filter (· ≠ sep) = g := by
      rw [List.filter_eq_self]
      intro c hc
      simpa using fun he : c = sep => h.1 (he ▸ hc)
    rw [separated_cons, List.filter_append, ih h.2, List.filter_cons_of_neg (by simp), hg,
      List.flatten_cons]

/-- **Round trip.** A rendered text without its separators is the text. -/
theorem filter_render {t : Grouping α k} (h : sep ∉ t.text) :
    (t.render sep).filter (· ≠ sep) = t.text := by
  rw [text, List.mem_append, not_or] at h
  have hfirst : t.first.filter (· ≠ sep) = t.first := by
    rw [List.filter_eq_self]
    intro c hc
    simpa using fun he : c = sep => h.1 (he ▸ hc)
  rw [render, List.filter_append, hfirst, filter_separated h.2, text]

omit [DecidableEq α]

/-! ### The ends of a rendered text -/

/-- A rendered text starts as the text does. -/
theorem head?_render (t : Grouping α k) : (t.render sep).head? = t.text.head? := by
  obtain ⟨c, l, hfirst⟩ := List.exists_cons_of_length_pos t.first_pos
  rw [render, text, hfirst]
  rfl

/-- A rendered text ends as the text does. -/
theorem getLast?_render (t : Grouping α k) : (t.render sep).getLast? = t.text.getLast? := by
  rcases List.eq_nil_or_concat t.groups with hnil | ⟨groups, g, hg⟩
  · rw [render, text, hnil]
    rfl
  · -- The last group is not empty, because it is as long as the first one may be.
    have hlen : 0 < g.length := by
      rw [t.length_groups g (by rw [hg]; simp)]
      exact Nat.lt_of_lt_of_le t.first_pos t.first_le
    have hne : g ≠ [] := List.ne_nil_of_length_pos hlen
    have hlast : separated sep t.groups = separated sep groups ++ sep :: g := by
      rw [hg, List.concat_eq_append, separated_concat]
    have hflat : t.groups.flatten = groups.flatten ++ g := by
      rw [hg, List.concat_eq_append, List.flatten_append, List.flatten_singleton]
    rw [render, text, hlast, hflat, ← List.append_assoc, ← List.append_assoc,
      List.getLast?_append_of_ne_nil _ hne, List.getLast?_append_of_ne_nil _ (List.cons_ne_nil _ _),
      List.getLast?_cons]
    simp [List.getLast?_eq_some_getLast hne]

end Grouping

end TmcExamples
