import TmcExamples.Format.Grouping
import Mathlib.Algebra.Order.Group.Int

/-!
# Thousands separators

`formatWithCommas` of `chan_bench.cpp`, `queue_bench.cpp` and `exec_st_roundtrip_bench.cpp` and
`formatElementsPerSec` of `pipeline.cpp` and `pipeline_fifo.cpp` print a number with a comma
before every group of three digits. All of them run one loop over the decimal digits, here
`insertCommas`: it inserts the commas from right to left into the string that it is indexing,
at positions counted from the length that the string had before.

A string is a list of characters. `insert` is `std::string::insert`, which throws for a position
past the end; a run of the loop in which it throws has no result.
-/

namespace TmcExamples

namespace Format

/-- `s.insert(pos, t)`, which throws `std::out_of_range` for a position past the end. -/
def insert (s : List Char) (pos : ℕ) (t : List Char) : Option (List Char) :=
  if pos ≤ s.length then some (s.take pos ++ t ++ s.drop pos) else none

/-- The loop `while (i > 0) { s.insert(i, ","); i -= 3; }`. -/
def insertCommas (s : List Char) (i : ℤ) : Option (List Char) :=
  if 0 < i then (insert s i.toNat [',']).bind fun s => insertCommas s (i - 3) else some s
termination_by i.toNat

/-- The digits that `std::to_string` prints, with commas. -/
def formatWithCommas (n : ℕ) : Option (List Char) :=
  let s := Nat.toDigits 10 n
  insertCommas s (s.length - 3)

/-- `formatElementsPerSec`, for the conversion `elementsPerSec` of a duration in milliseconds to
a rate, which the source computes in floating point. -/
def formatElementsPerSec (elementsPerSec : ℕ → ℕ) (durMs : ℕ) : Option (List Char) :=
  let s := Nat.toDigits 10 (elementsPerSec durMs)
  insertCommas s (s.length - 3)

/-! ### The loop -/

private theorem insertCommas_of_pos {s : List Char} {i : ℕ} (hi : 0 < i) (hle : i ≤ s.length) :
    insertCommas s i = insertCommas (s.take i ++ [','] ++ s.drop i) (i - 3) := by
  rw [insertCommas, if_pos (by omega), Int.toNat_natCast, insert, if_pos hle, Option.bind_some]

/-- The loop with the part `first` still to be cut and the groups behind it already separated.
The index is three short of the end of `first`, at least until `first` is a group itself. -/
private theorem insertCommas_eq_render (first : List Char) (groups : List (List Char))
    (hpos : 0 < first.length) (hgroups : ∀ g ∈ groups, g.length = 3) :
    ∃ t : Grouping Char 3, t.text = first ++ groups.flatten ∧
      insertCommas (first ++ separated ',' groups) (first.length - 3) = some (t.render ',') := by
  induction hn : first.length using Nat.strong_induction_on generalizing first groups with
  | _ n ih =>
  by_cases hle : n ≤ 3
  · -- The index is not positive any more: the loop ends and `first` is the first group.
    refine ⟨⟨first, groups, hpos, hn ▸ hle, hgroups⟩, rfl, ?_⟩
    rw [insertCommas, if_neg (by omega)]
    rfl
  · -- One round: the last three characters of `first` become a group.
    obtain ⟨i, rfl⟩ : ∃ i, n = i + 3 := ⟨n - 3, by omega⟩
    have hi : 0 < i := by omega
    have htake : (first.take i).length = i := by rw [List.length_take]; omega
    have hdrop : (first.drop i).length = 3 := by rw [List.length_drop]; omega
    obtain ⟨t, htext, hrender⟩ := ih i (by omega) (first.take i) (first.drop i :: groups)
      (by omega) (List.forall_mem_cons.mpr ⟨hdrop, hgroups⟩) htake
    refine ⟨t, by rw [htext, Grouping.flatten_splitLast first groups], ?_⟩
    have hindex : ((i + 3 : ℕ) : ℤ) - 3 = i := by omega
    have hlen : i ≤ (first ++ separated ',' groups).length := by
      rw [List.length_append]
      omega
    rw [hindex, insertCommas_of_pos hi hlen, Grouping.separated_splitLast ',' first groups
      (by omega), hrender]

/-! ### The formatted number -/

private theorem comma_not_mem_toDigits (n : ℕ) : ',' ∉ Nat.toDigits 10 n := by
  intro h
  have hdigit := Nat.isDigit_of_mem_toDigits (by decide) (by decide) h
  exact absurd hdigit (by decide)

/-- The digits of `n` grouped by thousands are a text that the loop renders. -/
private theorem insertCommas_toDigits (n : ℕ) : ∃ t : Grouping Char 3, t.text = Nat.toDigits 10 n ∧
    insertCommas (Nat.toDigits 10 n) ((Nat.toDigits 10 n).length - 3) = some (t.render ',') := by
  obtain ⟨t, htext, h⟩ := insertCommas_eq_render (Nat.toDigits 10 n) []
    Nat.length_toDigits_pos (fun g hg => absurd hg List.not_mem_nil)
  rw [List.flatten_nil, List.append_nil] at htext
  rw [separated, List.flatMap_nil, List.append_nil] at h
  exact ⟨t, htext, h⟩

/-- What a number printed with commas looks like: digits in groups, the first of one to three
digits and every other one of three digits after a comma, with no comma at either end. Without
the commas it is the decimal digits of the number. -/
structure ThousandsSeparated (n : ℕ) (s : List Char) : Prop where
  groups : ∃ first : List Char, ∃ groups : List (List Char),
    s = first ++ groups.flatMap (fun g => ',' :: g) ∧
    1 ≤ first.length ∧ first.length ≤ 3 ∧ (∀ c ∈ first, c.isDigit) ∧
    ∀ g ∈ groups, g.length = 3 ∧ ∀ c ∈ g, c.isDigit
  digits : s.filter (· ≠ ',') = Nat.toDigits 10 n
  head_ne : s.head? ≠ some ','
  last_ne : s.getLast? ≠ some ','

/-- A grouping of the digits, written out, is what the function should return. -/
theorem ThousandsSeparated.render {n : ℕ} {t : Grouping Char 3}
    (ht : t.text = Nat.toDigits 10 n) : ThousandsSeparated n (t.render ',') := by
  have hcomma : ',' ∉ t.text := ht ▸ comma_not_mem_toDigits n
  have hdigit : ∀ c ∈ t.text, c.isDigit := fun c hc =>
    Nat.isDigit_of_mem_toDigits (by decide) (by decide) (ht ▸ hc)
  refine ⟨⟨t.first, t.groups, rfl, t.first_pos, t.first_le, ?_, ?_⟩, ?_, ?_, ?_⟩
  · exact fun c hc => hdigit c (List.mem_append_left _ hc)
  · intro g hg
    refine ⟨t.length_groups g hg, fun c hc => hdigit c (List.mem_append_right _ ?_)⟩
    exact List.mem_flatten_of_mem hg hc
  · rw [Grouping.filter_render hcomma, ht]
  · rw [Grouping.head?_render]
    exact fun h => hcomma (List.mem_of_head? h)
  · rw [Grouping.getLast?_render]
    exact fun h => hcomma (List.mem_of_getLast? h)

/-- **Thousands separators.** For every number the loop ends, no insertion is past the end of
the string, and the result is the number's digits grouped by thousands. -/
theorem formatWithCommas_thousandsSeparated :
    (∀ n, ∃ s, formatWithCommas n = some s ∧ ThousandsSeparated n s) ∧
      ∀ elementsPerSec : ℕ → ℕ, ∀ durMs, ∃ s, formatElementsPerSec elementsPerSec durMs = some s ∧
        ThousandsSeparated (elementsPerSec durMs) s := by
  constructor
  · intro n
    obtain ⟨t, htext, h⟩ := insertCommas_toDigits n
    exact ⟨t.render ',', h, .render htext⟩
  · intro elementsPerSec durMs
    obtain ⟨t, htext, h⟩ := insertCommas_toDigits (elementsPerSec durMs)
    exact ⟨t.render ',', h, .render htext⟩

example : formatWithCommas 1234567 = some "1,234,567".toList := by
  simp [formatWithCommas, insertCommas, insert, Nat.toDigits, Nat.toDigitsCore]

end Format

end TmcExamples
