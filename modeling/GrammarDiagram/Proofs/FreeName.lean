/-
GrammarDiagram/Proofs/FreeName.lean

Names that are given are free, and have the least counter that makes them so.

Counters are tried one after the other, and nothing in the search says that it
ends.  That it does is a matter of counting: the plain name and the counters that
were passed are different texts, and all of them are taken, so there are no more
of them than names taken (`le_card_of_forall_mem`).  Hence it is enough to look
through as many counters as there are names taken (`isLeast_freeCounter`), and
the search that goes on for as long as it has to stops at the same counter
(`mem_eval_of_isLeast`).
-/
import GrammarDiagram.RuleSet.Name
import Mathlib.Computability.StateTransition
import Mathlib.Order.Interval.Finset.Nat

namespace GrammarDiagram.Name

variable {name : String} {taken : List String}

/-! ### Counters -/

theorem numbered_injective (name : String) : Function.Injective (numbered name) := by
  intro j k h
  have hdigits : Nat.toDigits 10 j = Nat.toDigits 10 k := by
    simpa [numbered, String.toList_append] using congrArg String.toList h
  -- a number can be read back from its digits
  rw [← Nat.ofDigitChars_ten_toDigits (n := j), hdigits, Nat.ofDigitChars_ten_toDigits]

theorem numbered_ne (name : String) (k : Nat) : numbered name k ≠ name := by
  intro h
  have h' := congrArg String.toList h
  simp [numbered, String.toList_append, Nat.toDigits_ne_nil] at h'

/-- Where a name is taken and so are its counters below `k`, these are `k` names. -/
theorem le_card_of_forall_mem {k : Nat} (h : name ∈ taken) (hk : 1 ≤ k)
    (hall : ∀ j, 1 ≤ j → j < k → numbered name j ∈ taken) : k ≤ taken.toFinset.card := by
  have hsub : insert name ((Finset.Ico 1 k).image (numbered name)) ⊆ taken.toFinset := by
    intro x hx
    rw [List.mem_toFinset]
    rcases Finset.mem_insert.mp hx with rfl | hx
    · exact h
    · obtain ⟨j, hj, rfl⟩ := Finset.mem_image.mp hx
      rw [Finset.mem_Ico] at hj
      exact hall j hj.1 hj.2
  have hplain : name ∉ (Finset.Ico 1 k).image (numbered name) := by
    intro hmem
    obtain ⟨j, -, hj⟩ := Finset.mem_image.mp hmem
    exact numbered_ne name j hj
  have hcard : (insert name ((Finset.Ico 1 k).image (numbered name))).card = k := by
    rw [Finset.card_insert_of_notMem hplain,
      Finset.card_image_of_injective _ (numbered_injective name), Nat.card_Ico]
    omega
  rw [← hcard]
  exact Finset.card_le_card hsub

/-! ### The least counter -/

/-- The counters that make a name free. -/
def freeCounters (name : String) (taken : List String) : Set Nat :=
  {k | 1 ≤ k ∧ numbered name k ∉ taken}

theorem isLeast_freeCounter (h : name ∈ taken) :
    IsLeast (freeCounters name taken) (freeCounter name taken) := by
  rcases hfind : (List.range' 1 taken.length).find?
      fun k => !taken.contains (numbered name k) with - | k
  · -- a search without success would have passed more counters than there are names
    have hall : ∀ j, 1 ≤ j → j < taken.length + 1 → numbered name j ∈ taken := by
      intro j hj hlt
      have hno := List.find?_eq_none.mp hfind j (List.mem_range'_1.mpr ⟨hj, by omega⟩)
      simpa using hno
    have hcard := le_card_of_forall_mem h (Nat.le_add_left 1 _) hall
    have hlength := taken.toFinset_card_le
    omega
  · obtain ⟨hfree, hmem, hbelow⟩ := List.find?_range'_eq_some.mp hfind
    rw [freeCounter, hfind, Option.getD_some]
    refine ⟨⟨(List.mem_range'_1.mp hmem).1, by simpa using hfree⟩, fun j hj => ?_⟩
    by_contra hlt
    have hpassed := hbelow j hj.1 (by omega)
    simp [hj.2] at hpassed

/-- The counters below the least one are taken. -/
theorem numbered_mem_of_lt {k : Nat} (h : IsLeast (freeCounters name taken) k) {j : Nat}
    (hj : 1 ≤ j) (hlt : j < k) : numbered name j ∈ taken := by
  by_contra hfree
  have hle : k ≤ j := h.2 ⟨hj, hfree⟩
  omega

theorem unique_of_mem (h : name ∈ taken) :
    unique name taken = numbered name (freeCounter name taken) :=
  if_pos (List.contains_iff_mem.mpr h)

theorem unique_of_not_mem (h : name ∉ taken) : unique name taken = name :=
  if_neg (mt List.contains_iff_mem.mp h)

/-- A unique name is free. -/
theorem unique_not_mem (name : String) (taken : List String) : unique name taken ∉ taken := by
  by_cases h : name ∈ taken
  · rw [unique_of_mem h]
    exact (isLeast_freeCounter h).1.2
  · rwa [unique_of_not_mem h]

/-- It does not matter in which order and how often the taken names are listed. -/
theorem unique_congr {other : List String} (h : ∀ x, x ∈ other ↔ x ∈ taken) :
    unique name other = unique name taken := by
  by_cases hname : name ∈ taken
  · have hother : name ∈ other := (h name).mpr hname
    have hcounters : freeCounters name other = freeCounters name taken := by
      simp only [freeCounters, h]
    have hleast := isLeast_freeCounter hother
    rw [hcounters] at hleast
    rw [unique_of_mem hname, unique_of_mem hother, hleast.unique (isLeast_freeCounter hname)]
  · rw [unique_of_not_mem hname, unique_of_not_mem (mt (h name).mp hname)]

/-! ### The search without a bound -/

/-- One turn of the search: a counter that is taken is passed, and the search stops
at one that is free. -/
def nextCounter? (name : String) (taken : List String) (k : Nat) : Option Nat :=
  if numbered name k ∈ taken then some (k + 1) else none

theorem reaches_of_forall_mem {k : Nat} (hk : 1 ≤ k)
    (hall : ∀ j, 1 ≤ j → j < k → numbered name j ∈ taken) :
    StateTransition.Reaches (nextCounter? name taken) 1 k := by
  induction k, hk using Nat.le_induction with
  | base => exact .refl
  | succ k hk ih =>
    have hreaches := ih fun j hj hlt => hall j hj (by omega)
    exact hreaches.tail (if_pos (hall k hk (by omega)))

/-- The search comes to the least counter and stops there. -/
theorem mem_eval_of_isLeast {k : Nat} (h : IsLeast (freeCounters name taken) k) :
    k ∈ StateTransition.eval (nextCounter? name taken) 1 :=
  StateTransition.mem_eval.mpr
    ⟨reaches_of_forall_mem h.1.1 fun _ => numbered_mem_of_lt h, if_neg h.1.2⟩

/-- A unique name is free.  It is the name itself if that is free, and otherwise the
name with the counter at which the search from one on ends: the least that makes it
free, which is no more than the number of names taken.  Only which names are taken
matters. -/
theorem unique_least_free (name : String) (taken : List String) :
    unique name taken ∉ taken ∧
    (name ∉ taken → unique name taken = name) ∧
    (name ∈ taken → ∃ k, k ∈ StateTransition.eval (nextCounter? name taken) 1 ∧
      unique name taken = name ++ toString k ∧
      IsLeast {k | 1 ≤ k ∧ name ++ toString k ∉ taken} k ∧ k ≤ taken.toFinset.card) ∧
    ∀ other : List String, other.toFinset = taken.toFinset →
      unique name other = unique name taken := by
  refine ⟨unique_not_mem name taken, unique_of_not_mem, fun h => ?_, fun other hother => ?_⟩
  · have hleast := isLeast_freeCounter h
    exact ⟨_, mem_eval_of_isLeast hleast, unique_of_mem h, hleast,
      le_card_of_forall_mem h hleast.1.1 fun _ => numbered_mem_of_lt hleast⟩
  · refine unique_congr fun x => ?_
    rw [← List.mem_toFinset, hother, List.mem_toFinset]

/-- The counters one and two are taken, the first of them twice, and the fourth is
not needed. -/
theorem unique_least_free_digit :
    unique "digit" ["digit", "digit1", "digit4", "digit2", "digit1"] = "digit3" ∧
      3 ∈ StateTransition.eval
        (nextCounter? "digit" ["digit", "digit1", "digit4", "digit2", "digit1"]) 1 ∧
      3 ≤ ["digit", "digit1", "digit4", "digit2", "digit1"].toFinset.card := by
  have hunique : unique "digit" ["digit", "digit1", "digit4", "digit2", "digit1"] = "digit3" := by
    decide
  obtain ⟨-, -, htaken, -⟩ :=
    unique_least_free "digit" ["digit", "digit1", "digit4", "digit2", "digit1"]
  obtain ⟨k, hk, hname, -, hcard⟩ := htaken (by decide)
  have hthree : k = 3 := numbered_injective "digit" (hname.symm.trans hunique)
  rw [hthree] at hk hcard
  exact ⟨hunique, hk, hcard⟩

end GrammarDiagram.Name
