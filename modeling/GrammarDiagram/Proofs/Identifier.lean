/-
GrammarDiagram/Proofs/Identifier.lean

Names of rules are identifiers.

An identifier is a text of small letters, digits and underscores that is not
empty.  What users write becomes one (`isIdentifier_normalize`), counters keep
it one, and a pattern that stands in for a rule never is one
(`not_isIdentifier_fragment`), so it cannot be taken for a name.
-/
import GrammarDiagram.Proofs.Atom
import GrammarDiagram.RuleSet.Synthesis

namespace GrammarDiagram

/-! ### Identifiers -/

namespace Name

/-- Small letters, digits and underscores, at least one of them. -/
def IsIdentifier (name : String) : Prop :=
  name ≠ "" ∧ ∀ c ∈ name.toList, Text.isSlugChar c

instance (name : String) : Decidable (IsIdentifier name) :=
  decidable_of_iff (name ≠ "" ∧ name.toList.all Text.isSlugChar)
    (and_congr_right' List.all_eq_true)

theorem isIdentifier_root : IsIdentifier root :=
  ⟨by decide, List.all_eq_true.mp (by decide)⟩

theorem IsIdentifier.not_mem {name : String} {c : Char} (h : IsIdentifier name)
    (hc : Text.isSlugChar c = false) : c ∉ name.toList := by
  intro hmem
  rw [h.2 c hmem] at hc
  cases hc

theorem isLower_iff (c : Char) : c.isLower ↔ 'a'.toNat ≤ c.toNat ∧ c.toNat ≤ 'z'.toNat :=
  Bool.and_eq_true_iff.trans (and_congr decide_eq_true_iff decide_eq_true_iff)

/-- The lower case of a capital letter is a small letter. -/
theorem isLower_toLower {c : Char} (h : c.isUpper) : c.toLower.isLower := by
  have hupper : c.val ≥ 'A'.val ∧ c.val ≤ 'Z'.val := of_decide_eq_true h
  have hlow : 'A'.toNat ≤ c.toNat := hupper.1
  have hhigh : c.toNat ≤ 'Z'.toNat := hupper.2
  have hA : 'A'.toNat = 65 := rfl
  have hZ : 'Z'.toNat = 90 := rfl
  have hlower : c.toLower.toNat = c.toNat + 32 := by
    unfold Char.toLower
    rw [dif_pos hupper]
    -- the sum stays far below the bound of the type
    exact (UInt32.toNat_add c.val ('a'.val - 'A'.val)).trans
      (Nat.mod_eq_of_lt (show c.toNat + 32 < _ by omega))
  have ha : 'a'.toNat = 97 := rfl
  have hz : 'z'.toNat = 122 := rfl
  rw [isLower_iff]
  omega

theorem isSlugChar_of_mem_slugChar {c d : Char} (h : d ∈ Text.slugChar c) :
    Text.isSlugChar d := by
  unfold Text.slugChar at h
  split at h
  · rename_i hc
    rw [List.mem_singleton.mp h]
    exact hc
  · split at h
    · rename_i hc
      rw [List.mem_singleton.mp h]
      simp [Text.isSlugChar, isLower_toLower hc]
    · split at h
      · rcases List.mem_pair.mp h with rfl | rfl <;> decide
      · split at h <;> rw [List.mem_singleton.mp h] <;> decide

theorem slugChar_ne_nil (c : Char) : Text.slugChar c ≠ [] := by
  unfold Text.slugChar
  repeat' split
  all_goals simp

theorem isIdentifier_slug {s : String} (hs : s ≠ "") : IsIdentifier (Text.slug s) := by
  constructor
  · intro h
    have hnil : s.toList.flatMap Text.slugChar = [] := by
      rw [← Text.toList_slug, h]
      rfl
    rw [List.flatMap_eq_nil_iff] at hnil
    rcases hcs : s.toList with - | ⟨c, cs⟩
    · exact hs (String.toList_eq_nil_iff.mp hcs)
    · exact slugChar_ne_nil c (hnil c (by simp [hcs]))
  · intro d hd
    rw [Text.toList_slug] at hd
    obtain ⟨c, -, hc⟩ := List.mem_flatMap.mp hd
    exact isSlugChar_of_mem_slugChar hc

/-- Identifiers may be put together. -/
theorem IsIdentifier.append {s t : String} (hs : ∀ c ∈ s.toList, Text.isSlugChar c)
    (ht : IsIdentifier t) : IsIdentifier (s ++ t) := by
  constructor
  · intro h
    exact ht.1 (String.append_eq_empty_iff.mp h).2
  · intro c hc
    rw [String.toList_append, List.mem_append] at hc
    rcases hc with hc | hc
    · exact hs c hc
    · exact ht.2 c hc

theorem isIdentifier_normalize {s : String} (hs : s ≠ "") : IsIdentifier (normalize s) := by
  rw [normalize]
  by_cases hdigit : startsWithDigit (Text.slug s)
  · rw [if_pos hdigit]
    exact .append (List.all_eq_true.mp (by decide)) (isIdentifier_slug hs)
  · rw [if_neg hdigit]
    exact isIdentifier_slug hs

theorem isIdentifier_numbered {name : String} (h : ∀ c ∈ name.toList, Text.isSlugChar c)
    (k : Nat) : IsIdentifier (numbered name k) := by
  refine .append h ⟨Nat.repr_ne_empty, ?_⟩
  intro c hc
  rw [Nat.toString_eq_repr, Nat.toList_repr] at hc
  have hdigit : c.isDigit := Nat.isDigit_of_mem_toDigits (by decide) (by decide) hc
  simp [Text.isSlugChar, hdigit]

theorem isIdentifier_unique {name : String} (h : IsIdentifier name) (taken : List String) :
    IsIdentifier (unique name taken) := by
  unfold unique
  split
  · exact isIdentifier_numbered h.2 _
  · exact h

end Name

/-! ### Patterns in the place of names -/

namespace Pattern

/-- The characters that a pattern in the place of a rule starts with. -/
theorem head_fragment (pattern : String) :
    ∃ c rest, (fragment pattern).toList = c :: rest ∧ (c = '"' ∨ c = '[' ∨ c = '(') := by
  unfold fragment
  split
  · rename_i h
    obtain ⟨opening, closing, rest, hdelimits, hp, -⟩ := exists_delimits_of_isAtom h
    cases hdelimits with
    | quotes => exact ⟨_, rest, hp, .inl rfl⟩
    | brackets => exact ⟨_, rest, hp, .inr (.inl rfl)⟩
  · refine ⟨'(', pattern.toList ++ [')'], ?_, .inr (.inr rfl)⟩
    simp [String.toList_append]

theorem fragment_ne_empty (pattern : String) : fragment pattern ≠ "" := by
  intro h
  obtain ⟨c, rest, hlist, -⟩ := head_fragment pattern
  rw [h] at hlist
  cases hlist

/-- A text that starts like a pattern in the place of a rule: with a quote, a
bracket or a parenthesis. -/
def IsFragment (s : String) : Prop := s.toList.head? ∈ [some '"', some '[', some '(']

instance (s : String) : Decidable (IsFragment s) :=
  inferInstanceAs (Decidable (s.toList.head? ∈ [some '"', some '[', some '(']))

theorem isFragment_fragment (pattern : String) : IsFragment (fragment pattern) := by
  obtain ⟨c, rest, hlist, hc⟩ := head_fragment pattern
  rw [IsFragment, hlist]
  rcases hc with rfl | rfl | rfl <;> simp

/-- What starts like a pattern cannot be taken for a name. -/
theorem IsFragment.not_isIdentifier {s : String} (h : IsFragment s) : ¬ Name.IsIdentifier s := by
  intro hid
  rcases hlist : s.toList with - | ⟨c, rest⟩
  · exact hid.1 (String.toList_inj.mp hlist)
  · have hslug : Text.isSlugChar c := hid.2 c (by rw [hlist]; exact List.mem_cons_self)
    simp only [IsFragment, hlist, List.head?_cons, List.mem_cons, Option.some.injEq,
      List.not_mem_nil, or_false] at h
    rcases h with rfl | rfl | rfl <;> revert hslug <;> decide

theorem not_isIdentifier_fragment (pattern : String) :
    ¬ Name.IsIdentifier (fragment pattern) :=
  (isFragment_fragment pattern).not_isIdentifier

end Pattern

end GrammarDiagram
