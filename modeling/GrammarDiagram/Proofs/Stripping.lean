/-
GrammarDiagram/Proofs/Stripping.lean

Stripping drops blanks and nothing else.

What is left of a text is a part of it (`stripChars_sublist`), and with the
blanks inside taken out as well it does not matter whether the text was
stripped (`filter_stripChars`).  So a text is stripped to nothing exactly if it
is blank (`strip_eq_empty_iff`).

Texts that are stripped already stay what they are, and two of them with a space
between them lose the space only if one of them is empty (`strip_append`).  So it
does not matter in which order stripped texts are put together
(`strip_append_assoc`).
-/
import GrammarDiagram.Text.Blank
import Mathlib.Data.List.DropRight
import Mathlib.Data.List.TakeWhile

namespace GrammarDiagram.Text

theorem stripChars_sublist (cs : List Char) : (stripChars cs).Sublist cs := by
  have hback := (List.dropWhile_sublist isBlank (l := (cs.dropWhile isBlank).reverse)).reverse
  rw [List.reverse_reverse] at hback
  exact hback.trans (List.dropWhile_sublist isBlank)

section Filter

variable {keep : Char → Bool} (hkeep : ∀ c, isBlank c → keep c = false)
include hkeep

theorem filter_dropWhile_isBlank (cs : List Char) :
    (cs.dropWhile isBlank).filter keep = cs.filter keep := by
  induction cs with
  | nil => rfl
  | cons c rest ih =>
    by_cases hc : isBlank c
    · rw [List.dropWhile_cons_of_pos hc, ih, List.filter_cons, hkeep c hc]
      rfl
    · rw [List.dropWhile_cons_of_neg hc]

theorem filter_stripChars (cs : List Char) : (stripChars cs).filter keep = cs.filter keep := by
  rw [stripChars, List.filter_reverse, filter_dropWhile_isBlank hkeep, List.filter_reverse,
    filter_dropWhile_isBlank hkeep, List.reverse_reverse]

end Filter

/-- Blank texts and no others are stripped to nothing. -/
theorem stripChars_eq_nil_iff {cs : List Char} : stripChars cs = [] ↔ ∀ c ∈ cs, isBlank c := by
  constructor
  · intro h c hc
    have hfilter : cs.filter (fun c => !isBlank c) = [] := by
      rw [← filter_stripChars (by simp), h]
      rfl
    simpa using List.filter_eq_nil_iff.mp hfilter c hc
  · intro h
    have hdrop : cs.dropWhile isBlank = [] := List.dropWhile_eq_nil_iff.mpr h
    rw [stripChars, hdrop]
    rfl

theorem strip_eq_empty_iff {s : String} : strip s = "" ↔ ∀ c ∈ s.toList, isBlank c := by
  rw [← String.toList_inj, toList_strip]
  exact stripChars_eq_nil_iff

/-! ### Stripped texts -/

/-- Characters that neither start nor end with a blank. -/
def BareEnds (cs : List Char) : Prop :=
  (∀ c ∈ cs.head?, isBlank c = false) ∧ ∀ c ∈ cs.getLast?, isBlank c = false

theorem isBlank_of_mem_head?_dropWhile {cs : List Char} {c : Char}
    (h : c ∈ (cs.dropWhile isBlank).head?) : isBlank c = false := by
  rw [← List.find?_not_eq_head?_dropWhile] at h
  simpa using List.find?_some h

theorem bareEnds_stripChars (cs : List Char) : BareEnds (stripChars cs) := by
  constructor
  · -- the rest is a front part of what has no blank in front
    intro c hc
    obtain ⟨rest, hrest⟩ : stripChars cs <+: cs.dropWhile isBlank := List.rdropWhile_prefix ..
    refine @isBlank_of_mem_head?_dropWhile cs c ?_
    rw [← hrest, List.head?_append, Option.mem_def.mp hc]
    rfl
  · intro c hc
    rw [stripChars, List.getLast?_reverse] at hc
    exact isBlank_of_mem_head?_dropWhile hc

theorem dropWhile_eq_self_of_head {cs : List Char} (h : ∀ c ∈ cs.head?, isBlank c = false) :
    cs.dropWhile isBlank = cs := by
  rcases cs with - | ⟨c, rest⟩
  · rfl
  · exact List.dropWhile_cons_of_neg (by simp [h c rfl])

/-- Nothing is stripped from a text that has no blank at either end. -/
theorem stripChars_eq_self_iff {cs : List Char} : stripChars cs = cs ↔ BareEnds cs := by
  constructor
  · intro h
    rw [← h]
    exact bareEnds_stripChars cs
  · intro h
    have hback : cs.reverse.dropWhile isBlank = cs.reverse :=
      dropWhile_eq_self_of_head (by rw [List.head?_reverse]; exact h.2)
    rw [stripChars, dropWhile_eq_self_of_head h.1, hback, List.reverse_reverse]

/-- A text without blanks at either end. -/
def IsStripped (s : String) : Prop := BareEnds s.toList

theorem isStripped_iff {s : String} : IsStripped s ↔ strip s = s := by
  rw [IsStripped, ← stripChars_eq_self_iff, ← toList_strip, String.toList_inj]

theorem isStripped_strip (s : String) : IsStripped (strip s) := by
  rw [IsStripped, toList_strip]
  exact bareEnds_stripChars s.toList

theorem isStripped_of_toList {s : String} {c d : Char} {cs : List Char}
    (hs : s.toList = c :: (cs ++ [d])) (hc : isBlank c = false) (hd : isBlank d = false) :
    IsStripped s := by
  rw [IsStripped, hs]
  refine ⟨fun b hb => ?_, fun b hb => ?_⟩
  · cases hb
    exact hc
  · rw [← List.cons_append, List.getLast?_concat] at hb
    cases hb
    exact hd

theorem stripChars_space_cons (cs : List Char) : stripChars (' ' :: cs) = stripChars cs := by
  rw [stripChars, List.dropWhile_cons_of_pos (by decide), stripChars]

theorem stripChars_concat_space {cs : List Char} (h : BareEnds cs) :
    stripChars (cs ++ [' ']) = cs := by
  rcases hcs : cs with - | ⟨c, rest⟩
  · decide
  · rw [← hcs]
    have hfront : (cs ++ [' ']).dropWhile isBlank = cs ++ [' '] := by
      apply dropWhile_eq_self_of_head
      rw [hcs] at h ⊢
      exact h.1
    have hback : cs.reverse.dropWhile isBlank = cs.reverse :=
      dropWhile_eq_self_of_head (by rw [List.head?_reverse]; exact h.2)
    rw [stripChars, hfront, List.reverse_append, List.reverse_singleton, List.singleton_append,
      List.dropWhile_cons_of_pos (by decide), hback, List.reverse_reverse]

/-- Two texts with a space between them, unless one of them is empty. -/
def spaced (p q : String) : String :=
  if p = "" then q else if q = "" then p else p ++ " " ++ q

/-- Stripping two stripped texts with a space between them takes the space away
where it stands at an end. -/
theorem strip_append {p q : String} (hp : IsStripped p) (hq : IsStripped q) :
    strip (p ++ " " ++ q) = spaced p q := by
  have hlist : (p ++ " " ++ q).toList = p.toList ++ ' ' :: q.toList := by simp
  rw [← String.toList_inj, toList_strip, hlist, spaced]
  by_cases hpe : p = ""
  · rw [if_pos hpe, hpe]
    exact (stripChars_space_cons _).trans (stripChars_eq_self_iff.mpr hq)
  · rw [if_neg hpe]
    by_cases hqe : q = ""
    · rw [if_pos hqe, hqe]
      exact stripChars_concat_space hp
    · rw [if_neg hqe, hlist, stripChars_eq_self_iff]
      have hpl : p.toList ≠ [] := fun h => hpe (String.toList_eq_nil_iff.mp h)
      have hql : q.toList ≠ [] := fun h => hqe (String.toList_eq_nil_iff.mp h)
      constructor
      · rw [List.head?_append_of_ne_nil _ hpl]
        exact hp.1
      · rw [List.getLast?_append_of_ne_nil _ (List.cons_ne_nil _ _),
          List.getLast?_cons_of_ne_nil hql]
        exact hq.2

theorem spaced_assoc (p q r : String) : spaced (spaced p q) r = spaced p (spaced q r) := by
  unfold spaced
  by_cases hp : p = ""
  · simp [hp]
  · by_cases hq : q = ""
    · simp [hp, hq]
    · by_cases hr : r = ""
      · simp [hp, hq, hr]
      · simp [hp, hq, hr, String.append_assoc]

/-- It does not matter in which order three stripped texts are put together. -/
theorem strip_append_assoc {p q r : String} (hp : IsStripped p) (hq : IsStripped q)
    (hr : IsStripped r) :
    strip (strip (p ++ " " ++ q) ++ " " ++ r) = strip (p ++ " " ++ strip (q ++ " " ++ r)) := by
  rw [strip_append (isStripped_strip _) hr, strip_append hp (isStripped_strip _),
    strip_append hp hq, strip_append hq hr, spaced_assoc]

end GrammarDiagram.Text
