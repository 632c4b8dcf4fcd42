/-
GrammarDiagram/Proofs/Canonical.lean

The text of a grammar is canonical.

Cut at its line feeds, the text is the line of the root followed by one line for
each other rule with a body, and the names increase strictly by code point.  Each
line can be cut again at the first sign `::=`, since names have no spaces, so
nothing in a body is taken for the sign (`cutLine_line`).  The order in which rules
and successors were put leaves no trace: rule sets that are equal as maps have the
same bodies, and their names are permutations of each other, which sorting makes
equal (`render_eq_of_agrees`).
-/
import GrammarDiagram.Proofs.Closure
import Mathlib.Data.List.Perm.Subperm

namespace GrammarDiagram

/-! ### Tables that are equal as maps -/

namespace Table

variable {α : Type} [BEq α] [LawfulBEq α] {s t : Table α}

/-- The keys of tables that are equal as maps differ in their order only. -/
theorem perm_keys_of_sameMap (h : s.sameMap t) : s.keys.Perm t.keys := by
  obtain ⟨hsize, hentries⟩ := Bool.and_eq_true_iff.mp h
  rw [List.all_eq_true] at hentries
  have hsub : s.keys ⊆ t.keys := by
    intro k hk
    obtain ⟨e, he, rfl⟩ := List.mem_map.mp hk
    rw [← contains_iff_mem_keys, contains, eq_of_beq (hentries e he)]
    rfl
  refine (List.subperm_of_subset s.nodup_keys hsub).perm_of_length_le (Nat.le_of_eq ?_)
  rw [length_keys, length_keys, eq_of_beq hsize]

theorem get?_eq_of_sameMap (h : s.sameMap t) (k : String) : s.get? k = t.get? k := by
  obtain ⟨-, hentries⟩ := Bool.and_eq_true_iff.mp h
  rw [List.all_eq_true] at hentries
  rcases hs : s.get? k with - | v
  · -- a key that is missing in one table is missing in the other
    have hnot : k ∉ t.keys := by
      rw [← (perm_keys_of_sameMap h).mem_iff, ← contains_iff_mem_keys, contains, hs]
      simp
    rw [← contains_iff_mem_keys, contains, Option.not_isSome_iff_eq_none] at hnot
    exact hnot.symm
  · exact (eq_of_beq (hentries (k, v) (mem_entries_iff.mpr hs))).symm

end Table

/-! ### The order of code points -/

/-- The code points of a text. -/
def codePoints (s : String) : List Nat := s.toList.map Char.toNat

/-- A text stands before another one: at the first code point where they differ it
has the smaller one, or it ends there. -/
def Precedes (s t : String) : Prop := List.Lex (· < ·) (codePoints s) (codePoints t)

theorem precedes_of_le_of_ne {s t : String} (hle : s ≤ t) (hne : s ≠ t) : Precedes s t := by
  have hlt : s < t := by
    by_contra hnot
    exact hne (String.le_antisymm hle (String.not_lt.mp hnot))
  exact List.map_lt (fun _ _ hab => UInt32.lt_iff_toNat_lt.mp (Char.lt_def.mp hab))
    (String.lt_iff.mp hlt)

/-! ### Cutting lines -/

/-- Cut a text at the first place where the sign stands. -/
def cutAt (sign : List Char) : List Char → Option (List Char × List Char)
  | [] => none
  | c :: cs =>
    if sign.isPrefixOf (c :: cs) then some ([], (c :: cs).drop sign.length)
    else (cutAt sign cs).map fun p => (c :: p.1, p.2)

/-- Cut a line at the first sign of a definition. -/
def cutLine (l : List Char) : Option (String × String) :=
  (cutAt " ::= ".toList l).map fun p => (String.ofList p.1, String.ofList p.2)

/-- The sign is not found before its first character is. -/
theorem cutAt_append {mark : Char} {sign front : List Char} (hmark : mark ∉ front)
    (rest : List Char) :
    cutAt (mark :: sign) (front ++ mark :: sign ++ rest) = some (front, rest) := by
  induction front with
  | nil => simp [cutAt]
  | cons c front ih =>
    rw [List.mem_cons, not_or] at hmark
    have hfirst : ¬ (mark :: sign).isPrefixOf (c :: (front ++ mark :: sign ++ rest)) := by
      simp [hmark.1]
    rw [List.cons_append, List.cons_append, cutAt, if_neg hfirst, ih hmark.2]
    rfl

namespace RuleSet

variable {rs : RuleSet}

/-- A line is cut into its name and its body, whatever stands in the body. -/
theorem cutLine_line {name : String} (hname : Name.IsIdentifier name) (body : String) :
    cutLine (line name body).toList = some (name, body) := by
  have hspace : ' ' ∉ name.toList := hname.not_mem (by decide)
  have hcut : cutAt " ::= ".toList (line name body).toList = some (name.toList, body.toList) := by
    rw [toList_line, String.toList_append]
    exact cutAt_append hspace body.toList
  rw [cutLine, hcut]
  simp

/-! ### Lines in order -/

/-- What the line of the root says: its body, and the empty literal if it has none
or is absent. -/
def rootBody (rs : RuleSet) : String :=
  if rs.hasRule Name.root ∧ rs.body Name.root ≠ "" then rs.body Name.root else "\"\""

theorem lines_eq_rootBody (h : rs.lines ≠ []) :
    rs.lines = line Name.root rs.rootBody :: rs.ordinaryLines := by
  rcases rs.lines_cases with ⟨hnil, -⟩ | ⟨b, hlines, hb⟩
  · exact absurd hnil h
  · rw [hlines, rootBody]
    rcases hb with ⟨rfl, hempty, -⟩ | ⟨hrule, hbody, rfl⟩
    · rw [if_neg fun hroot => hroot.2 (hempty hroot.1)]
    · rw [if_pos ⟨hrule, hbody⟩]

theorem pairwise_sortedNames (rs : RuleSet) : rs.sortedNames.Pairwise (· ≤ ·) := by
  have hsorted : rs.sortedNames.Pairwise fun a b => decide (a ≤ b) = true := by
    refine List.pairwise_mergeSort (fun a b c hab hbc => ?_) (fun a b => ?_) rs.ordinary
    · exact decide_eq_true (String.le_trans (of_decide_eq_true hab) (of_decide_eq_true hbc))
    · simpa using String.le_total a b
  exact hsorted.imp of_decide_eq_true

/-- The names in front of the lines increase strictly. -/
theorem pairwise_bodiedNames (rs : RuleSet) : rs.bodiedNames.Pairwise Precedes := by
  have hle : rs.bodiedNames.Pairwise (· ≤ ·) :=
    rs.pairwise_sortedNames.sublist List.filter_sublist
  exact hle.imp₂ (fun _ _ => precedes_of_le_of_ne) rs.nodup_bodiedNames

/-! ### Rule sets that are equal as maps -/

section Agrees

variable {other : RuleSet} (h : rs.agrees other)
include h

theorem hasRule_eq_of_agrees (n : String) : rs.hasRule n = other.hasRule n := by
  rw [hasRule, hasRule, Table.contains, Table.contains,
    Table.get?_eq_of_sameMap (Bool.and_eq_true_iff.mp h).1]

theorem body_eq_of_agrees (n : String) : rs.body n = other.body n := by
  obtain ⟨hrules, hadjacency⟩ := Bool.and_eq_true_iff.mp h
  rw [body, body, patternOf, patternOf, ruleOf, ruleOf, successors, successors,
    Table.get?_eq_of_sameMap hrules, Table.get?_eq_of_sameMap hadjacency]

/-- Sorting undoes every change of order. -/
theorem sortedNames_eq_of_agrees : rs.sortedNames = other.sortedNames := by
  have hordinary : rs.ordinary.Perm other.ordinary :=
    (Table.perm_keys_of_sameMap (Bool.and_eq_true_iff.mp h).1).filter _
  refine List.Perm.eq_of_pairwise (fun _ _ _ _ => String.le_antisymm) rs.pairwise_sortedNames
    other.pairwise_sortedNames ?_
  exact (List.mergeSort_perm _ _).trans (hordinary.trans (List.mergeSort_perm _ _).symm)

theorem render_eq_of_agrees : rs.render = other.render := by
  have hbody : rs.body = other.body := funext (body_eq_of_agrees h)
  have hrest : rs.ordinaryLines = other.ordinaryLines := by
    rw [ordinaryLines, ordinaryLines, sortedNames_eq_of_agrees h, hbody]
  have hroot : rs.body? Name.root = other.body? Name.root := by
    rw [body?, body?, hasRule_eq_of_agrees h, hbody]
  rw [render, render, lines, lines, hrest, hroot]

end Agrees

/-! ### Canonical texts -/

/-- If names are identifiers and nothing has a line feed, the text of a grammar is
empty, and then no rule has a body, or its lines are that of the root and one for
each other rule with a body, in strictly increasing order of their names; and each
line can be cut into name and body again.  Rule sets that are equal as maps have the
same text. -/
theorem render_canonical (hnames : rs.Identified) (hunbroken : Over IsUnbroken IsUnbroken rs) :
    (rs.render = "" ∧ (∀ n, rs.hasRule n → rs.body n = "") ∨
      ∃ names : List String, names.Pairwise Precedes ∧
        (∀ n, n ∈ names ↔ rs.hasRule n ∧ n ≠ Name.root ∧ rs.body n ≠ "") ∧
        rs.render.toList.splitOn '\n' =
          (line Name.root rs.rootBody :: names.map fun n => line n (rs.body n)).map
            String.toList ∧
        (rs.render.toList.splitOn '\n').map cutLine =
          some (Name.root, rs.rootBody) :: names.map fun n => some (n, rs.body n)) ∧
      ∀ other : RuleSet, rs.agrees other → other.render = rs.render := by
  refine ⟨?_, fun other h => (render_eq_of_agrees h).symm⟩
  by_cases hne : rs.lines = []
  · refine .inl ⟨by rw [render, hne]; rfl, ?_⟩
    rcases rs.lines_cases with ⟨-, hnone⟩ | ⟨b, hlines, -⟩
    · exact hnone
    · rw [hne] at hlines
      cases hlines
  · refine .inr ⟨rs.bodiedNames, rs.pairwise_bodiedNames, fun _ => mem_bodiedNames_iff, ?_⟩
    have hlines := lines_eq_rootBody hne
    rw [ordinaryLines_eq] at hlines
    have hsplit := splitOn_render
      (not_mem_of_mem_lines hnames fun n hn => hunbroken.isUnbroken_body hn) hne
    refine ⟨by rw [hsplit, hlines], ?_⟩
    rw [hsplit, hlines, List.map_map, List.map_cons, List.map_map]
    congr 1
    · exact cutLine_line Name.isIdentifier_root _
    · refine List.map_congr_left fun n hn => ?_
      exact cutLine_line (hnames n (mem_bodiedNames_iff.mp hn).1) _

/-- Rules without a root.  One name is the beginning of another, a pattern holds the
sign of a definition, and a rule has no body. -/
def shuffledRules : RuleSet where
  rules := .named [⟨"b", "[0-9]"⟩, ⟨"a_b", "\" ::= \""⟩, ⟨"hub", ""⟩, ⟨"a", "[a-z]"⟩]
  adjacency := ⟨[("a", ["a_b", ""]), ("hub", [""])], by decide⟩

/-- The rules of `shuffledRules`, put in another order. -/
def reshuffledRules : RuleSet where
  rules := .named [⟨"a", "[a-z]"⟩, ⟨"hub", ""⟩, ⟨"b", "[0-9]"⟩, ⟨"a_b", "\" ::= \""⟩]
  adjacency := ⟨[("hub", [""]), ("a", ["a_b", ""])], by decide⟩

/-- Both are written as one text, in which the root is an empty literal and the rule
without a body is left out. -/
theorem render_canonical_shuffled :
    shuffledRules.Identified ∧ Over IsUnbroken IsUnbroken shuffledRules ∧
      shuffledRules.agrees reshuffledRules ∧ reshuffledRules.render = shuffledRules.render ∧
      ∃ names : List String, names.Pairwise Precedes ∧
        "a" ∈ names ∧ "a_b" ∈ names ∧ "hub" ∉ names ∧
        (shuffledRules.render.toList.splitOn '\n').map cutLine =
          some ("root", "\"\"") :: names.map fun n => some (n, shuffledRules.body n) := by
  have hall : ∀ n ∈ shuffledRules.rules.keys, Name.IsIdentifier n ∧
      IsUnbroken (shuffledRules.patternOf n) ∧
      ∀ t ∈ shuffledRules.successors n, IsUnbroken t := by decide
  have hkey : ∀ {n}, shuffledRules.hasRule n → n ∈ shuffledRules.rules.keys :=
    (Table.contains_iff_mem_keys _ _).mp
  have hid : shuffledRules.Identified := fun n hn => (hall n (hkey hn)).1
  have hover : Over IsUnbroken IsUnbroken shuffledRules :=
    ⟨fun hn => (hall _ (hkey hn)).2.1, fun hn => (hall _ (hkey hn)).2.2 _⟩
  have hagrees : shuffledRules.agrees reshuffledRules := by decide
  obtain ⟨⟨-, hnone⟩ | ⟨names, hsorted, hmem, -, hcut⟩, hsame⟩ := render_canonical hid hover
  · exact absurd (hnone "a" (by decide)) (by decide)
  · refine ⟨hid, hover, hagrees, hsame _ hagrees, names, hsorted, ?_, ?_, ?_, hcut⟩
    · exact (hmem "a").mpr (by decide)
    · exact (hmem "a_b").mpr (by decide)
    · exact fun hhub => absurd ((hmem "hub").mp hhub) (by decide)

end RuleSet

end GrammarDiagram
