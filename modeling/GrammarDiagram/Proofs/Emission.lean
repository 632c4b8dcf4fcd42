/-
GrammarDiagram/Proofs/Emission.lean

Which rules the text of a grammar defines.

The text is cut at its line feeds, and it defines a rule if one of the pieces
starts with the name of the rule and the sign `::=`.  A rule is hollow if there
is nothing to write in its body: its pattern is blank and the end is all that
follows.  Where successors can be seen in print, these are the rules with an
empty body (`body_eq_empty_iff`).  The lines are that of the root and those of
the other rules with a body (`lines_cases`), so rules with a body are defined
(`defines_of_body`), and the root is as soon as anything is (`defines_root`).
If nothing in print has a line feed, no other rule is
(`body_ne_empty_of_defines`).
-/
import GrammarDiagram.Proofs.Reduction
import GrammarDiagram.Proofs.Stripping
import GrammarDiagram.RuleSet.Emission

namespace GrammarDiagram

/-! ### Cutting texts into lines -/

section Lines

/-- Cutting a joined text cuts the parts. -/
theorem splitOn_intercalate_lines {ls : List (List Char)} (hls : ls ≠ []) :
    (['\n'].intercalate ls).splitOn '\n' = ls.flatMap fun l => l.splitOn '\n' := by
  induction ls with
  | nil => exact absurd rfl hls
  | cons l rest ih =>
    rcases rest with - | ⟨m, rest⟩
    · simp
    · have hrest := ih (List.cons_ne_nil m rest)
      have hjoin : ['\n'].intercalate (l :: m :: rest) =
          l ++ '\n' :: ['\n'].intercalate (m :: rest) := by
        simp [List.intercalate]
      rw [List.flatMap_cons, ← hrest, hjoin]
      exact List.splitOnP_append_cons l _ (beq_self_eq_true '\n')

/-- A text without line feeds in front goes to the first line. -/
theorem splitOn_append_of_not_mem {p : List Char} (hp : '\n' ∉ p) (q : List Char) :
    (p ++ q).splitOn '\n' = (q.splitOn '\n').modifyHead (p ++ ·) := by
  induction p with
  | nil =>
    rcases h : q.splitOn '\n' with - | ⟨l, rest⟩
    · exact absurd h (List.splitOnP_ne_nil _ _)
    · exact h
  | cons c p ih =>
    rw [List.mem_cons, not_or] at hp
    have hc : ¬ (c == '\n') = true := by
      rw [beq_iff_eq]
      exact fun h => hp.1 h.symm
    have hih := ih hp.2
    rw [List.splitOn] at hih ⊢
    rw [List.cons_append, List.splitOnP_cons_eq_if_modifyHead, if_neg hc, hih,
      List.modifyHead_modifyHead]
    rfl

/-- The text has a line that defines this rule. -/
def Defines (text name : String) : Prop :=
  ∃ l ∈ text.toList.splitOn '\n', (name ++ " ::= ").toList <+: l

instance (text name : String) : Decidable (Defines text name) :=
  inferInstanceAs (Decidable (∃ l ∈ text.toList.splitOn '\n', (name ++ " ::= ").toList <+: l))

theorem not_defines_empty (name : String) : ¬ Defines "" name := by
  rintro ⟨l, hl, hprefix⟩
  have hnil : l = [] := by simpa using hl
  rw [hnil, List.prefix_nil] at hprefix
  simp at hprefix

end Lines

namespace RuleSet

variable {rs : RuleSet} {name : String}

/-! ### Lines of rules -/

theorem toList_line (name body : String) :
    (line name body).toList = (name ++ " ::= ").toList ++ body.toList := by
  simp [line]

theorem toList_render (rs : RuleSet) :
    rs.render.toList = ['\n'].intercalate (rs.lines.map String.toList) := by
  rw [render, String.toList_intercalate]
  rfl

/-- Cutting the text of a grammar at its line feeds gives the lines. -/
theorem splitOn_render (hlines : ∀ l ∈ rs.lines, '\n' ∉ l.toList) (hne : rs.lines ≠ []) :
    rs.render.toList.splitOn '\n' = rs.lines.map String.toList := by
  rw [toList_render]
  exact List.splitOn_intercalate '\n' (by simpa using hlines) (by simpa using hne)

/-- A line of the grammar defines its rule. -/
theorem defines_of_line_mem {body : String} (hname : '\n' ∉ name.toList)
    (h : line name body ∈ rs.lines) : Defines rs.render name := by
  have hne : rs.lines.map String.toList ≠ [] := List.ne_nil_of_mem (List.mem_map_of_mem h)
  have hsign : '\n' ∉ (name ++ " ::= ").toList := by simpa using hname
  -- the first piece of the line has the name in front
  rcases hbody : body.toList.splitOn '\n' with - | ⟨l, rest⟩
  · exact absurd hbody (List.splitOnP_ne_nil _ _)
  · refine ⟨(name ++ " ::= ").toList ++ l, ?_, List.prefix_append _ _⟩
    rw [toList_render, splitOn_intercalate_lines hne]
    refine List.mem_flatMap.mpr ⟨_, List.mem_map_of_mem h, ?_⟩
    rw [toList_line, splitOn_append_of_not_mem hsign, hbody]
    exact List.mem_cons_self

/-- If no line is broken, only lines define rules. -/
theorem exists_line_of_defines (hlines : ∀ l ∈ rs.lines, '\n' ∉ l.toList)
    (h : Defines rs.render name) : ∃ l ∈ rs.lines, (name ++ " ::= ").toList <+: l.toList := by
  obtain ⟨l, hl, hprefix⟩ := h
  by_cases hne : rs.lines = []
  · rw [toList_render, hne] at hl
    have hnil : l = [] := by simpa [List.intercalate] using hl
    rw [hnil, List.prefix_nil] at hprefix
    simp at hprefix
  · rw [splitOn_render hlines hne] at hl
    obtain ⟨l', hl', rfl⟩ := List.mem_map.mp hl
    exact ⟨l', hl', hprefix⟩

/-! ### Bodies -/

/-- A text that can be seen in print, or an empty one. -/
def IsVisible (s : String) : Prop := s = "" ∨ ∃ c ∈ s.toList, Text.isBlank c = false

/-- Alternatives are blank only if there are none but the end. -/
theorem renderAlternatives_blank_iff {targets : List String}
    (hvisible : ∀ t ∈ targets, IsVisible t) :
    (∀ c ∈ (renderAlternatives targets).toList, Text.isBlank c) ↔ ∀ t ∈ targets, t = "" := by
  set named := targets.filter fun t => t != "" with hnamed
  have hmem : ∀ t, t ∈ named ↔ t ∈ targets ∧ t ≠ "" := by
    intro t
    simp [hnamed]
  constructor
  · intro hblank
    by_contra hne
    push Not at hne
    obtain ⟨t, ht, hte⟩ := hne
    -- some character of the alternatives is no blank
    have hseen : ∃ c ∈ (renderAlternatives targets).toList, Text.isBlank c = false := by
      rcases hcase : named with - | ⟨a, - | ⟨b, rest⟩⟩
      · -- there is an alternative, namely `t`
        have hmemt := (hmem t).mpr ⟨ht, hte⟩
        rw [hcase] at hmemt
        cases hmemt
      · -- a single one stands for itself
        obtain ⟨hatarget, hae⟩ := (hmem a).mp (by rw [hcase]; exact List.mem_cons_self)
        obtain ⟨c, hc, hcb⟩ := (hvisible a hatarget).resolve_left hae
        refine ⟨c, ?_, hcb⟩
        simp only [renderAlternatives, ← hnamed, hcase]
        split <;> simp [hc]
      · -- several are put in parentheses
        refine ⟨'(', ?_, by decide⟩
        simp only [renderAlternatives, ← hnamed, hcase]
        split <;> simp
    obtain ⟨c, hc, hcb⟩ := hseen
    rw [hblank c hc] at hcb
    cases hcb
  · intro hall
    have hnone : named = [] := by
      rw [List.eq_nil_iff_forall_not_mem]
      intro t ht
      exact ((hmem t).mp ht).2 (hall t ((hmem t).mp ht).1)
    have hempty : renderAlternatives targets = "" := by
      simp only [renderAlternatives, ← hnamed, hnone]
      rfl
    rw [hempty]
    intro c hc
    cases hc

/-- Nothing can be seen of the rule: its pattern is blank, and the end is all
that follows. -/
def Hollow (rs : RuleSet) (name : String) : Prop :=
  (rs.patternOf name).toList.all Text.isBlank ∧ ∀ t ∈ rs.successors name, t = ""

instance (rs : RuleSet) (name : String) : Decidable (rs.Hollow name) :=
  inferInstanceAs (Decidable ((rs.patternOf name).toList.all Text.isBlank ∧
    ∀ t ∈ rs.successors name, t = ""))

/-- Hollow rules are those with an empty body. -/
theorem body_eq_empty_iff (hvisible : ∀ t ∈ rs.successors name, IsVisible t) :
    rs.body name = "" ↔ rs.Hollow name := by
  rw [body, Text.strip_eq_empty_iff, Hollow, List.all_eq_true,
    ← renderAlternatives_blank_iff hvisible]
  simp only [String.toList_append, List.mem_append, or_imp, forall_and]
  constructor
  · rintro ⟨⟨hpattern, -⟩, halternatives⟩
    exact ⟨hpattern, halternatives⟩
  · rintro ⟨hpattern, halternatives⟩
    exact ⟨⟨hpattern, List.all_eq_true.mp (by decide)⟩, halternatives⟩

/-! ### Lines of a grammar -/

/-- The rules other than the root that have a line. -/
def bodiedNames (rs : RuleSet) : List String := rs.sortedNames.filter fun n => rs.body n != ""

theorem mem_bodiedNames_iff {n : String} :
    n ∈ rs.bodiedNames ↔ rs.hasRule n ∧ n ≠ Name.root ∧ rs.body n ≠ "" := by
  simp only [bodiedNames, List.mem_filter, sortedNames, List.mem_mergeSort, mem_ordinary,
    bne_iff_ne, and_assoc]

theorem nodup_bodiedNames (rs : RuleSet) : rs.bodiedNames.Nodup := by
  refine List.Nodup.filter _ ((List.mergeSort_perm _ _).nodup_iff.mpr ?_)
  exact rs.rules.nodup_keys.sublist List.filter_sublist

theorem ordinaryLines_eq (rs : RuleSet) :
    rs.ordinaryLines = rs.bodiedNames.map fun n => line n (rs.body n) :=
  rfl

theorem mem_ordinaryLines_iff {l : String} :
    l ∈ rs.ordinaryLines ↔
      ∃ n, rs.hasRule n ∧ n ≠ Name.root ∧ rs.body n ≠ "" ∧ l = line n (rs.body n) := by
  simp only [ordinaryLines_eq, List.mem_map, mem_bodiedNames_iff, and_assoc, eq_comm]

/-- A grammar has no lines, and then no rule has a body, or it has the line of
the root and those of the other rules. -/
theorem lines_cases (rs : RuleSet) :
    (rs.lines = [] ∧ ∀ n, rs.hasRule n → rs.body n = "") ∨
      ∃ b, rs.lines = line Name.root b :: rs.ordinaryLines ∧
        (b = "\"\"" ∧ (rs.hasRule Name.root → rs.body Name.root = "") ∧
            (∃ n, rs.hasRule n ∧ rs.body n ≠ "") ∨
          rs.hasRule Name.root ∧ rs.body Name.root ≠ "" ∧ b = rs.body Name.root) := by
  by_cases hroot : (rs.body? Name.root).getD "" = ""
  · by_cases hrest : rs.ordinaryLines = []
    · refine .inl ⟨by simp [lines, hroot, hrest], fun n hrule => ?_⟩
      by_cases hn : n = Name.root
      · subst hn
        simpa [body?, hrule] using hroot
      · by_contra hbody
        have hmem := mem_ordinaryLines_iff.mpr ⟨n, hrule, hn, hbody, rfl⟩
        rw [hrest] at hmem
        cases hmem
    · -- for the sake of the other rules the root is written with an empty literal
      refine .inr ⟨"\"\"", by simp [lines, hroot, hrest], .inl ⟨rfl, fun hrule => ?_, ?_⟩⟩
      · simpa [body?, hrule] using hroot
      · obtain ⟨l, hl⟩ := List.exists_mem_of_ne_nil _ hrest
        obtain ⟨n, hrule, -, hbody, -⟩ := mem_ordinaryLines_iff.mp hl
        exact ⟨n, hrule, hbody⟩
  · have hrule : rs.hasRule Name.root := by
      by_contra hnot
      simp [body?, hnot] at hroot
    have hbody : rs.body Name.root ≠ "" := by simpa [body?, hrule] using hroot
    exact .inr ⟨rs.body Name.root, by simp [lines, body?, hrule, hbody],
      .inr ⟨hrule, hbody, rfl⟩⟩

theorem exists_line_of_body (hrule : rs.hasRule name) (hbody : rs.body name ≠ "") :
    ∃ b, line name b ∈ rs.lines := by
  rcases rs.lines_cases with ⟨-, hnone⟩ | ⟨b, hlines, -⟩
  · exact absurd (hnone name hrule) hbody
  · rw [hlines]
    by_cases hname : name = Name.root
    · subst hname
      exact ⟨b, List.mem_cons_self⟩
    · refine ⟨rs.body name, List.mem_cons_of_mem _ ?_⟩
      exact mem_ordinaryLines_iff.mpr ⟨name, hrule, hname, hbody, rfl⟩

/-- A line is that of the root or of a rule with a body. -/
theorem exists_of_mem_lines {l : String} (h : l ∈ rs.lines) :
    ∃ n b, l = line n b ∧ (n = Name.root ∨ rs.hasRule n ∧ rs.body n ≠ "") ∧
      (b = "\"\"" ∨ rs.hasRule n ∧ b = rs.body n) := by
  rcases rs.lines_cases with ⟨hnil, -⟩ | ⟨b, hlines, hb⟩
  · rw [hnil] at h
    cases h
  · rw [hlines] at h
    rcases List.mem_cons.mp h with rfl | h
    · refine ⟨Name.root, b, rfl, .inl rfl, ?_⟩
      rcases hb with ⟨hb, -⟩ | ⟨hrule, -, hb⟩
      · exact .inl hb
      · exact .inr ⟨hrule, hb⟩
    · obtain ⟨n, hrule, -, hbody, rfl⟩ := mem_ordinaryLines_iff.mp h
      exact ⟨n, rs.body n, rfl, .inr ⟨hrule, hbody⟩, .inr ⟨hrule, rfl⟩⟩

/-! ### Defined rules -/

theorem takeWhile_ne_space {p : List Char} (hp : ' ' ∉ p) (q : List Char) :
    (p ++ ' ' :: q).takeWhile (fun c => c != ' ') = p := by
  rw [List.takeWhile_append_of_pos]
  · simp
  · intro c hc
    rw [bne_iff_ne]
    rintro rfl
    exact hp hc

/-- Rules with a body are defined. -/
theorem defines_of_body (hname : Name.IsIdentifier name) (hrule : rs.hasRule name)
    (hbody : rs.body name ≠ "") : Defines rs.render name := by
  obtain ⟨b, hline⟩ := exists_line_of_body hrule hbody
  exact defines_of_line_mem (hname.not_mem (by decide)) hline

/-- Where anything is defined, the root is. -/
theorem defines_root (h : Defines rs.render name) : Defines rs.render Name.root := by
  rcases rs.lines_cases with ⟨hnil, -⟩ | ⟨b, hlines, -⟩
  · have hempty : rs.render = "" := by rw [render, hnil]; rfl
    rw [hempty] at h
    exact absurd h (not_defines_empty name)
  · have hline : line Name.root b ∈ rs.lines := by rw [hlines]; exact List.mem_cons_self
    exact defines_of_line_mem (by decide) hline

/-- The names in front of lines are identifiers. -/
theorem isIdentifier_of_line (hid : ∀ n, rs.hasRule n → Name.IsIdentifier n)
    (h : name = Name.root ∨ rs.hasRule name ∧ rs.body name ≠ "") : Name.IsIdentifier name := by
  rcases h with rfl | ⟨hrule, -⟩
  · exact Name.isIdentifier_root
  · exact hid name hrule

theorem not_mem_of_mem_lines (hid : ∀ n, rs.hasRule n → Name.IsIdentifier n)
    (hbody : ∀ n, rs.hasRule n → '\n' ∉ (rs.body n).toList) :
    ∀ l ∈ rs.lines, '\n' ∉ l.toList := by
  intro l hl
  obtain ⟨n, b, rfl, hn, hb⟩ := exists_of_mem_lines hl
  have hnot := (isIdentifier_of_line hid hn).not_mem (c := '\n') (by decide)
  rw [toList_line, List.mem_append, String.toList_append, List.mem_append, not_or, not_or]
  refine ⟨⟨hnot, by decide⟩, ?_⟩
  rcases hb with rfl | ⟨hrule, rfl⟩
  · decide
  · exact hbody n hrule

/-- If no line is broken, rules other than the root that are defined have a
body. -/
theorem body_ne_empty_of_defines (hid : ∀ n, rs.hasRule n → Name.IsIdentifier n)
    (hbody : ∀ n, rs.hasRule n → '\n' ∉ (rs.body n).toList) (hname : Name.IsIdentifier name)
    (h : Defines rs.render name) : name = Name.root ∨ rs.body name ≠ "" := by
  obtain ⟨l, hl, hprefix⟩ := exists_line_of_defines (not_mem_of_mem_lines hid hbody) h
  obtain ⟨n, b, rfl, hn, -⟩ := exists_of_mem_lines hl
  -- names end at the first space, so the line is the one of this name
  have hsame : name = n := by
    obtain ⟨rest, hrest⟩ := hprefix
    have hspace : ∀ {m}, Name.IsIdentifier m → ' ' ∉ m.toList :=
      fun hm => hm.not_mem (by decide)
    have hsplit : name.toList ++ ' ' :: ("::= ".toList ++ rest) =
        n.toList ++ ' ' :: ("::= ".toList ++ b.toList) := by
      simpa [toList_line] using hrest
    rw [← String.toList_inj, ← takeWhile_ne_space (hspace hname) ("::= ".toList ++ rest), hsplit]
    exact takeWhile_ne_space (hspace (isIdentifier_of_line hid hn)) _
  subst hsame
  exact hn.imp_right And.right

end RuleSet

end GrammarDiagram
