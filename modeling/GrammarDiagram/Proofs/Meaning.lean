/-
GrammarDiagram/Proofs/Meaning.lean

What reduction does to the meaning of a diagram.

A diagram is compiled into one rule set with reductions and into another one
without.  Their languages need not be the same: a rule that is inlined loses
what may follow it, and in `optionalLetterNodes` this is a digit that is due
after a letter (`language_compile_ne`).  The languages differ by nothing else
(`language_compile`): the reduced rule set has the language of the plain one in
which the rules at the ends of inlined ones end the sentence, and if nothing
but the end could follow these rules the languages are equal.
-/
import GrammarDiagram.Proofs.Compilation
import GrammarDiagram.Proofs.Stripping

namespace GrammarDiagram

open RuleSet

/-! ### An interpretation -/

/-- The characters of a pattern apart from blanks and parentheses. -/
def spelling (pattern : String) : List Char :=
  pattern.toList.filter fun c => !(Text.isBlank c || c == '(' || c == ')')

/-- The interpretation under which a pattern stands for its own spelling. -/
def spelled (pattern : String) : Language Char := {spelling pattern}

theorem mem_spelled {pattern : String} {w : List Char} :
    w ∈ spelled pattern ↔ w = spelling pattern := Iff.rfl

theorem spelling_strip (s : String) : spelling (Text.strip s) = spelling s := by
  rw [spelling, Text.toList_strip, Text.filter_stripChars]
  · rfl
  · intro c hc
    simp [hc]

theorem spelling_append (p q : String) : spelling (p ++ q) = spelling p ++ spelling q := by
  simp [spelling]

/-- Spelling is an interpretation that reductions respect. -/
theorem faithful_spelled : Faithful spelled where
  empty := rfl
  join := by
    intro p q
    have hspace : spelling " " = [] := by decide
    ext w
    rw [mem_spelled, spelling_strip, spelling_append, spelling_append, hspace, List.append_nil,
      Language.mem_mul]
    constructor
    · rintro rfl
      exact ⟨_, rfl, _, rfl, rfl⟩
    · rintro ⟨u, rfl, v, rfl, rfl⟩
      rfl
  fragment := by
    intro p
    have hopen : spelling "(" = [] := by decide
    have hclose : spelling ")" = [] := by decide
    unfold Pattern.fragment
    split
    · rfl
    · rw [spelled, spelling_append, spelling_append, hopen, hclose, List.append_nil,
        List.nil_append]
      rfl

/-! ### Compiled tables -/

/-- Whether a diagram is compiled into this rule set, with its tables in order. -/
def compilesTo (optimize : Bool) (nodes : List Node) (edges : List Edge) (rs : RuleSet) : Bool :=
  (compile optimize nodes edges).result.toOption.any fun c =>
    c.ruleSet.rules.entries = rs.rules.entries &&
      c.ruleSet.adjacency.entries = rs.adjacency.entries

theorem exists_compile_of_compilesTo {optimize : Bool} {nodes : List Node} {edges : List Edge}
    {rs : RuleSet} (h : compilesTo optimize nodes edges rs) :
    ∃ c, (compile optimize nodes edges).result = .ok c ∧ c.ruleSet = rs := by
  obtain ⟨c, hc, htables⟩ := Fault.exists_ok_of_any h
  rw [Bool.and_eq_true, decide_eq_true_iff, decide_eq_true_iff] at htables
  refine ⟨c, hc, ?_⟩
  obtain ⟨grammar, ⟨⟨rules, hrules⟩, ⟨adjacency, hadjacency⟩⟩, steps⟩ := c
  obtain ⟨⟨rules', hrules'⟩, ⟨adjacency', hadjacency'⟩⟩ := rs
  obtain ⟨rfl, rfl⟩ := htables
  rfl

/-! ### Reduction and language -/

/-- Diagrams with and without reductions: both are compiled if one is, and the
reduced rule set has the language of the plain one with the severed rules cut. -/
theorem language_compile {α : Type*} {nodes : List Node} {edges : List Edge}
    {I : String → Language α} (hids : (nodes.map Node.id).Nodup)
    (hvalid : (Report.ofGraph nodes edges).isValid) (hI : Faithful I) :
    (∀ optimize, (∃ c, (compile optimize nodes edges).result = .ok c) ↔ Legible nodes edges) ∧
    ∀ reduced plain, (compile true nodes edges).result = .ok reduced →
      (compile false nodes edges).result = .ok plain →
      reduced.ruleSet.language I Name.root =
          (plain.ruleSet.cut (severed plain.ruleSet.optimize.2)).language I Name.root ∧
        ((∀ n ∈ severed plain.ruleSet.optimize.2,
            plain.ruleSet.follow I (plain.ruleSet.successors n) = 1) →
          reduced.ruleSet.language I Name.root = plain.ruleSet.language I Name.root) := by
  refine ⟨fun optimize => ?_, fun reduced plain hreduced hplain => ?_⟩
  · rw [exists_compile_iff hids]
    exact and_iff_right hvalid
  · obtain ⟨-, rs, hrs, rfl⟩ := compile_eq_ok_iff.mp hplain
    obtain ⟨-, rs', hrs', rfl⟩ := compile_eq_ok_iff.mp hreduced
    rw [hrs] at hrs'
    cases hrs'
    have hid := identified_of_synthesize hids hrs
    have hlang := language_optimize hid hI
    refine ⟨hlang, fun hend => ?_⟩
    calc rs.optimize.1.language I Name.root
        = (rs.cut (severed rs.optimize.2)).language I Name.root := hlang
      _ = rs.language I Name.root :=
          language_cut_of_follow_eq_one hid.not_hasRule_empty hend Name.root

/-! ### Reductions that keep the language -/

/-- Nothing, a letter in one of two ways, or two digits. -/
def branchingNodes : List Node := [
  { id := "s", kind := .start },
  { id := "a", kind := .letter },
  { id := "c", kind := .letter },
  { id := "b", kind := .digit },
  { id := "d", kind := .digit },
  { id := "e", kind := .finish }]

/-- The edges of `branchingNodes`. -/
def branchingEdges : List Edge := [
  { source := "s", target := "e" },
  { source := "s", target := "a" },
  { source := "s", target := "c" },
  { source := "s", target := "b" },
  { source := "a", target := "e" },
  { source := "c", target := "e" },
  { source := "b", target := "d" },
  { source := "d", target := "e" }]

/-- The rules of `branchingNodes`. -/
def branchingRules : RuleSet where
  rules := .named [⟨"root", ""⟩, ⟨"_rule1", "[a-zA-Z]"⟩, ⟨"_rule2", "[a-zA-Z]"⟩,
    ⟨"_rule3", "[0-9]"⟩, ⟨"_rule4", "[0-9]"⟩]
  adjacency := ⟨[("root", ["", "_rule1", "_rule2", "_rule3"]), ("_rule1", [""]),
    ("_rule2", [""]), ("_rule3", ["_rule4"]), ("_rule4", [""])], by decide⟩

/-- The digits are fused and then inlined, the letters are merged, and the
language stays. -/
theorem language_compile_branching :
    (branchingNodes.map Node.id).Nodup ∧
      (Report.ofGraph branchingNodes branchingEdges).isValid ∧ Faithful spelled ∧
      ∃ reduced plain, (compile true branchingNodes branchingEdges).result = .ok reduced ∧
        (compile false branchingNodes branchingEdges).result = .ok plain ∧
        severed plain.ruleSet.optimize.2 = ["_rule4"] ∧
        reduced.ruleSet.language spelled Name.root = plain.ruleSet.language spelled Name.root := by
  have hids : (branchingNodes.map Node.id).Nodup := by decide
  have hvalid : (Report.ofGraph branchingNodes branchingEdges).isValid := by decide
  have hplain : ∃ plain, (compile false branchingNodes branchingEdges).result = .ok plain ∧
      plain.ruleSet = branchingRules := exists_compile_of_compilesTo (by decide +kernel)
  obtain ⟨plain, hplain, hrs⟩ := hplain
  have hsevered : severed plain.ruleSet.optimize.2 = ["_rule4"] := by
    rw [hrs]
    decide +kernel
  have hlegible : Legible branchingNodes branchingEdges :=
    ((exists_compile_iff hids).mp ⟨plain, hplain⟩).2
  obtain ⟨hexists, hlang⟩ := language_compile hids hvalid faithful_spelled
  obtain ⟨reduced, hreduced⟩ := (hexists true).mpr hlegible
  refine ⟨hids, hvalid, faithful_spelled, reduced, plain, hreduced, hplain, hsevered, ?_⟩
  refine (hlang reduced plain hreduced hplain).2 fun n hn => ?_
  rw [hsevered, List.mem_singleton] at hn
  subst hn
  ext v
  rw [mem_follow, Language.mem_one, follows_of_end]
  · rw [hrs]
    decide
  · rw [hrs]
    decide

/-! ### A reduction that changes the language -/

/-- A digit that may have a letter in front. -/
def optionalLetterNodes : List Node := [
  { id := "s", kind := .start },
  { id := "a", kind := .letter },
  { id := "b", kind := .digit },
  { id := "e", kind := .finish }]

/-- The edges of `optionalLetterNodes`. -/
def optionalLetterEdges : List Edge := [
  { source := "s", target := "a" },
  { source := "s", target := "b" },
  { source := "a", target := "b" },
  { source := "b", target := "e" }]

/-- The rules of `optionalLetterNodes`. -/
def optionalLetterRules : RuleSet where
  rules := .named [⟨"root", ""⟩, ⟨"_rule1", "[a-zA-Z]"⟩, ⟨"_rule2", "[0-9]"⟩]
  adjacency := ⟨[("root", ["_rule1", "_rule2"]), ("_rule1", ["_rule2"]), ("_rule2", [""])],
    by decide⟩

/-- The same rules reduced: the letter is inlined. -/
def optionalLetterReduced : RuleSet where
  rules := .named [⟨"root", ""⟩, ⟨"_rule2", "[0-9]"⟩]
  adjacency := ⟨[("root", ["[a-zA-Z]", "_rule2"]), ("_rule2", [""])], by decide⟩

theorem mem_language_optionalLetterRules :
    spelling "" ++ (spelling "[a-zA-Z]" ++ spelling "[0-9]") ∈
      optionalLetterRules.language spelled Name.root := by
  refine .rule (t := "_rule1") (by decide) rfl (by decide) (by decide) ?_
  refine .rule (t := "_rule2") (by decide) rfl (by decide) (by decide) ?_
  exact .stop (by decide) rfl (by decide)

/-- No word of the reduced rules is as long as a letter with a digit. -/
theorem length_of_generates_optionalLetterReduced {n : String} {w : List Char}
    (h : optionalLetterReduced.Generates spelled n w) : w.length ≤ 8 := by
  refine Generates.least (L := fun _ w => w.length ≤ 8) ?_ h
  intro n u v hn hu hv
  have hname : n = "root" ∨ n = "_rule2" := by
    have hkey : n ∈ ["root", "_rule2"] := (Table.contains_iff_mem_keys _ _).mp hn
    simpa using hkey
  rw [mem_spelled] at hu
  subst hu
  rcases hname with rfl | rfl
  · -- the root has the letter behind it, or the digit
    have hpattern : spelling (optionalLetterReduced.patternOf "root") = [] := by decide
    rw [hpattern, List.nil_append]
    rcases hv with ⟨rfl, -⟩ | ⟨-, -, -, hlength⟩ | ⟨t, ht, -, hrule, hv⟩
    · decide
    · exact hlength
    · have htarget : t = "[a-zA-Z]" ∨ t = "_rule2" := by
        simpa using show t ∈ ["[a-zA-Z]", "_rule2"] from ht
      rw [mem_spelled] at hv
      subst hv
      rcases htarget with rfl | rfl
      · decide
      · exact absurd (by decide) hrule
  · -- nothing is behind the digit
    have hpattern : (spelling (optionalLetterReduced.patternOf "_rule2")).length = 5 := by decide
    have hend : v = [] := (follows_of_end (by decide) (by decide)).mp hv
    rw [hend, List.append_nil, hpattern]
    decide

/-- The letter is inlined, and the digit behind it is lost. -/
theorem language_compile_ne :
    (optionalLetterNodes.map Node.id).Nodup ∧
      (Report.ofGraph optionalLetterNodes optionalLetterEdges).isValid ∧ Faithful spelled ∧
      ∃ reduced plain,
        (compile true optionalLetterNodes optionalLetterEdges).result = .ok reduced ∧
        (compile false optionalLetterNodes optionalLetterEdges).result = .ok plain ∧
        reduced.ruleSet.language spelled Name.root ≠
          plain.ruleSet.language spelled Name.root := by
  have hplain : ∃ plain,
      (compile false optionalLetterNodes optionalLetterEdges).result = .ok plain ∧
        plain.ruleSet = optionalLetterRules := exists_compile_of_compilesTo (by decide +kernel)
  have hreduced : ∃ reduced,
      (compile true optionalLetterNodes optionalLetterEdges).result = .ok reduced ∧
        reduced.ruleSet = optionalLetterReduced := exists_compile_of_compilesTo (by decide +kernel)
  obtain ⟨plain, hplain, hrules⟩ := hplain
  obtain ⟨reduced, hreduced, hrules'⟩ := hreduced
  refine ⟨by decide, by decide, faithful_spelled, reduced, plain, hreduced, hplain, ?_⟩
  rw [hrules, hrules']
  intro heq
  have hword := mem_language_optionalLetterRules
  rw [← heq] at hword
  have hlength := length_of_generates_optionalLetterReduced hword
  revert hlength
  decide

end GrammarDiagram
