/-
GrammarDiagram/Proofs/Compilation.lean

What a compilation consists of.

Compiling checks the wiring, synthesizes a rule set and, if it is asked to,
reduces it.  `compile_eq_ok_iff` says so without the computation around it, and
`exists_compile_iff` which diagrams are compiled at all.  Both kinds of
compilation accept the same diagrams, and their rules have identifiers for names.
-/
import GrammarDiagram.Proofs.Severing
import GrammarDiagram.Proofs.Synthesis

namespace GrammarDiagram

variable {nodes : List Node} {edges : List Edge} {optimize : Bool} {rs : RuleSet}

/-! ### Results of compiling -/

/-- The compilation of a synthesized rule set. -/
def Compilation.ofRuleSet (optimize : Bool) (rs : RuleSet) : Compilation :=
  if optimize then ⟨rs.optimize.1.render, rs.optimize.1, rs.optimize.2.length⟩
  else ⟨rs.render, rs, 0⟩

/-- What compiling comes to: a fault of the wiring or of the synthesis, or the
compilation of the rule set. -/
theorem result_compile (optimize : Bool) (nodes : List Node) (edges : List Edge) :
    (compile optimize nodes edges).result =
      if (Report.ofGraph nodes edges).isValid then
        (RuleSet.synthesize nodes edges).result >>= fun rs =>
          .ok (Compilation.ofRuleSet optimize rs)
      else .error (Report.ofGraph nodes edges).fault := by
  unfold compile
  by_cases hvalid : (Report.ofGraph nodes edges).isValid
  · simp only [hvalid, Bool.not_true, Bool.false_eq_true, if_false, if_true]
    rw [Traced.result_bind, Traced.result_tell]
    refine (Traced.result_bind _ _).trans (congrArg _ (funext fun rs => ?_))
    cases optimize
    · rfl
    · rfl
  · simp only [hvalid, Bool.not_false, Bool.false_eq_true, if_false, if_true]
    rfl

/-- A wired diagram is compiled from its rule set, and no other diagram is. -/
theorem compile_eq_ok_iff {c : Compilation} :
    (compile optimize nodes edges).result = .ok c ↔
      (Report.ofGraph nodes edges).isValid ∧
        ∃ rs, (RuleSet.synthesize nodes edges).result = .ok rs ∧
          c = Compilation.ofRuleSet optimize rs := by
  rw [result_compile]
  by_cases hvalid : (Report.ofGraph nodes edges).isValid
  · rw [if_pos hvalid, Fault.bind_eq_ok_iff]
    simp only [hvalid, true_and, Except.ok.injEq, eq_comm]
  · simp [hvalid]

/-- Exactly the wired and legible diagrams are compiled. -/
theorem exists_compile_iff (hids : (nodes.map Node.id).Nodup) :
    (∃ c, (compile optimize nodes edges).result = .ok c) ↔
      (Report.ofGraph nodes edges).isValid ∧ RuleSet.Legible nodes edges := by
  simp only [compile_eq_ok_iff, ← RuleSet.exists_synthesize_iff hids]
  constructor
  · rintro ⟨-, hvalid, rs, hrs, -⟩
    exact ⟨hvalid, rs, hrs⟩
  · rintro ⟨hvalid, rs, hrs⟩
    exact ⟨_, hvalid, rs, hrs, rfl⟩

/-! ### Names of rules -/

theorem RuleSet.identified_assemble {names : Table String} (hn : RuleSet.Naming nodes names) :
    (RuleSet.assemble names nodes edges).Identified := by
  intro x hx
  obtain ⟨n, hmem, hkind, hget⟩ := hasRule_assemble_iff.mp hx
  have hfits := hn.fits_of_get? hmem hget
  exact hn.isIdentifier_of_get? hget fun h => hkind (hfits.eq_empty_iff.mp h)

theorem RuleSet.identified_of_synthesize (hids : (nodes.map Node.id).Nodup)
    (h : (RuleSet.synthesize nodes edges).result = .ok rs) : rs.Identified := by
  obtain ⟨names, hnames, -, rfl⟩ := synthesize_eq_ok_iff.mp h
  exact identified_assemble (naming_of_assignNames hids hnames)

theorem identified_of_compile {c : Compilation} (hids : (nodes.map Node.id).Nodup)
    (h : (compile optimize nodes edges).result = .ok c) : c.ruleSet.Identified := by
  obtain ⟨-, rs, hrs, rfl⟩ := compile_eq_ok_iff.mp h
  have hid := RuleSet.identified_of_synthesize hids hrs
  cases optimize
  · exact hid
  · exact hid.optimize

/-- The grammar of a compilation is the text of its rule set. -/
theorem grammar_of_compile {c : Compilation}
    (h : (compile optimize nodes edges).result = .ok c) : c.grammar = c.ruleSet.render := by
  obtain ⟨-, rs, -, rfl⟩ := compile_eq_ok_iff.mp h
  cases optimize
  · rfl
  · rfl

end GrammarDiagram
