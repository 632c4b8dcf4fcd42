/-
GrammarDiagram/Proofs/Preservation.lean

Reductions that keep the language of every rule.

Fusing and merging do so wherever they fire.  Fusing asks of an interpretation that
joined patterns have joined words; merging asks nothing, and the twin that is kept
has the words of the one that is dropped.  Inlining does so only where the rule that
goes leads to nothing but the end, for what may follow it is lost.  That names are
identifiers is used twice: the end is no rule, and a fragment is none.

So the inner loop of reducing, in which rules are fused and merged until neither
applies, keeps the language of every rule that is left (`language_exhaust`).
-/
import GrammarDiagram.Proofs.Fixpoint
import GrammarDiagram.Proofs.WellFormed

namespace GrammarDiagram.RuleSet

variable {α : Type*} {rs : RuleSet} {I : String → Language α} {r : Reduction}

/-! ### Fusing -/

/-- Where fusing fires, one rule goes and the others keep their languages. -/
theorem language_of_fuse (hwell : rs.WellFormed)
    (hjoin : ∀ p q, I (Text.strip (p ++ " " ++ q)) = I p * I q) (h : rs.fuse? = some r) :
    ∃ gone, rs.Removes r.result gone ∧
      ∀ n, r.result.hasRule n → r.result.language I n = rs.language I n := by
  obtain ⟨name, mentioner, hc, hlast, rfl⟩ := fuse?_cases h
  have hgone := removes_fuseAt hc
  refine ⟨name, hgone, fun n hn => ?_⟩
  exact language_fuseAt hwell.identified.not_hasRule_empty hjoin hc hlast
    (hgone.hasRule_iff.mp hn).1

/-- A digit and a letter, again and again. -/
def alternatingRules : RuleSet where
  rules := .named [⟨"root", ""⟩, ⟨"_rule1", "[0-9]"⟩, ⟨"_rule2", "[a-zA-Z]"⟩]
  adjacency := ⟨[("root", ["_rule1"]), ("_rule1", ["_rule2"]), ("_rule2", ["_rule1", ""])],
    by decide⟩

/-- The letter is fused with the digit, to which it leads back. -/
theorem language_of_fuse_alternating :
    alternatingRules.WellFormed ∧ Faithful spelled ∧
      ∃ r, alternatingRules.fuse? = some r ∧ r.result.patternOf "_rule1" = "[0-9] [a-zA-Z]" ∧
        r.result.successors "_rule1" = ["_rule1", ""] ∧
        r.result.language spelled "_rule1" = alternatingRules.language spelled "_rule1" ∧
        r.result.language spelled Name.root = alternatingRules.language spelled Name.root := by
  have hwell : alternatingRules.WellFormed := by decide
  have hfire : ∃ r, alternatingRules.fuse? = some r ∧
      decide (r.result.patternOf "_rule1" = "[0-9] [a-zA-Z]" ∧
        r.result.successors "_rule1" = ["_rule1", ""] ∧
        r.result.hasRule "_rule1" ∧ r.result.hasRule Name.root) :=
    (Option.any_eq_true _ _).mp (by decide +kernel)
  obtain ⟨r, hr, hfacts⟩ := hfire
  obtain ⟨hpattern, hsuccessors, hdigit, hroot⟩ := of_decide_eq_true hfacts
  obtain ⟨-, -, hlang⟩ := language_of_fuse hwell faithful_spelled.join hr
  exact ⟨hwell, faithful_spelled, r, hr, hpattern, hsuccessors, hlang _ hdigit, hlang _ hroot⟩

/-! ### Merging -/

/-- The kept twin has the words of the dropped one. -/
theorem language_mergeAt_dropped {kept dropped : String} (hempty : ¬ rs.hasRule "")
    (htwins : rs.Twins kept dropped) :
    rs.language I dropped = (rs.mergeAt kept dropped).language I kept := by
  ext w
  constructor
  · intro hw
    have h := generates_mergeAt hempty htwins hw
    rwa [if_pos rfl] at h
  · intro hw
    rw [language_mergeAt hempty htwins htwins.ne] at hw
    exact htwins.generates hw

/-- Where merging fires, one rule goes, the others keep their languages, and the one
that is kept for it has its language. -/
theorem language_of_merge (hwell : rs.WellFormed) (h : rs.merge? = some r) :
    ∃ kept dropped, r.event = .ruleMerged dropped kept ∧ rs.Removes r.result dropped ∧
      r.result.hasRule kept ∧
      (∀ n, r.result.hasRule n → r.result.language I n = rs.language I n) ∧
      rs.language I dropped = r.result.language I kept := by
  obtain ⟨kept, dropped, htwins, rfl⟩ := merge?_cases h
  have hempty := hwell.identified.not_hasRule_empty
  have hgone := removes_mergeAt htwins
  refine ⟨kept, dropped, rfl, hgone, ?_, fun n hn => ?_, language_mergeAt_dropped hempty htwins⟩
  · exact hgone.hasRule_iff.mpr ⟨htwins.ne, htwins.hasRule_kept⟩
  · exact language_mergeAt hempty htwins (hgone.hasRule_iff.mp hn).1

/-- Digits, each of which comes from one of two rules that lead to both. -/
def mutualRules : RuleSet where
  rules := .named [⟨"root", ""⟩, ⟨"_rule1", "[0-9]"⟩, ⟨"_rule2", "[0-9]"⟩]
  adjacency := ⟨[("root", ["_rule1", "_rule2"]), ("_rule1", ["_rule1", "_rule2", ""]),
    ("_rule2", ["_rule1", "_rule2", ""])], by decide⟩

/-- The two rules are merged, and the one that is kept leads to itself twice. -/
theorem language_of_merge_mutual :
    mutualRules.WellFormed ∧
      ∃ r, mutualRules.merge? = some r ∧ r.event = .ruleMerged "_rule2" "_rule1" ∧
        r.result.successors "_rule1" = ["_rule1", "_rule1", ""] ∧
        r.result.language spelled Name.root = mutualRules.language spelled Name.root ∧
        mutualRules.language spelled "_rule2" = r.result.language spelled "_rule1" := by
  have hwell : mutualRules.WellFormed := by decide
  have hfire : ∃ r, mutualRules.merge? = some r ∧
      decide (r.event = .ruleMerged "_rule2" "_rule1" ∧
        r.result.successors "_rule1" = ["_rule1", "_rule1", ""] ∧ r.result.hasRule Name.root) :=
    (Option.any_eq_true _ _).mp (by decide +kernel)
  obtain ⟨r, hr, hfacts⟩ := hfire
  obtain ⟨hevent, hsuccessors, hroot⟩ := of_decide_eq_true hfacts
  obtain ⟨kept, dropped, hevent', -, -, hlang, hdropped⟩ :=
    language_of_merge (I := spelled) hwell hr
  rw [hevent] at hevent'
  cases hevent'
  exact ⟨hwell, r, hr, hevent, hsuccessors, hlang _ hroot, hdropped⟩

/-! ### Inlining -/

/-- Where inlining fires, one rule goes, and the others keep their languages if it led
to nothing but the end. -/
theorem language_of_inline (hwell : rs.WellFormed)
    (hfragment : ∀ p, I (Pattern.fragment p) = I p) (h : rs.inline? = some r) :
    ∃ gone, rs.Removes r.result gone ∧ ((∀ t ∈ rs.successors gone, t = "") →
      ∀ n, r.result.hasRule n → r.result.language I n = rs.language I n) := by
  obtain ⟨name, mentioner, hc, -, rfl⟩ := inline?_cases h
  have hid := hwell.identified
  have hgone := removes_inlineAt hc
  refine ⟨name, hgone, fun hend n hn => ?_⟩
  exact language_inlineAt hid.not_hasRule_empty hfragment (hid.not_hasRule_fragment _) hc.hasRule
    hc.only hend (hgone.hasRule_iff.mp hn).1

/-- Two digits, or letters, or nothing. -/
def digitsOrLettersRules : RuleSet where
  rules := .named [⟨"root", ""⟩, ⟨"_rule1", "[0-9] [0-9]"⟩, ⟨"_rule2", "[a-zA-Z]"⟩]
  adjacency := ⟨[("root", ["_rule1", "_rule2", ""]), ("_rule1", [""]), ("_rule2", ["_rule2", ""])],
    by decide⟩

/-- The digits are inlined, and nothing is lost. -/
theorem language_of_inline_digits :
    digitsOrLettersRules.WellFormed ∧ Faithful spelled ∧
      ∃ r, digitsOrLettersRules.inline? = some r ∧
        r.result.successors Name.root = ["([0-9] [0-9])", "_rule2", ""] ∧
        r.result.language spelled Name.root =
          digitsOrLettersRules.language spelled Name.root := by
  have hwell : digitsOrLettersRules.WellFormed := by decide
  have hfire : ∃ r, digitsOrLettersRules.inline? = some r ∧
      decide (r.result.successors Name.root = ["([0-9] [0-9])", "_rule2", ""] ∧
        ¬ r.result.hasRule "_rule1" ∧ r.result.hasRule Name.root) :=
    (Option.any_eq_true _ _).mp (by decide +kernel)
  obtain ⟨r, hr, hfacts⟩ := hfire
  obtain ⟨hsuccessors, hdigits, hroot⟩ := of_decide_eq_true hfacts
  obtain ⟨gone, hgone, hlang⟩ := language_of_inline hwell faithful_spelled.fragment hr
  have hname : "_rule1" = gone := by
    by_contra hne
    exact hdigits (hgone.hasRule_iff.mpr ⟨hne, by decide⟩)
  subst hname
  exact ⟨hwell, faithful_spelled, r, hr, hsuccessors, hlang (by decide) _ hroot⟩

/-! ### Fusing and merging to the end -/

section Basic

variable (hjoin : ∀ p q, I (Text.strip (p ++ " " ++ q)) = I p * I q)
include hjoin

theorem language_basic? (hid : rs.Identified) (h : rs.basic? = some r) {n : String}
    (hn : r.result.hasRule n) : r.result.language I n = rs.language I n := by
  rw [basic?_eq_or, Option.or_eq_some_iff] at h
  rcases h with hfuse | ⟨-, hmerge⟩
  · obtain ⟨name, mentioner, hc, hlast, rfl⟩ := fuse?_cases hfuse
    exact language_fuseAt hid.not_hasRule_empty hjoin hc hlast
      ((hasRule_fuseAt hc.hasRule_mentioner).mp hn).1
  · obtain ⟨kept, dropped, htwins, rfl⟩ := merge?_cases hmerge
    exact language_mergeAt hid.not_hasRule_empty htwins (hasRule_mergeAt.mp hn).1

/-- Fusing and merging until neither applies keeps the language of every rule that is
left. -/
theorem language_exhaust (hid : rs.Identified) {n : String} (hn : rs.exhaust.1.hasRule n) :
    rs.exhaust.1.language I n = rs.language I n := by
  -- that rules which are left were there at every step is kept along the loop
  suffices hrun : rs.hasRule n ∧ rs.exhaust.1.language I n = rs.language I n from hrun.2
  fun_induction exhaust rs with
  | case1 rs h => exact ⟨hn, rfl⟩
  | case2 rs r h _ final events heq ih =>
    rw [heq] at ih
    have hr := reduces_of_reduce? (reduce?_of_basic? h)
    obtain ⟨gone, hgone⟩ := hr.removes
    obtain ⟨hrule, hlang⟩ := ih (hid.reduces hr) hn
    exact ⟨(hgone.hasRule_iff.mp hrule).2, hlang.trans (language_basic? hjoin hid h hrule)⟩

end Basic

end GrammarDiagram.RuleSet
