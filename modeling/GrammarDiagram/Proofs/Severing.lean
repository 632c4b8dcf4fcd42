/-
GrammarDiagram/Proofs/Severing.lean

What reducing to the end does to the language of a rule set.

Inlining puts the bare pattern of a rule in its place, so what may follow the
rule is lost.  The events of a run tell exactly which rules lose their
successors: `severed` traces each rule that is inlined back, through fusing and
merging, to the rules of the first rule set that stand at its end.  The main
result is that nothing else happens: a reduced rule set has the language of
the first one with the severed rules cut (`language_optimize`).

The step behind it is that cutting commutes with each reduction
(`language_reduce?_cut`), where cutting a fused rule cuts its last part and
cutting a merged rule cuts both of its parts.
-/
import GrammarDiagram.Proofs.Rewriting

namespace GrammarDiagram

/-! ### Severed rules -/

/-- The rules before a reduction that stand at the end of the given rules after
it, and the rule that is severed by the reduction itself. -/
def Event.sever (e : Event) (names : List String) : List String :=
  match e with
  | .ruleFused name mentioner => names.map fun n => if n = mentioner then name else n
  | .ruleMerged dropped kept => if kept ∈ names then dropped :: names else names
  | .ruleInlined name _ _ => name :: names
  | _ => names

/-- The rules that lose their successors in a run with these events. -/
def severed (events : List Event) : List String := events.foldr Event.sever []

namespace RuleSet

variable {α : Type*} {rs : RuleSet} {I : String → Language α}

/-- An interpretation that understands how reductions write patterns. -/
structure Faithful (I : String → Language α) : Prop where
  empty : I "" = 1
  join : ∀ p q, I (Text.strip (p ++ " " ++ q)) = I p * I q
  fragment : ∀ p, I (Pattern.fragment p) = I p

/-- All rules have identifiers for names. -/
def Identified (rs : RuleSet) : Prop := ∀ n, rs.hasRule n → Name.IsIdentifier n

theorem Identified.not_hasRule_empty (h : rs.Identified) : ¬ rs.hasRule "" :=
  fun hr => (h _ hr).1 rfl

theorem Identified.not_hasRule_fragment (h : rs.Identified) (p : String) :
    ¬ rs.hasRule (Pattern.fragment p) :=
  fun hr => Pattern.not_isIdentifier_fragment p (h _ hr)

theorem Identified.cut (h : rs.Identified) (names : List String) : (rs.cut names).Identified := by
  intro n hn
  rw [hasRule_cut] at hn
  exact h n hn

/-! ### Cutting commutes with reductions -/

section Step

variable {names : List String} {n : String}

/-- Cutting adds no mention of a rule. -/
theorem only_cut {name mentioner : String} (hne : name ≠ "")
    (honly : ∀ x, name ∈ rs.successors x → x = mentioner) {x : String}
    (hx : name ∈ (rs.cut names).successors x) : x = mentioner := by
  by_cases hmem : x ∈ names
  · rw [successors_cut_of_mem hmem, List.mem_singleton] at hx
    exact absurd hx hne
  · rw [successors_cut_of_not_mem hmem] at hx
    exact honly x hx

/-- A sole mention outlives cutting, unless the mentioner is cut. -/
theorem SoleMention.cut {name mentioner : String} (hempty : ¬ rs.hasRule "")
    (hc : rs.SoleMention name mentioner) (hm : mentioner ∉ names) :
    (rs.cut names).SoleMention name mentioner where
  hasRule := by rw [hasRule_cut]; exact hc.hasRule
  hasRule_mentioner := by rw [hasRule_cut]; exact hc.hasRule_mentioner
  ne_root := hc.ne_root
  ne_mentioner := hc.ne_mentioner
  once := by rw [successors_cut_of_not_mem hm]; exact hc.once
  only := fun _ hx => only_cut (fun h => hempty (h ▸ hc.hasRule)) hc.only hx

/-- The names to cut before a rule is fused with its mentioner: of the two only
the rule can be among them, and it is if the mentioner is to be cut. -/
theorem mem_map_mentioner_iff {name mentioner x : String} (hname : name ∉ names) :
    x ∈ (names.map fun n => if n = mentioner then name else n) ↔
      if x = name then mentioner ∈ names else x ≠ mentioner ∧ x ∈ names := by
  rw [List.mem_map]
  constructor
  · rintro ⟨y, hy, rfl⟩
    by_cases hym : y = mentioner
    · rw [if_pos hym, if_pos rfl]
      exact hym ▸ hy
    · have hyn : y ≠ name := fun h => hname (h ▸ hy)
      rw [if_neg hym, if_neg hyn]
      exact ⟨hym, hy⟩
  · split
    · rename_i hx
      exact fun h => ⟨mentioner, h, (if_pos rfl).trans hx.symm⟩
    · rintro ⟨hxm, hx⟩
      exact ⟨x, hx, if_neg hxm⟩

/-- Cutting behind a fused rule is cutting behind its last part. -/
theorem language_fuseAt_cut {name mentioner : String} (hid : rs.Identified) (hI : Faithful I)
    (hc : rs.SoleMention name mentioner) (hlast : rs.successors mentioner = [name])
    (hname : name ∉ names) (hn : n ≠ name) :
    ((rs.fuseAt name mentioner).cut names).language I n =
      (rs.cut (names.map fun n => if n = mentioner then name else n)).language I n := by
  set back := names.map fun n => if n = mentioner then name else n with hback
  have hback' : ∀ {x}, x ∈ back ↔
      if x = name then mentioner ∈ names else x ≠ mentioner ∧ x ∈ names := by
    rw [hback]
    exact mem_map_mentioner_iff hname
  have hm : mentioner ∉ back := by
    rw [hback', if_neg hc.ne_mentioner.symm]
    exact fun h => h.1 rfl
  have hempty := hid.not_hasRule_empty
  have hcut := hc.cut hempty hm
  -- fusing after the cut gives the same rule set as cutting after the fusion
  have hagree : ((rs.fuseAt name mentioner).cut names).language I n =
      ((rs.cut back).fuseAt name mentioner).language I n := by
    refine language_congr ?_ ?_ ?_ n
    · intro x
      rw [hasRule_cut, hasRule_fuseAt hc.hasRule_mentioner,
        hasRule_fuseAt hcut.hasRule_mentioner, hasRule_cut]
    · intro x hx
      rw [hasRule_cut, hasRule_fuseAt hc.hasRule_mentioner] at hx
      rw [patternOf_cut, patternOf_fuseAt hx.1, patternOf_fuseAt hx.1, patternOf_cut,
        patternOf_cut, patternOf_cut]
    · intro x hx
      rw [hasRule_cut, hasRule_fuseAt hc.hasRule_mentioner] at hx
      rw [successors_cut, successors_fuseAt hx.1, successors_fuseAt hx.1, successors_cut,
        successors_cut]
      by_cases hxm : x = mentioner
      · subst hxm
        simp only [if_true, hback']
      · simp only [hback', hxm, hx.1, if_false, ne_eq, not_false_eq_true, true_and]
  rw [hagree]
  refine language_fuseAt (hid.cut back).not_hasRule_empty hI.join hcut ?_ hn
  rw [successors_cut_of_not_mem hm, hlast]

/-- Cutting behind a merged rule is cutting behind both of its parts. -/
theorem language_mergeAt_cut {kept dropped : String} (hid : rs.Identified)
    (ht : rs.Twins kept dropped) (hdropped : dropped ∉ names) (hn : n ≠ dropped) :
    ((rs.mergeAt kept dropped).cut names).language I n =
      (rs.cut (if kept ∈ names then dropped :: names else names)).language I n := by
  set back := if kept ∈ names then dropped :: names else names with hback
  have hmem : ∀ x, x ≠ dropped → (x ∈ back ↔ x ∈ names) := by
    intro x hx
    rw [hback]
    split <;> simp [hx]
  have hmem' : dropped ∈ back ↔ kept ∈ names := by
    rw [hback]
    split
    · rename_i h
      simp [h]
    · rename_i h
      simp [h, hdropped]
  have hempty := hid.not_hasRule_empty
  -- both are cut or neither is, so they stay twins
  have htwins : (rs.cut back).Twins kept dropped := by
    refine ⟨by rw [hasRule_cut]; exact ht.hasRule_kept,
      by rw [hasRule_cut]; exact ht.hasRule_dropped, ht.kept_ne_root, ht.dropped_ne_root, ht.ne,
      ?_, ?_⟩
    · rw [patternOf_cut, patternOf_cut, ht.patternOf_eq]
    · rw [successors_cut, successors_cut, ht.successors_eq]
      simp only [hmem kept ht.ne, hmem']
  have hagree : ((rs.mergeAt kept dropped).cut names).language I n =
      ((rs.cut back).mergeAt kept dropped).language I n := by
    refine language_congr ?_ ?_ ?_ n
    · intro x
      rw [hasRule_cut, hasRule_mergeAt, hasRule_mergeAt, hasRule_cut]
    · intro x hx
      rw [hasRule_cut, hasRule_mergeAt] at hx
      rw [patternOf_cut, patternOf_mergeAt hx.1, patternOf_mergeAt hx.1, patternOf_cut]
    · intro x hx
      rw [hasRule_cut, hasRule_mergeAt] at hx
      rw [successors_cut, successors_mergeAt hx.1, successors_mergeAt hx.1, successors_cut]
      simp only [hmem x hx.1]
      split
      · -- the end is not renamed
        have hne : ¬ "" = dropped := fun h => hempty (h ▸ ht.hasRule_dropped)
        simp [hne]
      · rfl
  rw [hagree]
  exact language_mergeAt (hid.cut back).not_hasRule_empty htwins hn

/-- Inlining cuts the rule that is inlined. -/
theorem language_inlineAt_cut {name mentioner : String} (hid : rs.Identified) (hI : Faithful I)
    (hc : rs.SoleMention name mentioner) (hn : n ≠ name) :
    ((rs.inlineAt name mentioner).cut names).language I n =
      (rs.cut (name :: names)).language I n := by
  have hempty := hid.not_hasRule_empty
  have hne : ¬ "" = name := fun h => hempty (h ▸ hc.hasRule)
  have hmem : ∀ x, x ≠ name → (x ∈ name :: names ↔ x ∈ names) := by
    intro x hx
    simp [hx]
  have hagree : ((rs.inlineAt name mentioner).cut names).language I n =
      ((rs.cut (name :: names)).inlineAt name mentioner).language I n := by
    refine language_congr ?_ ?_ ?_ n
    · intro x
      rw [hasRule_cut, hasRule_inlineAt, hasRule_inlineAt, hasRule_cut]
    · intro x hx
      rw [hasRule_cut, hasRule_inlineAt] at hx
      rw [patternOf_cut, patternOf_inlineAt hx.1, patternOf_inlineAt hx.1, patternOf_cut]
    · intro x hx
      rw [hasRule_cut, hasRule_inlineAt] at hx
      rw [successors_cut, successors_inlineAt hx.1, successors_inlineAt hx.1, successors_cut,
        successors_cut, patternOf_cut]
      by_cases hxm : x = mentioner
      · subst hxm
        simp only [if_true, hmem x hx.1]
        split
        · simp [hne]
        · rfl
      · simp only [hxm, if_false, hmem x hx.1]
  rw [hagree]
  -- after the cut nothing follows the rule, so inlining it changes nothing
  have hid' := hid.cut (name :: names)
  refine language_inlineAt hid'.not_hasRule_empty hI.fragment (hid'.not_hasRule_fragment _) ?_ ?_
    ?_ hn
  · rw [hasRule_cut]
    exact hc.hasRule
  · exact fun x hx => only_cut (fun h => hne h.symm) hc.only hx
  · intro t ht
    rwa [successors_cut_of_mem List.mem_cons_self, List.mem_singleton] at ht

end Step

/-! ### One reduction -/

theorem hasRule_of_reduces {r : Reduction} (h : rs.Reduces r) {n : String}
    (hn : r.result.hasRule n) : rs.hasRule n := by
  obtain ⟨gone, hgone⟩ := h.removes
  exact (hgone.hasRule_iff.mp hn).2

theorem Identified.reduces {r : Reduction} (hid : rs.Identified) (h : rs.Reduces r) :
    r.result.Identified :=
  fun n hn => hid n (hasRule_of_reduces h hn)

theorem Identified.reduce? {r : Reduction} (hid : rs.Identified) (h : rs.reduce? = some r) :
    r.result.Identified :=
  hid.reduces (reduces_of_reduce? h)

/-- Severed rules are rules. -/
theorem hasRule_of_mem_sever {r : Reduction} (h : rs.reduce? = some r) {names : List String}
    (hnames : ∀ n ∈ names, r.result.hasRule n) : ∀ n ∈ r.event.sever names, rs.hasRule n := by
  intro n hn
  have hold : ∀ n ∈ names, rs.hasRule n := fun n hn =>
    hasRule_of_reduces (reduces_of_reduce? h) (hnames n hn)
  rcases reduces_of_reduce? h with ⟨hc, -⟩ | ht | ⟨hc, -⟩
  · obtain ⟨x, hx, rfl⟩ := List.mem_map.mp hn
    split
    · exact hc.hasRule
    · exact hold x hx
  · simp only [Event.sever] at hn
    split at hn
    · rcases List.mem_cons.mp hn with rfl | hn
      · exact ht.hasRule_dropped
      · exact hold n hn
    · exact hold n hn
  · rcases List.mem_cons.mp hn with rfl | hn
    · exact hc.hasRule
    · exact hold n hn

/-- Cutting after a reduction is cutting what it severs before. -/
theorem language_reduce?_cut (hid : rs.Identified) (hI : Faithful I) {r : Reduction}
    (h : rs.reduce? = some r) {names : List String} (hnames : ∀ n ∈ names, r.result.hasRule n) :
    (r.result.cut names).language I Name.root =
      (rs.cut (r.event.sever names)).language I Name.root := by
  rcases reduces_of_reduce? h with ⟨hc, hlast⟩ | ht | ⟨hc, -⟩
  · refine language_fuseAt_cut hid hI hc hlast ?_ hc.ne_root.symm
    intro hmem
    exact ((hasRule_fuseAt hc.hasRule_mentioner).mp (hnames _ hmem)).1 rfl
  · refine language_mergeAt_cut hid ht ?_ ht.dropped_ne_root.symm
    intro hmem
    exact (hasRule_mergeAt.mp (hnames _ hmem)).1 rfl
  · exact language_inlineAt_cut hid hI hc hc.ne_root.symm

/-! ### The whole run -/

theorem optimize_of_none (h : rs.reduce? = none) : rs.optimize = (rs, []) := by
  unfold optimize
  split
  · rfl
  · rename_i r hr
    rw [h] at hr
    cases hr

theorem optimize_of_some {r : Reduction} (h : rs.reduce? = some r) :
    rs.optimize = (r.result.optimize.1, r.event :: r.result.optimize.2) := by
  conv => lhs; unfold optimize
  split
  · rename_i hn
    rw [h] at hn
    cases hn
  · rename_i r' hr
    rw [h] at hr
    cases hr
    rfl

/-- Induction along a run: from the reduced rule set back to the first one. -/
theorem optimize_induction {motive : RuleSet → RuleSet → List Event → Prop}
    (stop : ∀ rs, rs.reduce? = none → motive rs rs [])
    (step : ∀ rs r, rs.reduce? = some r →
      motive r.result r.result.optimize.1 r.result.optimize.2 →
      motive rs r.result.optimize.1 (r.event :: r.result.optimize.2))
    (rs : RuleSet) : motive rs rs.optimize.1 rs.optimize.2 := by
  rcases h : rs.reduce? with - | r
  · rw [optimize_of_none h]
    exact stop rs h
  · have hlt := size_reduce? h
    rw [optimize_of_some h]
    exact step rs r h (optimize_induction stop step r.result)
termination_by rs.size

/-- What every reduction keeps, the reduced rule set has. -/
theorem optimize_invariant {motive : RuleSet → Prop}
    (step : ∀ rs r, motive rs → rs.reduce? = some r → motive r.result) (h : motive rs) :
    motive rs.optimize.1 := by
  revert h
  refine optimize_induction (motive := fun rs final _ => motive rs → motive final) ?_ ?_ rs
  · intro rs _ h
    exact h
  · intro rs r hr ih h
    exact ih (step rs r h hr)

/-- No run adds a rule. -/
theorem hasRule_of_optimize {n : String} (hn : rs.optimize.1.hasRule n) : rs.hasRule n := by
  revert hn
  refine optimize_induction (motive := fun rs final _ => final.hasRule n → rs.hasRule n) ?_ ?_ rs
  · intro rs _ hn
    exact hn
  · intro rs r hr ih hn
    exact hasRule_of_reduces (reduces_of_reduce? hr) (ih hn)

theorem Identified.optimize (hid : rs.Identified) : rs.optimize.1.Identified :=
  fun n hn => hid n (hasRule_of_optimize hn)

/-- A reduced rule set has the language of the first one with the severed rules
cut. -/
theorem language_optimize (hid : rs.Identified) (hI : Faithful I) :
    rs.optimize.1.language I Name.root =
      (rs.cut (severed rs.optimize.2)).language I Name.root := by
  revert hid
  refine (optimize_induction
    (motive := fun rs final events => (∀ n ∈ severed events, rs.hasRule n) ∧ (rs.Identified →
      final.language I Name.root = (rs.cut (severed events)).language I Name.root)) ?_ ?_ rs).2
  · intro rs _
    exact ⟨fun n hn => absurd hn List.not_mem_nil, fun _ => rfl⟩
  · -- that severed rules are rules is kept along the run, for the step needs it
    intro rs r h ih
    obtain ⟨hrules, hlang⟩ := ih
    refine ⟨hasRule_of_mem_sever h hrules, fun hid => ?_⟩
    rw [hlang (hid.reduce? h)]
    exact language_reduce?_cut hid hI h hrules

end RuleSet

end GrammarDiagram
