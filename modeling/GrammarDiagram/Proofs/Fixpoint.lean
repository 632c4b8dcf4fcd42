/-
GrammarDiagram/Proofs/Fixpoint.lean

Where reducing to the end ends.

Every reduction takes one rule away, so the steps are as many as the rules that
are gone, whatever the rule set.  It ends where no rewrite fires any more, and
there a second run has nothing to do.

Reducing can also be told in rounds: fuse and merge until neither applies, try
once to inline, and stop after a round in which nothing was done.  This is the
same run, event for event (`rounds_eq_optimize`), since inlining is tried only
where fusing and merging find nothing.  So no rewrite is missed when the last
round is over.
-/
import GrammarDiagram.Compilation
import GrammarDiagram.Proofs.Severing

namespace GrammarDiagram.RuleSet

variable {rs : RuleSet}

/-! ### The end of a run -/

theorem reduce?_eq_none_iff : rs.reduce? = none ↔ ∀ w : Rewrite, w.fire? rs = none := by
  rw [reduce?_eq_or, basic?_eq_or, Option.or_eq_none_iff, Option.or_eq_none_iff]
  constructor
  · rintro ⟨⟨hfuse, hmerge⟩, hinline⟩ w
    cases w with
    | fuse => exact hfuse
    | merge => exact hmerge
    | inline => exact hinline
  · intro h
    exact ⟨⟨h .fuse, h .merge⟩, h .inline⟩

/-- Nothing applies to a reduced rule set. -/
theorem reduce?_optimize (rs : RuleSet) : rs.optimize.1.reduce? = none :=
  optimize_induction (motive := fun _ final _ => final.reduce? = none) (fun _ h => h)
    (fun _ _ _ ih => ih) rs

/-- There are as many steps as rules that are gone. -/
theorem length_add_size_optimize (rs : RuleSet) :
    rs.optimize.2.length + rs.optimize.1.size = rs.size := by
  refine optimize_induction
    (motive := fun rs final events => events.length + final.size = rs.size) ?_ ?_ rs
  · intro rs _
    exact Nat.zero_add _
  · intro rs r h ih
    obtain ⟨gone, hgone⟩ := (reduces_of_reduce? h).removes
    rw [← hgone.size_eq, ← ih, List.length_cons]
    omega

/-- A run is a sequence of rewrites. -/
theorem exists_rewrite_eq_optimize (rs : RuleSet) : ∃ ws, rs.rewrite ws = rs.optimize.1 := by
  refine optimize_induction (motive := fun rs final _ => ∃ ws, rs.rewrite ws = final) ?_ ?_ rs
  · exact fun rs _ => ⟨[], rfl⟩
  · rintro rs r h ⟨ws, hws⟩
    obtain ⟨w, hw⟩ := Rewrite.exists_fire?_of_reduce? h
    refine ⟨w :: ws, ?_⟩
    rw [← hws, rewrite, List.foldl_cons, Rewrite.apply_of_fire? hw]
    rfl

/-! ### Rounds -/

theorem reduce?_of_basic? {r : Reduction} (h : rs.basic? = some r) : rs.reduce? = some r := by
  rw [reduce?_eq_or, h, Option.some_or]

theorem reduce?_of_basic?_eq_none (h : rs.basic? = none) : rs.reduce? = rs.inline? := by
  rw [reduce?_eq_or, h, Option.none_or]

/-- Fuse and merge until neither applies. -/
def exhaust (rs : RuleSet) : RuleSet × List Event :=
  match h : rs.basic? with
  | none => (rs, [])
  | some r =>
    have := size_reduce? (reduce?_of_basic? h)
    let (final, events) := r.result.exhaust
    (final, r.event :: events)
termination_by rs.size

theorem basic?_exhaust (rs : RuleSet) : rs.exhaust.1.basic? = none := by
  fun_induction exhaust rs with
  | case1 rs h => exact h
  | case2 rs r h _ final events heq ih =>
    rw [heq] at ih
    exact ih

/-- A run begins with fusing and merging to the end. -/
theorem optimize_exhaust (rs : RuleSet) :
    rs.optimize = (rs.exhaust.1.optimize.1, rs.exhaust.2 ++ rs.exhaust.1.optimize.2) := by
  fun_induction exhaust rs with
  | case1 rs h => rfl
  | case2 rs r h _ final events heq ih =>
    rw [heq] at ih
    rw [optimize_of_some (reduce?_of_basic? h), ih]
    rfl

theorem size_exhaust (rs : RuleSet) : rs.exhaust.2.length + rs.exhaust.1.size = rs.size := by
  have hrun := length_add_size_optimize rs
  have hrest := length_add_size_optimize rs.exhaust.1
  rw [optimize_exhaust rs] at hrun
  simp only [List.length_append] at hrun
  omega

/-- Reduce in rounds: fuse and merge until neither applies, then try to inline
one rule.  A round in which nothing was done is the last. -/
def rounds (rs : RuleSet) : RuleSet × List Event :=
  match h : rs.exhaust.1.inline? with
  | some r =>
    have : r.result.size < rs.size := by
      have hexhaust := size_exhaust rs
      have hinline := size_inline? h
      omega
    let (final, events) := r.result.rounds
    (final, rs.exhaust.2 ++ r.event :: events)
  | none =>
    if hdone : rs.exhaust.2 = [] then (rs.exhaust.1, [])
    else
      have : rs.exhaust.1.size < rs.size := by
        have hexhaust := size_exhaust rs
        have hpos := List.length_pos_iff.mpr hdone
        omega
      let (final, events) := rs.exhaust.1.rounds
      (final, rs.exhaust.2 ++ events)
termination_by rs.size

/-- Reducing in rounds is reducing to the end. -/
theorem rounds_eq_optimize (rs : RuleSet) : rs.rounds = rs.optimize := by
  fun_induction rounds rs with
  | case1 rs r h _ final events heq ih =>
    -- nothing can be fused or merged, so inlining is the next step of the run
    have hreduce := (reduce?_of_basic?_eq_none (basic?_exhaust rs)).trans h
    rw [optimize_exhaust rs, optimize_of_some hreduce, ← ih, heq]
  | case2 rs h hdone =>
    have hreduce := (reduce?_of_basic?_eq_none (basic?_exhaust rs)).trans h
    rw [optimize_exhaust rs, optimize_of_none hreduce, hdone, List.append_nil]
  | case3 rs h hdone _ final events heq ih =>
    -- one more round, although the run is over already
    rw [optimize_exhaust rs, ← ih, heq]

/-! ### The fixpoint -/

/-- Reducing any rule set has a result: no rewrite fires there, the steps are as
many as the rules that are gone, the others are in their order and the root is
among them if it ever was; rounds lead to the same result, and a second run
changes nothing. -/
theorem optimizeTraced_fixpoint (rs : RuleSet) :
    ∃ final steps, rs.optimizeTraced.result = .ok (final, steps) ∧
      steps + final.size = rs.size ∧
      final.rules.keys.Sublist rs.rules.keys ∧
      (final.hasRule Name.root ↔ rs.hasRule Name.root) ∧
      (∀ w : Rewrite, w.fire? final = none) ∧
      final.optimizeTraced.result = .ok (final, 0) ∧
      rs.rounds.1 = final ∧ rs.rounds.2.length = steps := by
  have hend := reduce?_optimize rs
  obtain ⟨ws, hws⟩ := exists_rewrite_eq_optimize rs
  refine ⟨rs.optimize.1, rs.optimize.2.length, rfl, length_add_size_optimize rs,
    hws ▸ keys_rewrite_sublist rs ws, hws ▸ hasRule_root_rewrite_iff rs ws,
    reduce?_eq_none_iff.mp hend, ?_, ?_, ?_⟩
  · show Except.ok (rs.optimize.1.optimize.1, rs.optimize.1.optimize.2.length) = _
    rw [optimize_of_none hend]
    rfl
  · rw [rounds_eq_optimize]
  · rw [rounds_eq_optimize]

end GrammarDiagram.RuleSet
