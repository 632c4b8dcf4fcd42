/-
GrammarDiagram/RuleSet/Reduction.lean

Three reductions, each of which takes one rule away.

* Fusing: a rule that is the only successor of its only mentioner is appended
  to it.
* Merging: of two rules with the same pattern and the same successors the
  later one is replaced by the earlier one everywhere.
* Inlining: a rule with one mention, all of whose successors are successors of
  its mentioner too, is replaced there by its pattern.

The root is never taken away.  Each reduction comes as a condition, an action
(`fuseAt`, `mergeAt`, `inlineAt`) and a function that finds the first place
where the condition holds and acts there.
-/
import GrammarDiagram.Event
import GrammarDiagram.RuleSet.Basic
import GrammarDiagram.RuleSet.Pattern
import GrammarDiagram.Text.Blank

namespace GrammarDiagram.RuleSet

/-- A rule set after a reduction, and what was done. -/
structure Reduction where
  result : RuleSet
  event : Event

/-! ### Rules with one mention -/

/-- A rule other than the root that is mentioned once, by another rule; together
with that rule. -/
def candidate? (rs : RuleSet) (name : String) (count : Nat) : Option (String × String) :=
  if name = Name.root || count ≠ 1 || !rs.hasRule name then none
  else
    match rs.mentioner? name with
    | some mentioner =>
      if mentioner = name || !rs.hasRule mentioner then none else some (name, mentioner)
    | none => none

/-- The rules with one mention, each with its mentioner. -/
def candidates (rs : RuleSet) : List (String × String) :=
  rs.referenceCounts.entries.filterMap fun e => rs.candidate? e.1 e.2

/-! ### Fusing -/

/-- The condition of fusing: the mentioner has no other successor. -/
def canFuse (rs : RuleSet) (c : String × String) : Bool := (rs.successors c.2).length == 1

/-- Append a rule to its mentioner. -/
def fuseAt (rs : RuleSet) (name mentioner : String) : RuleSet :=
  let pattern := Text.strip (rs.patternOf mentioner ++ " " ++ rs.patternOf name)
  ((rs.setPattern mentioner pattern).setSuccessors mentioner (rs.successors name)).remove name

/-- Fuse the first rule that can be. -/
def fuse? (rs : RuleSet) : Option Reduction :=
  (rs.candidates.find? rs.canFuse).map fun c => ⟨rs.fuseAt c.1 c.2, .ruleFused c.1 c.2⟩

/-! ### Merging -/

/-- The condition of merging: same pattern, same successors. -/
def areTwins (rs : RuleSet) (a b : String) : Bool :=
  rs.patternOf a == rs.patternOf b && rs.successors a == rs.successors b

/-- The first name with a twin behind it, and its first twin. -/
def findTwins? (rs : RuleSet) : List String → Option (String × String)
  | [] => none
  | name :: rest =>
    match rest.find? (rs.areTwins name) with
    | some twin => some (name, twin)
    | none => rs.findTwins? rest

/-- Put one rule in the place of another. -/
def mergeAt (rs : RuleSet) (kept dropped : String) : RuleSet :=
  let replace := fun targets : List String => targets.map fun t => if t = dropped then kept else t
  { rs with adjacency := rs.adjacency.mapValues replace }.remove dropped

/-- Merge the first rule that has a twin with it. -/
def merge? (rs : RuleSet) : Option Reduction :=
  (rs.findTwins? rs.ordinary).map fun p => ⟨rs.mergeAt p.1 p.2, .ruleMerged p.2 p.1⟩

/-! ### Inlining -/

/-- The condition of inlining: whatever follows the rule follows its mentioner
too. -/
def canInline (rs : RuleSet) (c : String × String) : Bool :=
  (rs.successors c.1).all fun t => (rs.successors c.2).contains t

/-- Put a pattern in the place of a rule among the successors of its
mentioner. -/
def inlineAt (rs : RuleSet) (name mentioner : String) : RuleSet :=
  let fragment := Pattern.fragment (rs.patternOf name)
  let targets := (rs.successors mentioner).map fun t => if t = name then fragment else t
  (rs.setSuccessors mentioner targets).remove name

/-- Inline the first rule that can be. -/
def inline? (rs : RuleSet) : Option Reduction :=
  (rs.candidates.find? rs.canInline).map fun c =>
    ⟨rs.inlineAt c.1 c.2, .ruleInlined c.1 c.2 (Pattern.fragment (rs.patternOf c.1))⟩

/-! ### Every reduction takes a rule away -/

theorem hasRule_of_mem_candidates {rs : RuleSet} {c : String × String} (h : c ∈ rs.candidates) :
    rs.hasRule c.1 ∧ rs.hasRule c.2 := by
  obtain ⟨e, -, he⟩ := List.mem_filterMap.mp h
  unfold candidate? at he
  split at he
  · cases he
  · rename_i hn
    split at he
    · rename_i m hm
      split at he
      · cases he
      · rename_i hm'
        cases he
        simp_all
    · cases he

theorem size_fuse? {rs : RuleSet} {r : Reduction} (h : rs.fuse? = some r) :
    r.result.size < rs.size := by
  obtain ⟨c, hc, rfl⟩ := Option.map_eq_some_iff.mp h
  obtain ⟨hn, hm⟩ := hasRule_of_mem_candidates (List.mem_of_find?_eq_some hc)
  refine Nat.lt_of_lt_of_eq (size_remove_lt ?_) ?_
  · simpa using hasRule_setPattern rs c.2 c.1 _ hn
  · simpa using size_setPattern _ hm

theorem mem_of_findTwins? {rs : RuleSet} {names : List String} {p : String × String}
    (h : rs.findTwins? names = some p) : p.2 ∈ names := by
  induction names with
  | nil => cases h
  | cons name rest ih =>
    unfold findTwins? at h
    split at h
    · rename_i twin ht
      cases h
      exact List.mem_cons_of_mem _ (List.mem_of_find?_eq_some ht)
    · exact List.mem_cons_of_mem _ (ih h)

theorem size_merge? {rs : RuleSet} {r : Reduction} (h : rs.merge? = some r) :
    r.result.size < rs.size := by
  obtain ⟨p, hp, rfl⟩ := Option.map_eq_some_iff.mp h
  have hmem := mem_of_findTwins? hp
  have hkey : p.2 ∈ rs.rules.keys := (List.mem_filter.mp hmem).1
  exact Table.size_erase_lt ((Table.contains_iff_mem_keys _ _).mpr hkey)

theorem size_inline? {rs : RuleSet} {r : Reduction} (h : rs.inline? = some r) :
    r.result.size < rs.size := by
  obtain ⟨c, hc, rfl⟩ := Option.map_eq_some_iff.mp h
  have hn := (hasRule_of_mem_candidates (List.mem_of_find?_eq_some hc)).1
  refine Nat.lt_of_lt_of_eq (size_remove_lt ?_) ?_
  · simpa using hn
  · simp

/-! ### Reducing to the end -/

/-- The reductions that keep the shape of alternatives: fusing, or else
merging. -/
def basic? (rs : RuleSet) : Option Reduction := rs.fuse? <|> rs.merge?

/-- The next reduction: fusing, or else merging, or else inlining. -/
def reduce? (rs : RuleSet) : Option Reduction := rs.basic? <|> rs.inline?

theorem size_reduce? {rs : RuleSet} {r : Reduction} (h : rs.reduce? = some r) :
    r.result.size < rs.size := by
  unfold reduce? basic? at h
  simp only [HOrElse.hOrElse, OrElse.orElse, Option.orElse_eq_or, Option.or_eq_some_iff] at h
  rcases h with (h | ⟨-, h⟩) | ⟨-, h⟩
  · exact size_fuse? h
  · exact size_merge? h
  · exact size_inline? h

/-- Reduce until nothing applies.  The events tell every step. -/
def optimize (rs : RuleSet) : RuleSet × List Event :=
  match h : rs.reduce? with
  | none => (rs, [])
  | some r =>
    have := size_reduce? h
    let (final, events) := r.result.optimize
    (final, r.event :: events)
termination_by rs.size

end GrammarDiagram.RuleSet
