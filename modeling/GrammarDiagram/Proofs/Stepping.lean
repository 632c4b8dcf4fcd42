/-
GrammarDiagram/Proofs/Stepping.lean

Reductions at any place.

A rewrite acts at the first place it finds.  A step is the same reduction at any
place that its condition admits, so a rule set may have many next ones; and a
rewrite finds nothing exactly if there is no step of its kind
(`Rewrite.fire?_eq_none_iff`).

Of some kinds of steps it does not matter in which order they are made.  It is
enough to look at two steps out of one rule set: if one more step on either side
brings them together again, all ways that are followed to the end have one end
(`existsUnique_endsIn`).
-/
import GrammarDiagram.Proofs.Rewriting
import Mathlib.Data.Set.Insert
import Mathlib.Logic.Relation

namespace GrammarDiagram.RuleSet

variable {rs : RuleSet}

/-! ### Steps -/

/-- One reduction, at any place that its condition admits. -/
inductive Step (rs : RuleSet) : Rewrite → RuleSet → Prop
  | fuse {c} : c ∈ rs.candidates → rs.canFuse c → Step rs .fuse (rs.fuseAt c.1 c.2)
  | merge {kept dropped} : [kept, dropped].Sublist rs.ordinary → rs.areTwins kept dropped →
      Step rs .merge (rs.mergeAt kept dropped)
  | inline {c} : c ∈ rs.candidates → rs.canInline c → Step rs .inline (rs.inlineAt c.1 c.2)

/-- A step takes a rule away. -/
theorem Step.removes {w : Rewrite} {next : RuleSet} (h : rs.Step w next) :
    ∃ gone, rs.Removes next gone := by
  cases h with
  | fuse hc _ => exact ⟨_, removes_fuseAt (mem_candidates_iff.mp hc)⟩
  | merge hsub htwins => exact ⟨_, removes_mergeAt (twins_of_sublist hsub htwins)⟩
  | inline hc _ => exact ⟨_, removes_inlineAt (mem_candidates_iff.mp hc)⟩

/-- The search for twins misses none. -/
theorem findTwins?_eq_none {names : List String} (h : rs.findTwins? names = none)
    {a b : String} (hsub : [a, b].Sublist names) : rs.areTwins a b = false := by
  induction names with
  | nil => cases hsub
  | cons name rest ih =>
    unfold findTwins? at h
    split at h
    · cases h
    · rename_i hnone
      rcases pair_sublist_cons_iff.mp hsub with hsub | ⟨rfl, hb⟩
      · exact ih h hsub
      · simpa using List.find?_eq_none.mp hnone b hb

namespace Rewrite

theorem step_of_fire? {w : Rewrite} {r : Reduction} (h : w.fire? rs = some r) :
    rs.Step w r.result := by
  cases w with
  | fuse =>
    obtain ⟨c, hc, rfl⟩ := Option.map_eq_some_iff.mp h
    exact .fuse (List.mem_of_find?_eq_some hc) (List.find?_some hc)
  | merge =>
    obtain ⟨p, hp, rfl⟩ := Option.map_eq_some_iff.mp h
    obtain ⟨hsub, htwins⟩ := findTwins?_sublist hp
    exact .merge hsub htwins
  | inline =>
    obtain ⟨c, hc, rfl⟩ := Option.map_eq_some_iff.mp h
    exact .inline (List.mem_of_find?_eq_some hc) (List.find?_some hc)

/-- A rewrite that does not fire has no place to act. -/
theorem fire?_eq_none_iff {w : Rewrite} :
    w.fire? rs = none ↔ ∀ next, ¬ rs.Step w next := by
  constructor
  · intro h next hstep
    cases hstep with
    | fuse hc hfuse =>
      exact List.find?_eq_none.mp (Option.map_eq_none_iff.mp h) _ hc hfuse
    | merge hsub htwins =>
      rw [findTwins?_eq_none (Option.map_eq_none_iff.mp h) hsub] at htwins
      cases htwins
    | inline hc hinline =>
      exact List.find?_eq_none.mp (Option.map_eq_none_iff.mp h) _ hc hinline
  · intro h
    rcases hfire : w.fire? rs with - | r
    · rfl
    · exact absurd (step_of_fire? hfire) (h r.result)

end Rewrite

/-! ### Sequences of steps -/

/-- One step of these kinds leads from the one rule set to the other. -/
def Next (kinds : Set Rewrite) (rs next : RuleSet) : Prop := ∃ w ∈ kinds, rs.Step w next

/-- Steps of these kinds lead from one rule set to the other. -/
def Reaches (kinds : Set Rewrite) : RuleSet → RuleSet → Prop :=
  Relation.ReflTransGen (Next kinds)

/-- Steps of these kinds lead to a rule set and from there no further. -/
structure EndsIn (kinds : Set Rewrite) (rs final : RuleSet) : Prop where
  reaches : Reaches kinds rs final
  stuck : ∀ next, ¬ Next kinds final next

/-- Two rule sets are one, or one step on either side makes them one. -/
def Meets (kinds : Set Rewrite) (a b : RuleSet) : Prop :=
  a = b ∨ ∃ d, Next kinds a d ∧ Next kinds b d

theorem Meets.symm {kinds : Set Rewrite} {a b : RuleSet} (h : Meets kinds a b) :
    Meets kinds b a := by
  rcases h with rfl | ⟨d, ha, hb⟩
  · exact .inl rfl
  · exact .inr ⟨d, hb, ha⟩

/-- Every sequence of steps comes to an end. -/
theorem exists_endsIn (kinds : Set Rewrite) (rs : RuleSet) : ∃ final, EndsIn kinds rs final := by
  by_cases hnext : ∃ next, Next kinds rs next
  · obtain ⟨next, hnext⟩ := hnext
    have hlt : next.size < rs.size := by
      obtain ⟨w, -, hstep⟩ := hnext
      obtain ⟨gone, hgone⟩ := hstep.removes
      have hsize := hgone.size_eq
      omega
    obtain ⟨final, hfinal⟩ := exists_endsIn kinds next
    exact ⟨final, .head hnext hfinal.reaches, hfinal.stuck⟩
  · exact ⟨rs, .refl, not_exists.mp hnext⟩
termination_by rs.size

section Unique

variable {kinds : Set Rewrite} {P : RuleSet → Prop}
  (hkeep : ∀ {a b}, P a → Next kinds a b → P b)
include hkeep

/-- What every step keeps, a sequence of steps keeps. -/
theorem Reaches.invariant {a b : RuleSet} (ha : P a) (h : Reaches kinds a b) : P b := by
  induction h with
  | refl => exact ha
  | tail _ hstep ih => exact hkeep ih hstep

/-- If what two steps lead to can always be brought together by one step each,
there is one end. -/
theorem existsUnique_endsIn
    (hmeets : ∀ {a b c}, P a → Next kinds a b → Next kinds a c → Meets kinds b c)
    (hrs : P rs) : ∃! final, EndsIn kinds rs final := by
  -- steps of rule sets that have the property
  let r : RuleSet → RuleSet → Prop := fun x y => P x ∧ Next kinds x y
  have hlift : ∀ {x}, Reaches kinds rs x → Relation.ReflTransGen r rs x := by
    intro x hx
    induction hx with
    | refl => exact .refl
    | tail hreach hstep ih => exact ih.tail ⟨Reaches.invariant hkeep hrs hreach, hstep⟩
  have hlocal : ∀ x y z, r x y → r x z → ∃ d, Relation.ReflGen r y d ∧
      Relation.ReflTransGen r z d := by
    rintro x y z ⟨hx, hxy⟩ ⟨-, hxz⟩
    rcases hmeets hx hxy hxz with rfl | ⟨d, hyd, hzd⟩
    · exact ⟨y, .refl, .refl⟩
    · exact ⟨d, .single ⟨hkeep hx hxy, hyd⟩, .single ⟨hkeep hx hxz, hzd⟩⟩
  -- an end has no next rule set, so it is where two ways come together
  have hend : ∀ {x d}, EndsIn kinds rs x → Relation.ReflTransGen r x d → x = d := by
    intro x d hx hxd
    rcases hxd.cases_head with rfl | ⟨y, ⟨-, hstep⟩, -⟩
    · rfl
    · exact absurd hstep (hx.stuck y)
  obtain ⟨final, hfinal⟩ := exists_endsIn kinds rs
  refine ⟨final, hfinal, fun other hother => ?_⟩
  obtain ⟨d, hd, hd'⟩ :=
    Relation.church_rosser hlocal (hlift hother.reaches) (hlift hfinal.reaches)
  rw [hend hother hd, hend hfinal hd']

end Unique

end GrammarDiagram.RuleSet
