/-
GrammarDiagram/Proofs/Heir.lean

What becomes of rules in a sequence of rewrites.

A rule that is merged is replaced by its twin, and the twin may be replaced in its
turn: the heir of a rule is where this ends.  The events of the sequence tell it
(`trace`, `heir`).  A rule that is fused or inlined has no heir but itself, and it
is gone; so a name changes only if it is the name of a rule that does not stay
(`heir_trace_eq_or`).

Statements about a sequence with its events are proved from the last rewrite back
to the first (`rewrite_induction`); rewrites that do not fire leave no event and
need no step.
-/
import GrammarDiagram.Proofs.Rewriting

namespace GrammarDiagram

/-! ### Heirs -/

/-- One name in the place of another, and all the others as they are. -/
def standIn (gone place name : String) : String := if name = gone then place else name

theorem standIn_self (gone place : String) : standIn gone place gone = place := if_pos rfl

theorem standIn_of_ne {gone place name : String} (h : name ≠ gone) :
    standIn gone place name = name := if_neg h

/-- The rule that a rule is replaced by in a reduction. -/
def Event.heir (e : Event) (name : String) : String :=
  match e with
  | .ruleMerged dropped kept => standIn dropped kept name
  | _ => name

/-- The heir is another one only where the rule is merged. -/
theorem Event.eq_ruleMerged_of_heir_ne {e : Event} {name : String} (h : e.heir name ≠ name) :
    e = .ruleMerged name (e.heir name) := by
  unfold heir at h ⊢
  split at h
  · rename_i dropped kept
    by_cases hname : name = dropped
    · rw [hname, standIn_self]
    · exact absurd (standIn_of_ne hname) h
  · exact absurd rfl h

/-- The rule that stands for a rule after these events. -/
def heir (events : List Event) (name : String) : String :=
  events.foldl (fun n e => e.heir n) name

@[simp] theorem heir_nil (name : String) : heir [] name = name := rfl

@[simp] theorem heir_cons (e : Event) (events : List Event) (name : String) :
    heir (e :: events) name = heir events (e.heir name) := rfl

namespace RuleSet

variable {rs : RuleSet}

/-! ### Sequences with their events -/

/-- What happens in a sequence of rewrites: one event for each that fires. -/
def trace (rs : RuleSet) : List Rewrite → List Event
  | [] => []
  | w :: rest => ((w.fire? rs).map Reduction.event).toList ++ (w.apply rs).trace rest

/-- Induction along a sequence of rewrites: from the last rule set back to the
first one. -/
theorem rewrite_induction {motive : RuleSet → RuleSet → List Event → Prop}
    (stop : ∀ rs, motive rs rs [])
    (step : ∀ rs r ws, rs.Reduces r →
      motive r.result (r.result.rewrite ws) (r.result.trace ws) →
      motive rs (r.result.rewrite ws) (r.event :: r.result.trace ws))
    (rs : RuleSet) (ws : List Rewrite) : motive rs (rs.rewrite ws) (rs.trace ws) := by
  induction ws generalizing rs with
  | nil => exact stop rs
  | cons w rest ih =>
    rw [rewrite, List.foldl_cons, trace]
    rcases hfire : w.fire? rs with - | r
    · have happly : w.apply rs = rs := by
        rw [Rewrite.apply, hfire]
        rfl
      rw [happly]
      exact ih rs
    · rw [Rewrite.apply_of_fire? hfire]
      exact step rs r rest (Rewrite.reduces_of_fire? hfire) (ih r.result)

/-! ### Rules that stay are their own heirs -/

/-- The heir is another one only for a rule that goes. -/
theorem Reduces.heir_eq_or {r : Reduction} (h : rs.Reduces r) (n : String) :
    r.event.heir n = n ∨ rs.hasRule n ∧ ¬ r.result.hasRule n := by
  cases h with
  | fuse _ _ => exact .inl rfl
  | @merge kept dropped ht =>
    by_cases hn : n = dropped
    · subst hn
      exact .inr ⟨ht.hasRule_dropped, fun hrule => (hasRule_mergeAt.mp hrule).1 rfl⟩
    · exact .inl (standIn_of_ne hn)
  | inline _ _ => exact .inl rfl

theorem hasRule_of_rewrite {ws : List Rewrite} {n : String} (h : (rs.rewrite ws).hasRule n) :
    rs.hasRule n := by
  rw [hasRule, Table.contains_iff_mem_keys] at h ⊢
  exact (keys_rewrite_sublist rs ws).subset h

theorem heir_trace_eq_or (rs : RuleSet) (ws : List Rewrite) (n : String) :
    heir (rs.trace ws) n = n ∨ rs.hasRule n ∧ ¬ (rs.rewrite ws).hasRule n := by
  refine rewrite_induction (motive := fun rs final events =>
    heir events n = n ∨ rs.hasRule n ∧ ¬ final.hasRule n) (fun _ => .inl rfl) ?_ rs ws
  intro rs r ws hr ih
  obtain ⟨gone, hgone⟩ := hr.removes
  rcases hr.heir_eq_or n with hsame | ⟨hrule, hout⟩
  · rw [heir_cons, hsame]
    exact ih.imp_right fun ⟨hrule, hout⟩ => ⟨(hgone.hasRule_iff.mp hrule).2, hout⟩
  · exact .inr ⟨hrule, fun hend => hout (hasRule_of_rewrite hend)⟩

theorem heir_trace_of_hasRule {ws : List Rewrite} {n : String}
    (h : (rs.rewrite ws).hasRule n) : heir (rs.trace ws) n = n :=
  (heir_trace_eq_or rs ws n).resolve_right fun hout => hout.2 h

/-- Where the heir is a rule in the end, there was a rule in the beginning. -/
theorem hasRule_of_heir {ws : List Rewrite} {n : String}
    (h : (rs.rewrite ws).hasRule (heir (rs.trace ws) n)) : rs.hasRule n := by
  rcases heir_trace_eq_or rs ws n with hsame | ⟨hrule, -⟩
  · rw [hsame] at h
    exact hasRule_of_rewrite h
  · exact hrule

end RuleSet

end GrammarDiagram
