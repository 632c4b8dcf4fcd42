/-
GrammarDiagram/Proofs/Reachability.lean

Reductions cut no rule off.

A rule can be reached if successor lists lead to it from the root.  When a rule goes,
another one takes its place on every way that came past it: the mentioner, where
the rule is fused or inlined, and the twin, where it is merged.  All that is needed
is that each step of a way can still be made in the new place, or need not be made
any more (`Reroutes`); then ways are carried over, however often they come past the
rule that is gone (`Reroutes.reachable`).

Conversely nothing new can be reached, with one exception: the twin that was kept
may owe it to the one that was dropped.  So after any rewrites the rules that can be
reached are the heirs of those that could be before (`reachable_rewrite_iff`).

The end may have successors of its own.  Whether ways lead on from there is left
open: everything holds either way.
-/
import GrammarDiagram.Proofs.Heir
import GrammarDiagram.Proofs.WellFormed

namespace GrammarDiagram.RuleSet

/-! ### Reachable names -/

/-- `rs.Reachable beyond n`: successor lists lead from the root to `n`, and past the
end only if `beyond` holds. -/
inductive Reachable (rs : RuleSet) (beyond : Prop) : String → Prop
  | root : Reachable rs beyond Name.root
  | next {n t} : Reachable rs beyond n → (n = "" → beyond) → t ∈ rs.successors n →
      Reachable rs beyond t

variable {rs rs' : RuleSet} {beyond : Prop} {n t : String}

/-- A way leads on from every rule. -/
theorem Reachable.onward (hid : rs.Identified) (h : rs.Reachable beyond n) (hn : rs.hasRule n)
    (ht : t ∈ rs.successors n) : rs.Reachable beyond t :=
  h.next (fun hempty => absurd hempty (hid n hn).1) ht

/-! ### Ways around a rule that goes -/

/-- `rs.Reroutes rs' gone place`: each step of a way can be made with `place` in the
place of `gone`, or is no step any more. -/
structure Reroutes (rs rs' : RuleSet) (gone place : String) : Prop where
  ne_root : gone ≠ Name.root
  ne_end : place ≠ ""
  step : ∀ {n t}, t ∈ rs.successors n →
    standIn gone place t = standIn gone place n ∨
      standIn gone place t ∈ rs'.successors (standIn gone place n)

/-- Ways are carried over. -/
theorem Reroutes.reachable {gone place : String} (h : rs.Reroutes rs' gone place)
    (hn : rs.Reachable beyond n) : rs'.Reachable beyond (standIn gone place n) := by
  induction hn with
  | root =>
    rw [standIn_of_ne h.ne_root.symm]
    exact .root
  | @next n t _ hpass ht ih =>
    rcases h.step ht with hstay | hstep
    · rw [hstay]
      exact ih
    · refine ih.next (fun hempty => hpass ?_) hstep
      by_cases hgone : n = gone
      · rw [hgone, standIn_self] at hempty
        exact absurd hempty h.ne_end
      · rwa [standIn_of_ne hgone] at hempty

/-! ### Fusing and inlining -/

section Mentioner

variable {name mentioner : String} (hid : rs.Identified) (hc : rs.SoleMention name mentioner)
include hid hc

/-- The mentioner can take the place of a rule if it leads wherever the rule did. -/
theorem SoleMention.reroutes
    (hsame : ∀ {n}, n ≠ name → n ≠ mentioner → rs'.successors n = rs.successors n)
    (hleads : ∀ t, t ≠ name → t ∈ rs.successors name ∨ t ∈ rs.successors mentioner →
      t ∈ rs'.successors mentioner) : rs.Reroutes rs' name mentioner where
  ne_root := hc.ne_root
  ne_end := (hid mentioner hc.hasRule_mentioner).1
  step := by
    intro n t ht
    by_cases htn : t = name
    · -- only the mentioner leads to the rule, and that step is no longer made
      rw [htn] at ht ⊢
      rw [hc.only n ht, standIn_self, standIn_of_ne hc.ne_mentioner.symm]
      exact .inl rfl
    · right
      rw [standIn_of_ne htn]
      by_cases hn : n = name
      · rw [hn, standIn_self]
        exact hleads t htn (.inl (hn ▸ ht))
      · rw [standIn_of_ne hn]
        by_cases hm : n = mentioner
        · rw [hm]
          exact hleads t htn (.inr (hm ▸ ht))
        · rwa [hsame hn hm]

theorem reroutes_fuseAt (hlast : rs.successors mentioner = [name]) :
    rs.Reroutes (rs.fuseAt name mentioner) name mentioner := by
  refine hc.reroutes hid (fun hn hm => ?_) fun t htn ht => ?_
  · rw [successors_fuseAt hn, if_neg hm]
  · rw [successors_fuseAt hc.ne_mentioner.symm, if_pos rfl]
    refine ht.resolve_right fun hmem => htn ?_
    rwa [hlast, List.mem_singleton] at hmem

theorem reroutes_inlineAt (hsub : ∀ t ∈ rs.successors name, t ∈ rs.successors mentioner) :
    rs.Reroutes (rs.inlineAt name mentioner) name mentioner := by
  refine hc.reroutes hid (fun hn hm => ?_) fun t htn ht => ?_
  · rw [successors_inlineAt hn, if_neg hm]
  · rw [successors_inlineAt hc.ne_mentioner.symm, if_pos rfl]
    exact List.mem_map.mpr ⟨t, ht.elim (hsub t) id, if_neg htn⟩

/-- What can be reached after fusing could be before, by way of the rule that is
gone. -/
theorem reachable_of_fuseAt (h : (rs.fuseAt name mentioner).Reachable beyond n) :
    rs.Reachable beyond n := by
  induction h with
  | root => exact .root
  | @next n t _ hpass ht ih =>
    rw [successors_fuseAt (mem_successors_remove ht).1] at ht
    split at ht
    · rename_i hm
      subst hm
      exact (ih.next hpass hc.mem).onward hid hc.hasRule ht
    · exact ih.next hpass ht

end Mentioner

/-- What can be reached after inlining could be before, or is a fragment; and no way
leads on from there. -/
theorem reachable_of_inlineAt {name mentioner : String} (hwell : rs.WellFormed)
    (hc : rs.SoleMention name mentioner)
    (h : (rs.inlineAt name mentioner).Reachable beyond n) :
    rs.Reachable beyond n ∨ Pattern.IsFragment n := by
  have hwell' := hwell.removes (removes_inlineAt hc)
  induction h with
  | root => exact .inl .root
  | @next n t _ hpass ht ih =>
    have hold : rs.Reachable beyond n := by
      refine ih.resolve_right fun hfragment => ?_
      rcases hwell'.hasRule_of_mem_successors ht with rfl | hrule
      · revert hfragment
        decide
      · exact hfragment.not_isIdentifier (hwell'.identified n hrule)
    rw [successors_inlineAt (mem_successors_remove ht).1] at ht
    split at ht
    · rename_i hm
      subst hm
      obtain ⟨s, hs, rfl⟩ := List.mem_map.mp ht
      split
      · exact .inr (Pattern.isFragment_fragment _)
      · exact .inl (hold.next hpass hs)
    · exact .inl (hold.next hpass ht)

/-! ### Merging -/

section Merging

variable {kept dropped : String} (hid : rs.Identified) (htwins : rs.Twins kept dropped)
include hid htwins

/-- Every step is made with the kept rule in the place of the dropped one. -/
theorem reroutes_mergeAt : rs.Reroutes (rs.mergeAt kept dropped) dropped kept where
  ne_root := htwins.dropped_ne_root
  ne_end := (hid kept htwins.hasRule_kept).1
  step := by
    intro n t ht
    right
    by_cases hn : n = dropped
    · rw [hn, standIn_self, successors_mergeAt htwins.ne, htwins.successors_eq, ← hn]
      exact List.mem_map_of_mem ht
    · rw [standIn_of_ne hn, successors_mergeAt hn]
      exact List.mem_map_of_mem ht

/-- What can be reached after merging stands for something that could be before. -/
theorem exists_reachable_of_mergeAt (h : (rs.mergeAt kept dropped).Reachable beyond n) :
    ∃ d, rs.Reachable beyond d ∧ standIn dropped kept d = n := by
  induction h with
  | root => exact ⟨_, .root, standIn_of_ne htwins.dropped_ne_root.symm⟩
  | @next n t _ hpass ht ih =>
    obtain ⟨d, hd, hstand⟩ := ih
    rw [successors_mergeAt (mem_successors_remove ht).1] at ht
    obtain ⟨s, hs, rfl⟩ := List.mem_map.mp ht
    refine ⟨s, ?_, rfl⟩
    by_cases hdropped : d = dropped
    · -- the kept rule has the successors of its twin
      rw [hdropped, standIn_self] at hstand
      rw [← hstand, htwins.successors_eq, ← hdropped] at hs
      exact hd.onward hid (hdropped ▸ htwins.hasRule_dropped) hs
    · rw [standIn_of_ne hdropped] at hstand
      subst hstand
      exact hd.next hpass hs

end Merging

/-! ### One reduction -/

section Step

variable {r : Reduction} (hr : rs.Reduces r)
include hr

/-- Where a rule has an heir after a reduction, ways come past the heir in its place. -/
theorem Reduces.exists_reroutes (hid : rs.Identified) :
    ∃ gone place, rs.Reroutes r.result gone place ∧
      ∀ d, r.result.hasRule (r.event.heir d) → standIn gone place d = r.event.heir d := by
  cases hr with
  | fuse hc hlast =>
    refine ⟨_, _, reroutes_fuseAt hid hc hlast, fun d hd => standIn_of_ne ?_⟩
    exact ((hasRule_fuseAt hc.hasRule_mentioner).mp hd).1
  | merge ht => exact ⟨_, _, reroutes_mergeAt hid ht, fun _ _ => rfl⟩
  | inline hc hsub =>
    refine ⟨_, _, reroutes_inlineAt hid hc hsub, fun d hd => standIn_of_ne ?_⟩
    exact (hasRule_inlineAt.mp hd).1

/-- A rule that can be reached after a reduction is the heir of one that could be
before. -/
theorem Reduces.exists_reachable (hwell : rs.WellFormed) (hn : r.result.hasRule n)
    (h : r.result.Reachable beyond n) : ∃ d, rs.Reachable beyond d ∧ r.event.heir d = n := by
  cases hr with
  | fuse hc _ => exact ⟨n, reachable_of_fuseAt hwell.identified hc h, rfl⟩
  | merge ht => exact exists_reachable_of_mergeAt hwell.identified ht h
  | inline hc _ =>
    refine ⟨n, (reachable_of_inlineAt hwell hc h).resolve_right fun hfragment => ?_, rfl⟩
    exact hfragment.not_isIdentifier (hwell.identified n (hasRule_inlineAt.mp hn).2)

/-- After a reduction the rules that can be reached are the heirs of those that could
be before. -/
theorem Reduces.reachable_iff (hwell : rs.WellFormed) (hn : r.result.hasRule n) :
    r.result.Reachable beyond n ↔ ∃ d, rs.Reachable beyond d ∧ r.event.heir d = n := by
  constructor
  · exact hr.exists_reachable hwell hn
  · rintro ⟨d, hd, rfl⟩
    obtain ⟨gone, place, hroutes, hheir⟩ := hr.exists_reroutes hwell.identified
    rw [← hheir d hn]
    exact hroutes.reachable hd

end Step

/-! ### The whole sequence -/

/-- After any rewrites the rules that can be reached are the heirs of those that could
be before. -/
theorem reachable_rewrite_iff (hwell : rs.WellFormed) (ws : List Rewrite)
    (hn : (rs.rewrite ws).hasRule n) :
    (rs.rewrite ws).Reachable beyond n ↔
      ∃ d, rs.Reachable beyond d ∧ heir (rs.trace ws) d = n := by
  revert hwell hn
  refine rewrite_induction (motive := fun rs final events => rs.WellFormed → final.hasRule n →
    (final.Reachable beyond n ↔ ∃ d, rs.Reachable beyond d ∧ heir events d = n)) ?_ ?_ rs ws
  · intro rs _ _
    constructor
    · exact fun h => ⟨n, h, rfl⟩
    · rintro ⟨d, hd, rfl⟩
      exact hd
  · intro rs r ws hr ih hwell hn
    rw [ih (hwell.reduces hr) hn]
    constructor
    · rintro ⟨d₁, hd₁, rfl⟩
      obtain ⟨d, hd, rfl⟩ := (hr.reachable_iff hwell (hasRule_of_heir hn)).mp hd₁
      exact ⟨d, hd, rfl⟩
    · rintro ⟨d, hd, rfl⟩
      exact ⟨_, (hr.reachable_iff hwell (hasRule_of_heir hn)).mpr ⟨d, hd, rfl⟩, rfl⟩

/-- No rewrite cuts a rule off, and no sequence of them does.  A rule that stays can
be reached if it could be before; and if it could not, it can be reached only in the
place of a rule that could, with which it was merged. -/
theorem reachable_rewrite (hwell : rs.WellFormed) (beyond : Prop) :
    (∀ (w : Rewrite) r, w.fire? rs = some r → ∀ n, r.result.hasRule n →
      (rs.Reachable beyond n → r.result.Reachable beyond n) ∧
      (r.result.Reachable beyond n → rs.Reachable beyond n ∨
        ∃ dropped, r.event = .ruleMerged dropped n ∧ rs.hasRule dropped ∧
          ¬ r.result.hasRule dropped ∧ rs.Reachable beyond dropped)) ∧
    ∀ ws n, (rs.rewrite ws).hasRule n →
      (rs.Reachable beyond n → (rs.rewrite ws).Reachable beyond n) ∧
      ((rs.rewrite ws).Reachable beyond n → rs.Reachable beyond n ∨
        ∃ dropped, heir (rs.trace ws) dropped = n ∧ rs.hasRule dropped ∧
          ¬ (rs.rewrite ws).hasRule dropped ∧ rs.Reachable beyond dropped) := by
  constructor
  · intro w r hfire n hn
    have hr := Rewrite.reduces_of_fire? hfire
    rw [hr.reachable_iff hwell hn]
    constructor
    · exact fun h => ⟨n, h, (hr.heir_eq_or n).resolve_right fun hout => hout.2 hn⟩
    · rintro ⟨d, hd, hheir⟩
      rcases hr.heir_eq_or d with hsame | ⟨hrule, hout⟩
      · rw [hsame] at hheir
        exact .inl (hheir ▸ hd)
      · have hne : r.event.heir d ≠ d := by
          rw [hheir]
          rintro rfl
          exact hout hn
        have hmerged := Event.eq_ruleMerged_of_heir_ne hne
        rw [hheir] at hmerged
        exact .inr ⟨d, hmerged, hrule, hout, hd⟩
  · intro ws n hn
    rw [reachable_rewrite_iff hwell ws hn]
    constructor
    · exact fun h => ⟨n, h, heir_trace_of_hasRule hn⟩
    · rintro ⟨d, hd, hheir⟩
      rcases heir_trace_eq_or rs ws d with hsame | ⟨hrule, hout⟩
      · rw [hsame] at hheir
        exact .inl (hheir ▸ hd)
      · exact .inr ⟨d, hheir, hrule, hout, hd⟩

/-- Two digits that are alike, of which the first one cannot be reached. -/
def spareDigitRules : RuleSet where
  rules := .named [⟨"root", ""⟩, ⟨"_rule1", "[0-9]"⟩, ⟨"_rule2", "[0-9]"⟩, ⟨"_rule3", "[a-zA-Z]"⟩]
  adjacency := ⟨[("root", ["_rule2", ""]), ("_rule1", ["_rule3", ""]), ("_rule2", ["_rule3", ""]),
    ("_rule3", [""])], by decide⟩

theorem not_reachable_spareDigit : ¬ spareDigitRules.Reachable False "_rule1" := by
  have hclosed : ∀ x ∈ ["root", "_rule2", "_rule3", ""], ∀ t ∈ spareDigitRules.successors x,
      t ∈ ["root", "_rule2", "_rule3", ""] := by decide
  have hall : ∀ n, spareDigitRules.Reachable False n → n ∈ ["root", "_rule2", "_rule3", ""] := by
    intro n h
    induction h with
    | root => decide
    | next _ _ ht ih => exact hclosed _ ih _ ht
  intro h
  exact absurd (hall _ h) (by decide)

/-- The digits are merged, and the spare one can be reached in the place of the other;
the letter behind them can be as before, until it is inlined. -/
theorem reachable_rewrite_spareDigit :
    spareDigitRules.WellFormed ∧
      (∃ r, Rewrite.merge.fire? spareDigitRules = some r ∧ r.result.hasRule "_rule3" ∧
        r.result.Reachable False "_rule3") ∧
      ¬ spareDigitRules.Reachable False "_rule1" ∧
      (spareDigitRules.rewrite [.merge, .inline]).Reachable False "_rule1" ∧
      ∃ dropped, heir (spareDigitRules.trace [.merge, .inline]) dropped = "_rule1" ∧
        spareDigitRules.hasRule dropped ∧
        ¬ (spareDigitRules.rewrite [.merge, .inline]).hasRule dropped ∧
        spareDigitRules.Reachable False dropped := by
  have hwell : spareDigitRules.WellFormed := by decide
  obtain ⟨hone, hall⟩ := reachable_rewrite hwell False
  have hfire : ∃ r, Rewrite.merge.fire? spareDigitRules = some r ∧ r.result.hasRule "_rule3" :=
    (Option.any_eq_true _ _).mp (by decide +kernel)
  obtain ⟨r, hr, hletter⟩ := hfire
  have hdigit : spareDigitRules.Reachable False "_rule2" := .next .root (by decide) (by decide)
  have hafter : (spareDigitRules.rewrite [.merge, .inline]).Reachable False "_rule1" :=
    .next .root (by decide) (by decide +kernel)
  refine ⟨hwell, ⟨r, hr, hletter, ?_⟩, not_reachable_spareDigit, hafter, ?_⟩
  · exact (hone _ r hr _ hletter).1 (hdigit.next (by decide) (by decide))
  · exact ((hall _ _ (by decide +kernel)).2 hafter).resolve_left not_reachable_spareDigit

end GrammarDiagram.RuleSet
