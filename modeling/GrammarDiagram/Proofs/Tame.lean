/-
GrammarDiagram/Proofs/Tame.lean

Absorbing in any order.

Two steps in which rules are absorbed, out of one rule set, can be made one after
the other, in either order and with one result (`Tame.meets`): they are apart,
or the one happens in the rule that the other takes away, or they happen in one
mentioner.  So such steps have one end (`Tame.existsUnique_endsIn`).

This needs a rule set that is `Tame`.  If rules are fused, all patterns must be
stripped, so that it does not matter in which order three of them are put
together, and no rules may form a ring, where every rule could be the one that is
left.  If rules are also inlined, every rule must have a successor, so that none
can be both fused and inlined.
-/
import GrammarDiagram.Proofs.Absorbing
import GrammarDiagram.Proofs.Stripping

namespace GrammarDiagram.RuleSet

variable {rs : RuleSet} {name mentioner pattern n t : String} {targets : List String}

/-! ### Rings -/

/-- The second rule is all that follows the first, and follows nothing else. -/
def Links (rs : RuleSet) (mentioner name : String) : Prop :=
  rs.SoleMention name mentioner ∧ rs.successors mentioner = [name]

/-- The links that start with a rule lead back to it. -/
def OnRing (rs : RuleSet) (n : String) : Prop := Relation.TransGen rs.Links n n

/-- A rule that could be fused and inlined has no successors: it would be followed
by itself. -/
theorem Links.successors_eq_nil (h : rs.Links mentioner name)
    (hsub : ∀ t ∈ rs.successors name, t ∈ rs.successors mentioner) : rs.successors name = [] := by
  obtain ⟨hsole, hlast⟩ := h
  refine List.eq_nil_iff_forall_not_mem.mpr fun t ht => ?_
  have heq := hsub t ht
  rw [hlast, List.mem_singleton] at heq
  rw [heq] at ht
  exact hsole.ne_mentioner (hsole.only _ ht)

namespace Absorbs

variable {w : Rewrite}

/-- Absorbing a rule makes no links but where it joins two of them. -/
theorem transGen_links {a b : String} (hid : rs.Identified)
    (h : rs.Absorbs name mentioner w pattern targets)
    (hgoes : w = .inline → rs.successors name ≠ [])
    (hl : (rs.absorb name mentioner pattern targets).Links a b) :
    Relation.TransGen rs.Links a b := by
  obtain ⟨hsole, hlast⟩ := hl
  obtain ⟨hbn, hb⟩ := (hasRule_absorb h.sole.hasRule_mentioner).mp hsole.hasRule
  obtain ⟨han, ha⟩ := (hasRule_absorb h.sole.hasRule_mentioner).mp hsole.hasRule_mentioner
  have honly : ∀ x, x ≠ name → (b ∈ rs.successors x ∨ x = mentioner ∧ b ∈ rs.successors name) →
      x = a :=
    fun x hx hmem => hsole.only x ((h.mem_successors_iff hid hb hbn).mpr ⟨hx, hmem⟩)
  rw [successors_absorb, if_neg han] at hlast
  by_cases ham : a = mentioner
  · rw [if_pos ham] at hlast
    cases h with
    | fuse hsole' hlast' =>
      -- the link was two links, with the rule in the middle
      have hsole'' : rs.SoleMention b name := by
        refine ⟨hb, hsole'.hasRule, hsole.ne_root, hbn, by simp [hlast], fun x hx => ?_⟩
        by_contra hxn
        obtain rfl := honly x hxn (.inl hx)
        rw [ham, hlast', List.mem_singleton] at hx
        exact hbn hx
      rw [ham]
      exact .tail (.single ⟨hsole', hlast'⟩) ⟨hsole'', hlast⟩
    | inline hsole' hsub =>
      -- the rule was the only successor, so it could be fused as well
      have hlen : (rs.successors mentioner).length = 1 := by
        simpa [replaced] using congrArg List.length hlast
      have hlast' : rs.successors mentioner = [name] := by
        have hmem := hsole'.mem
        obtain ⟨u, hu⟩ := List.length_eq_one_iff.mp hlen
        rw [hu, List.mem_singleton] at hmem
        rw [hu, hmem]
      exact absurd (Links.successors_eq_nil ⟨hsole', hlast'⟩ hsub) (hgoes rfl)
  · rw [if_neg ham] at hlast
    refine .single ⟨⟨hb, ha, hsole.ne_root, hsole.ne_mentioner, by simp [hlast], ?_⟩, hlast⟩
    intro x hx
    by_cases hxn : x = name
    · rw [hxn] at hx
      exact absurd (honly mentioner h.sole.ne_mentioner.symm (.inr ⟨rfl, hx⟩)).symm ham
    · exact honly x hxn (.inl hx)

end Absorbs

/-! ### Tame rule sets -/

/-- What steps of these kinds must not meet if their order is not to matter. -/
structure Tame (kinds : Set Rewrite) (rs : RuleSet) : Prop where
  identified : rs.Identified
  stripped : .fuse ∈ kinds → ∀ n, rs.hasRule n → Text.IsStripped (rs.patternOf n)
  ringless : .fuse ∈ kinds → ∀ n, ¬ rs.OnRing n
  goesOn : .fuse ∈ kinds → .inline ∈ kinds → ∀ n, rs.hasRule n → rs.successors n ≠ []

/-- Steps in which rules are absorbed lead to no others. -/
theorem Tame.absorbs {kinds : Set Rewrite} {w : Rewrite} (ht : Tame kinds rs)
    (hw : w ∈ kinds) (h : rs.Absorbs name mentioner w pattern targets) :
    Tame kinds (rs.absorb name mentioner pattern targets) where
  identified := by
    intro n hn
    exact ht.identified n ((hasRule_absorb h.sole.hasRule_mentioner).mp hn).2
  stripped := by
    intro hfuse n hn
    obtain ⟨hne, hrule⟩ := (hasRule_absorb h.sole.hasRule_mentioner).mp hn
    rw [patternOf_absorb hne]
    split
    · cases h with
      | fuse => exact Text.isStripped_strip _
      | inline hsole _ => exact ht.stripped hfuse _ hsole.hasRule_mentioner
    · exact ht.stripped hfuse n hrule
  ringless := by
    intro hfuse n hring
    have hgoes : w = .inline → rs.successors name ≠ [] := by
      rintro rfl
      exact ht.goesOn hfuse hw name h.sole.hasRule
    exact ht.ringless hfuse n
      (Relation.TransGen.closed (fun _ _ => h.transGen_links ht.identified hgoes) n n hring)
  goesOn := by
    intro hfuse hinline n hn
    obtain ⟨hne, hrule⟩ := (hasRule_absorb h.sole.hasRule_mentioner).mp hn
    rw [successors_absorb, if_neg hne]
    split
    · cases h with
      | fuse hsole _ => exact ht.goesOn hfuse hinline _ hsole.hasRule
      | inline hsole _ =>
        simpa [replaced] using ht.goesOn hfuse hinline _ hsole.hasRule_mentioner
    · exact ht.goesOn hfuse hinline n hrule

/-! ### Two steps out of one rule set -/

namespace Absorbs

variable {w w₁ w₂ : Rewrite} {r₁ r₂ m m₁ m₂ p₁ p₂ : String} {ts₁ ts₂ : List String}

/-- What is absorbed depends on the rule and its mentioner only. -/
theorem congr {rs' : RuleSet} (h : rs.Absorbs name mentioner w pattern targets)
    (hsole : rs'.SoleMention name mentioner)
    (hpattern : ∀ n, n = name ∨ n = mentioner → rs'.patternOf n = rs.patternOf n)
    (hsuccessors : ∀ n, n = name ∨ n = mentioner → rs'.successors n = rs.successors n) :
    rs'.Absorbs name mentioner w pattern targets := by
  have hname := hsuccessors name (.inl rfl)
  have hmentioner := hsuccessors mentioner (.inr rfl)
  cases h with
  | fuse _ hlast =>
    rw [← hpattern name (.inl rfl), ← hpattern mentioner (.inr rfl), ← hname]
    exact .fuse hsole (hmentioner.trans hlast)
  | inline _ hsub =>
    rw [← hpattern name (.inl rfl), ← hpattern mentioner (.inr rfl), ← hmentioner]
    exact .inline hsole (by rwa [hname, hmentioner])

/-- Absorbing at one place leaves another place as it is. -/
theorem apart (hid : rs.Identified) (h₁ : rs.Absorbs r₁ m₁ w₁ p₁ ts₁)
    (h₂ : rs.Absorbs r₂ m₂ w₂ p₂ ts₂) (hr : r₂ ≠ r₁) (hm : m₂ ≠ m₁) (hmr : m₂ ≠ r₁)
    (hrm : r₂ ≠ m₁) : (rs.absorb r₁ m₁ p₁ ts₁).Absorbs r₂ m₂ w₂ p₂ ts₂ := by
  refine h₂.congr (h₁.soleMention hid h₂.sole hr hmr hm) ?_ ?_
  · rintro n (rfl | rfl)
    · rw [patternOf_absorb hr, if_neg hrm]
    · rw [patternOf_absorb hmr, if_neg hm]
  · rintro n (rfl | rfl)
    · rw [successors_absorb, if_neg hr, if_neg hrm]
    · rw [successors_absorb, if_neg hmr, if_neg hm]

section Chain

variable (hid : rs.Identified) (hsole : rs.SoleMention r₁ m₁)
  (h₂ : rs.Absorbs r₂ r₁ w₂ p₂ ts₂) (hrm : r₂ ≠ m₁)
include hid hsole h₂ hrm

/-- A rule that is absorbed may have absorbed another one before. -/
theorem chain_fuse (hlast : rs.successors m₁ = [r₁]) :
    (rs.absorb r₂ r₁ p₂ ts₂).Absorbs r₁ m₁ .fuse
      (Text.strip (rs.patternOf m₁ ++ " " ++ p₂)) ts₂ := by
  have hr : r₁ ≠ r₂ := h₂.sole.ne_mentioner.symm
  have hm : m₁ ≠ r₁ := hsole.ne_mentioner.symm
  have hfuse := @fuse (rs.absorb r₂ r₁ p₂ ts₂) r₁ m₁
    (h₂.soleMention hid hsole hr hrm.symm hm)
    (by rw [successors_absorb, if_neg hrm.symm, if_neg hm, hlast])
  rwa [patternOf_absorb hrm.symm, if_neg hm, patternOf_absorb hr, if_pos rfl, successors_absorb,
    if_neg hr, if_pos rfl] at hfuse

/-- What an absorbed rule could absorb, its mentioner can. -/
theorem chain_absorbs (hlast : rs.successors m₁ = [r₁])
    (hstrip : w₂ = .fuse → ∀ n, rs.hasRule n → Text.IsStripped (rs.patternOf n)) :
    (rs.absorb r₁ m₁ (Text.strip (rs.patternOf m₁ ++ " " ++ rs.patternOf r₁))
      (rs.successors r₁)).Absorbs r₂ m₁ w₂ (Text.strip (rs.patternOf m₁ ++ " " ++ p₂)) ts₂ := by
  have hr : r₂ ≠ r₁ := h₂.sole.ne_mentioner
  have hm : m₁ ≠ r₁ := hsole.ne_mentioner.symm
  have h₁ : rs.Absorbs r₁ m₁ .fuse _ _ := .fuse hsole hlast
  have hsole' : (rs.absorb r₁ m₁ (Text.strip (rs.patternOf m₁ ++ " " ++ rs.patternOf r₁))
      (rs.successors r₁)).SoleMention r₂ m₁ :=
    h₁.soleMention_mentioner hid h₂.sole.hasRule h₂.sole.ne_root hr hrm h₂.sole.once
      fun x hx => .inl (h₂.sole.only x hx)
  cases h₂ with
  | fuse hsole₂ hlast₂ =>
    have hfuse := fuse hsole' (by rw [successors_absorb, if_neg hm, if_pos rfl, hlast₂])
    rw [patternOf_absorb hm, if_pos rfl, patternOf_absorb hr, if_neg hrm, successors_absorb,
      if_neg hr, if_neg hrm, Text.strip_append_assoc (hstrip rfl _ hsole.hasRule_mentioner)
        (hstrip rfl _ hsole.hasRule) (hstrip rfl _ hsole₂.hasRule)] at hfuse
    exact hfuse
  | inline hsole₂ hsub₂ =>
    have hinline := inline hsole' (by
      rwa [successors_absorb, successors_absorb, if_neg hr, if_neg hrm, if_neg hm, if_pos rfl])
    rwa [patternOf_absorb hm, if_pos rfl, patternOf_absorb hr, if_neg hrm, successors_absorb,
      if_neg hm, if_pos rfl] at hinline

end Chain

section Same

variable (hid : rs.Identified)
include hid

/-- Putting a pattern in the place of one name leaves the other names there. -/
theorem count_replaced (hr : r₂ ≠ r₁) (hrule : rs.hasRule r₂) (targets : List String) :
    (replaced r₁ (Pattern.fragment pattern) targets).count r₂ = targets.count r₂ := by
  have hfragment : Pattern.fragment pattern ≠ r₂ := by
    rintro rfl
    exact hid.not_hasRule_fragment _ hrule
  rw [replaced, List.count_eq_countP, List.countP_map, List.count_eq_countP]
  refine List.countP_congr fun t _ => ?_
  by_cases ht : t = r₁
  · simp [ht, hfragment, hr.symm]
  · simp [ht]

/-- A rule can still be inlined after another one was at the same place. -/
theorem same (hsole₁ : rs.SoleMention r₁ m) (hsole₂ : rs.SoleMention r₂ m) (hr : r₂ ≠ r₁)
    (hsub₁ : ∀ t ∈ rs.successors r₁, t ∈ rs.successors m)
    (hsub₂ : ∀ t ∈ rs.successors r₂, t ∈ rs.successors m) :
    (rs.absorb r₁ m (rs.patternOf m)
        (replaced r₁ (Pattern.fragment (rs.patternOf r₁)) (rs.successors m))).Absorbs r₂ m .inline
      (rs.patternOf m) (replaced r₂ (Pattern.fragment (rs.patternOf r₂))
        (replaced r₁ (Pattern.fragment (rs.patternOf r₁)) (rs.successors m))) := by
  have hm : m ≠ r₁ := hsole₁.ne_mentioner.symm
  have hrm : r₂ ≠ m := hsole₂.ne_mentioner
  have h₁ : rs.Absorbs r₁ m .inline _ _ := .inline hsole₁ hsub₁
  have hsole : (rs.absorb r₁ m (rs.patternOf m)
      (replaced r₁ (Pattern.fragment (rs.patternOf r₁)) (rs.successors m))).SoleMention r₂ m := by
    have honce := hsole₂.once
    rw [← count_replaced hid hr hsole₂.hasRule] at honce
    exact h₁.soleMention_mentioner hid hsole₂.hasRule hsole₂.ne_root hr hrm honce
      fun x hx => .inr (hsole₂.only x hx)
  have hinline := inline hsole (by
    intro t ht
    rw [successors_absorb, if_neg hr, if_neg hrm] at ht
    rw [successors_absorb, if_neg hm, if_pos rfl, mem_replaced_iff]
    refine .inl ⟨hsub₂ t ht, ?_⟩
    rintro rfl
    exact hrm (hsole₁.only _ ht))
  rwa [patternOf_absorb hm, if_pos rfl, patternOf_absorb hr, if_neg hrm, successors_absorb,
    if_neg hm, if_pos rfl] at hinline

/-- Patterns take the places of two names in either order. -/
theorem replaced_comm {q₁ q₂ : String} (h₁ : rs.hasRule r₁) (h₂ : rs.hasRule r₂)
    (hr : r₂ ≠ r₁) (targets : List String) :
    replaced r₂ (Pattern.fragment q₂) (replaced r₁ (Pattern.fragment q₁) targets) =
      replaced r₁ (Pattern.fragment q₁) (replaced r₂ (Pattern.fragment q₂) targets) := by
  have hne : ∀ {r q}, rs.hasRule r → Pattern.fragment q ≠ r := by
    rintro r q hrule rfl
    exact hid.not_hasRule_fragment q hrule
  simp only [replaced, List.map_map]
  refine List.map_congr_left fun t _ => ?_
  by_cases ht₁ : t = r₁
  · simp [ht₁, hne h₂, hr.symm]
  · by_cases ht₂ : t = r₂
    · simp [ht₂, hne h₁, hr]
    · simp [ht₁, ht₂]

end Same

end Absorbs

/-! ### Steps that meet -/

namespace SoleMention

theorem mem_keys_rules (h : rs.SoleMention name mentioner) : mentioner ∈ rs.rules.keys :=
  (Table.contains_iff_mem_keys _ _).mp h.hasRule_mentioner

theorem mem_keys_adjacency (h : rs.SoleMention name mentioner) :
    mentioner ∈ rs.adjacency.keys :=
  List.mem_map_of_mem (mem_entries_of_mem_successors h.mem)

end SoleMention

section Twice

variable {r₁ r₂ m m₁ m₂ p p₁ p₂ : String} {ts ts₁ ts₂ : List String}

/-- Two steps of absorbing as steps of the two tables: the first one leaves the name of
the second mentioner. -/
theorem absorb_absorb (hm : m₂ ≠ r₁) :
    (rs.absorb r₁ m₁ p₁ ts₁).absorb r₂ m₂ p₂ ts₂ =
      ⟨(rs.rules.absorb r₁ m₁ ⟨(rs.ruleOf m₁).name, p₁⟩).absorb r₂ m₂ ⟨(rs.ruleOf m₂).name, p₂⟩,
        (rs.adjacency.absorb r₁ m₁ ts₁).absorb r₂ m₂ ts₂⟩ := by
  rw [absorb, name_ruleOf_absorb hm]
  rfl

theorem absorb_apart (h₁ : rs.SoleMention r₁ m₁) (h₂ : rs.SoleMention r₂ m₂) (hm : m₁ ≠ m₂)
    (h₁₂ : m₁ ≠ r₂) (h₂₁ : m₂ ≠ r₁) :
    (rs.absorb r₁ m₁ p₁ ts₁).absorb r₂ m₂ p₂ ts₂ =
      (rs.absorb r₂ m₂ p₂ ts₂).absorb r₁ m₁ p₁ ts₁ := by
  rw [absorb_absorb h₂₁, absorb_absorb h₁₂,
    Table.absorb_apart h₁.mem_keys_rules h₂.mem_keys_rules hm h₁₂ h₂₁,
    Table.absorb_apart h₁.mem_keys_adjacency h₂.mem_keys_adjacency hm h₁₂ h₂₁]

theorem absorb_chain (h₁ : rs.SoleMention r₁ m) (h₂ : rs.SoleMention r₂ r₁) (hm : m ≠ r₂) :
    (rs.absorb r₂ r₁ p₂ ts₂).absorb r₁ m p ts = (rs.absorb r₁ m p₁ ts₁).absorb r₂ m p ts := by
  have hr : m ≠ r₁ := h₁.ne_mentioner.symm
  rw [absorb_absorb hm, absorb_absorb hr,
    Table.absorb_chain h₂.mem_keys_rules h₁.mem_keys_rules hr hm,
    Table.absorb_chain h₂.mem_keys_adjacency h₁.mem_keys_adjacency hr hm]

theorem absorb_same (h₁ : rs.SoleMention r₁ m) (h₂ : rs.SoleMention r₂ m) :
    (rs.absorb r₁ m p₁ ts₁).absorb r₂ m p ts = (rs.absorb r₂ m p₂ ts₂).absorb r₁ m p ts := by
  have hm₁ : m ≠ r₁ := h₁.ne_mentioner.symm
  have hm₂ : m ≠ r₂ := h₂.ne_mentioner.symm
  rw [absorb_absorb hm₁, absorb_absorb hm₂, Table.absorb_same h₁.mem_keys_rules hm₁ hm₂,
    Table.absorb_same h₁.mem_keys_adjacency hm₁ hm₂]

end Twice

section Meets

variable {kinds : Set Rewrite} {w w₁ w₂ : Rewrite} {r₁ r₂ m m₁ m₂ p₁ p₂ : String}
  {ts₁ ts₂ : List String}

theorem Absorbs.next (h : rs.Absorbs name mentioner w pattern targets) (hw : w ∈ kinds) :
    Next kinds rs (rs.absorb name mentioner pattern targets) := by
  have hmerge : w ≠ .merge := by
    rintro rfl
    cases h
  exact ⟨w, hw, (step_iff_absorbs hmerge).mpr ⟨_, _, _, _, h, rfl⟩⟩

variable (ht : Tame kinds rs)
include ht

theorem Tame.meets_apart (hw₁ : w₁ ∈ kinds) (hw₂ : w₂ ∈ kinds)
    (h₁ : rs.Absorbs r₁ m₁ w₁ p₁ ts₁) (h₂ : rs.Absorbs r₂ m₂ w₂ p₂ ts₂) (hr : r₁ ≠ r₂)
    (hm : m₁ ≠ m₂) (h₁₂ : m₁ ≠ r₂) (h₂₁ : m₂ ≠ r₁) :
    Meets kinds (rs.absorb r₁ m₁ p₁ ts₁) (rs.absorb r₂ m₂ p₂ ts₂) := by
  refine .inr ⟨_, (h₁.apart ht.identified h₂ hr.symm hm.symm h₂₁ h₁₂.symm).next hw₂, ?_⟩
  have hback := (h₂.apart ht.identified h₁ hr hm h₁₂ h₂₁.symm).next hw₁
  rwa [absorb_apart h₂.sole h₁.sole hm.symm h₂₁ h₁₂] at hback

/-- Where a rule is fused into its mentioner, another one can be absorbed by the
rule before or by the mentioner after. -/
theorem Tame.meets_chain (hw₁ : .fuse ∈ kinds) (hw₂ : w₂ ∈ kinds) (hsole : rs.SoleMention r₁ m₁)
    (hlast : rs.successors m₁ = [r₁]) (h₂ : rs.Absorbs r₂ r₁ w₂ p₂ ts₂) :
    Meets kinds (rs.absorb r₁ m₁ (Text.strip (rs.patternOf m₁ ++ " " ++ rs.patternOf r₁))
      (rs.successors r₁)) (rs.absorb r₂ r₁ p₂ ts₂) := by
  have hrm : r₂ ≠ m₁ := by
    rintro rfl
    cases h₂ with
    | fuse hsole₂ hlast₂ =>
      exact ht.ringless hw₁ r₂ (.tail (.single ⟨hsole, hlast⟩) ⟨hsole₂, hlast₂⟩)
    | inline hsole₂ hsub₂ =>
      exact hsole₂.ne_mentioner.symm (hsole.only _ (hsub₂ r₁ hsole.mem))
  have hforth := h₂.chain_absorbs ht.identified hsole hrm hlast fun _ => ht.stripped hw₁
  have hback := h₂.chain_fuse ht.identified hsole hrm hlast
  refine .inr ⟨_, hforth.next hw₂, ?_⟩
  have hnext := hback.next hw₁
  rwa [absorb_chain hsole h₂.sole hrm.symm] at hnext

theorem Tame.meets_same (hw : .inline ∈ kinds) (hsole₁ : rs.SoleMention r₁ m)
    (hsole₂ : rs.SoleMention r₂ m) (hr : r₁ ≠ r₂)
    (hsub₁ : ∀ t ∈ rs.successors r₁, t ∈ rs.successors m)
    (hsub₂ : ∀ t ∈ rs.successors r₂, t ∈ rs.successors m) :
    Meets kinds
      (rs.absorb r₁ m (rs.patternOf m)
        (replaced r₁ (Pattern.fragment (rs.patternOf r₁)) (rs.successors m)))
      (rs.absorb r₂ m (rs.patternOf m)
        (replaced r₂ (Pattern.fragment (rs.patternOf r₂)) (rs.successors m))) := by
  have hforth := Absorbs.same ht.identified hsole₁ hsole₂ hr.symm hsub₁ hsub₂
  have hback := Absorbs.same ht.identified hsole₂ hsole₁ hr hsub₂ hsub₁
  refine .inr ⟨_, hforth.next hw, ?_⟩
  have hnext := hback.next hw
  rw [Absorbs.replaced_comm ht.identified hsole₂.hasRule hsole₁.hasRule hr] at hnext
  rwa [absorb_same hsole₂ hsole₁] at hnext

/-- A rule is absorbed in one way only. -/
theorem Tame.absorb_eq (hw₁ : w₁ ∈ kinds) (hw₂ : w₂ ∈ kinds)
    (h₁ : rs.Absorbs name m₁ w₁ p₁ ts₁) (h₂ : rs.Absorbs name m₂ w₂ p₂ ts₂) :
    rs.absorb name m₁ p₁ ts₁ = rs.absorb name m₂ p₂ ts₂ := by
  obtain rfl : m₂ = m₁ := h₁.sole.only m₂ h₂.sole.mem
  cases h₁ with
  | fuse hsole hlast =>
    cases h₂ with
    | fuse => rfl
    | inline _ hsub =>
      exact absurd (Links.successors_eq_nil ⟨hsole, hlast⟩ hsub)
        (ht.goesOn hw₁ hw₂ _ hsole.hasRule)
  | inline hsole hsub =>
    cases h₂ with
    | fuse _ hlast =>
      exact absurd (Links.successors_eq_nil ⟨hsole, hlast⟩ hsub)
        (ht.goesOn hw₂ hw₁ _ hsole.hasRule)
    | inline => rfl

/-- In one mentioner that absorbs two rules, both of them are inlined. -/
theorem Tame.meets_of_mentioner (hw₁ : w₁ ∈ kinds) (h₁ : rs.Absorbs r₁ m w₁ p₁ ts₁)
    (h₂ : rs.Absorbs r₂ m w₂ p₂ ts₂) (hr : r₁ ≠ r₂) :
    Meets kinds (rs.absorb r₁ m p₁ ts₁) (rs.absorb r₂ m p₂ ts₂) := by
  have hlone : ∀ {a b}, rs.successors m = [a] → rs.SoleMention b m → b = a := by
    intro a b hlast hsole
    have hmem := hsole.mem
    rwa [hlast, List.mem_singleton] at hmem
  cases h₁ with
  | fuse _ hlast => exact absurd (hlone hlast h₂.sole).symm hr
  | inline hsole₁ hsub₁ =>
    cases h₂ with
    | fuse _ hlast => exact absurd (hlone hlast hsole₁) hr
    | inline hsole₂ hsub₂ => exact ht.meets_same hw₁ hsole₁ hsole₂ hr hsub₁ hsub₂

/-- A rule whose mentioner is absorbed at the same time. -/
theorem Tame.meets_of_absorbed (hw₁ : w₁ ∈ kinds) (hw₂ : w₂ ∈ kinds)
    (h₁ : rs.Absorbs r₁ m₁ w₁ p₁ ts₁) (h₂ : rs.Absorbs r₂ r₁ w₂ p₂ ts₂) :
    Meets kinds (rs.absorb r₁ m₁ p₁ ts₁) (rs.absorb r₂ r₁ p₂ ts₂) := by
  cases h₁ with
  | fuse hsole hlast => exact ht.meets_chain hw₁ hw₂ hsole hlast h₂
  | inline hsole hsub =>
    -- inlined, the mentioner would not be the only one
    exact absurd (h₂.sole.only _ (hsub r₂ h₂.sole.mem)).symm hsole.ne_mentioner

/-- Two steps in which rules are absorbed can be brought together again. -/
theorem Tame.meets (hmerge : .merge ∉ kinds) {a b : RuleSet} (ha : Next kinds rs a)
    (hb : Next kinds rs b) : Meets kinds a b := by
  obtain ⟨w₁, hw₁, hstep₁⟩ := ha
  obtain ⟨w₂, hw₂, hstep₂⟩ := hb
  obtain ⟨r₁, m₁, p₁, ts₁, h₁, rfl⟩ :=
    (step_iff_absorbs fun h => hmerge (h ▸ hw₁)).mp hstep₁
  obtain ⟨r₂, m₂, p₂, ts₂, h₂, rfl⟩ :=
    (step_iff_absorbs fun h => hmerge (h ▸ hw₂)).mp hstep₂
  by_cases hr : r₁ = r₂
  · subst hr
    exact .inl (ht.absorb_eq hw₁ hw₂ h₁ h₂)
  · by_cases hm : m₁ = m₂
    · subst hm
      exact ht.meets_of_mentioner hw₁ h₁ h₂ hr
    · by_cases h₂₁ : m₂ = r₁
      · subst h₂₁
        exact ht.meets_of_absorbed hw₁ hw₂ h₁ h₂
      · by_cases h₁₂ : m₁ = r₂
        · subst h₁₂
          exact (ht.meets_of_absorbed hw₂ hw₁ h₂ h₁).symm
        · exact ht.meets_apart hw₁ hw₂ h₁ h₂ hr hm h₁₂ h₂₁

end Meets

/-- If rules are absorbed and none are merged, it does not matter in which order. -/
theorem Tame.existsUnique_endsIn {kinds : Set Rewrite} (ht : Tame kinds rs)
    (hmerge : .merge ∉ kinds) : ∃! final, EndsIn kinds rs final := by
  refine RuleSet.existsUnique_endsIn (P := Tame kinds) ?_ ?_ ht
  · rintro a b ha ⟨w, hw, hstep⟩
    obtain ⟨name, mentioner, pattern, targets, h, rfl⟩ :=
      (step_iff_absorbs fun hm => hmerge (hm ▸ hw)).mp hstep
    exact ha.absorbs hw h
  · intro a b c ha hb hc
    exact ha.meets hmerge hb hc

end GrammarDiagram.RuleSet
