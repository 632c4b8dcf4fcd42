/-
GrammarDiagram/Proofs/Merging.lean

Merging in any order.

Of two twins the earlier one is kept, so in a group of rules that are alike the
first one is left whichever pairs are merged.  Two merges out of one rule set
come together again after one more on either side (`meets_of_merge`): they do not
touch, or they share a rule, and then there is a third pair of twins.
-/
import GrammarDiagram.Proofs.Absorbing

namespace GrammarDiagram

/-! ### Tables -/

namespace Table

variable {α : Type*} (t : Table α)

theorem erase_erase_eq {d₁ d₂ d₃ d₄ : String} (h : ∀ k, k = d₁ ∨ k = d₂ ↔ k = d₃ ∨ k = d₄) :
    (t.erase d₁).erase d₂ = (t.erase d₃).erase d₄ := by
  refine eq_of_keys_of_get? ?_ fun k => ?_
  · rw [keys_erase, keys_erase, keys_erase, keys_erase, List.filter_filter, List.filter_filter]
    refine List.filter_congr fun k _ => ?_
    have hk := h k
    rw [Bool.eq_iff_iff]
    simp only [Bool.and_eq_true, bne_iff_ne]
    tauto
  · have hk := h k
    simp only [get?_erase]
    split_ifs <;> tauto

theorem erase_mapValues {β : Type*} (f : α → β) (d : String) :
    (t.mapValues f).erase d = (t.erase d).mapValues f := by
  refine eq_of_keys_of_get? (by rw [keys_erase, keys_mapValues, keys_mapValues, keys_erase])
    fun k => ?_
  rw [get?_erase, get?_mapValues, get?_mapValues, get?_erase]
  split <;> rfl

theorem mapValues_mapValues {β γ : Type*} (f : α → β) (g : β → γ) :
    (t.mapValues f).mapValues g = t.mapValues (g ∘ f) := by
  refine eq_of_keys_of_get? (by simp) fun k => ?_
  rw [get?_mapValues, get?_mapValues, get?_mapValues, Option.map_map]

end Table

namespace RuleSet

variable {rs : RuleSet} {a b c k k₁ k₂ d d₁ d₂ n t : String}

/-! ### Pairs in a list -/

section Pairs

variable {l : List String}

theorem pair_sublist_trans (hd : l.Nodup) (hab : [a, b].Sublist l) (hbc : [b, c].Sublist l) :
    [a, c].Sublist l := by
  induction l with
  | nil => cases hab
  | cons x l ih =>
    obtain ⟨hx, hd⟩ := List.nodup_cons.mp hd
    rw [pair_sublist_cons_iff] at hab hbc ⊢
    -- the middle item is not the first of the list
    have hb : b ∈ l := hab.elim (fun h => h.subset (by simp)) And.right
    have hbc : [b, c].Sublist l := by
      rcases hbc with hbc | ⟨rfl, -⟩
      · exact hbc
      · exact absurd hb hx
    rcases hab with hab | ⟨hax, -⟩
    · exact .inl (ih hd hab hbc)
    · exact .inr ⟨hax, hbc.subset (by simp)⟩

theorem pair_sublist_total (ha : a ∈ l) (hb : b ∈ l) (hne : a ≠ b) :
    [a, b].Sublist l ∨ [b, a].Sublist l := by
  induction l with
  | nil => cases ha
  | cons x l ih =>
    rw [pair_sublist_cons_iff, pair_sublist_cons_iff]
    rcases List.mem_cons.mp ha with hax | ha
    · exact .inl (.inr ⟨hax, (List.mem_cons.mp hb).resolve_left (hax ▸ hne.symm)⟩)
    · rcases List.mem_cons.mp hb with hbx | hb
      · exact .inr (.inr ⟨hbx, ha⟩)
      · exact (ih ha hb).imp .inl .inl

end Pairs

/-! ### Pairs of twins -/

/-- `rs.Merges kept dropped`: the two can be merged. -/
structure Merges (rs : RuleSet) (kept dropped : String) : Prop where
  sublist : [kept, dropped].Sublist rs.ordinary
  alike : rs.patternOf kept = rs.patternOf dropped ∧ rs.successors kept = rs.successors dropped

theorem step_merge_iff {next : RuleSet} :
    rs.Step .merge next ↔ ∃ kept dropped, rs.Merges kept dropped ∧
      next = rs.mergeAt kept dropped := by
  constructor
  · intro h
    cases h with
    | merge hsub htwins => exact ⟨_, _, ⟨hsub, areTwins_iff.mp htwins⟩, rfl⟩
  · rintro ⟨kept, dropped, h, rfl⟩
    exact .merge h.sublist (areTwins_iff.mpr h.alike)

theorem ordinary_mergeAt (rs : RuleSet) (k d : String) :
    (rs.mergeAt k d).ordinary = rs.ordinary.filter fun n => n != d := by
  have hkeys : (rs.mergeAt k d).rules.keys = rs.rules.keys.filter fun n => n != d :=
    Table.keys_erase _ _
  rw [ordinary, hkeys, List.filter_filter, ordinary, List.filter_filter]
  exact List.filter_congr fun n _ => Bool.and_comm _ _

namespace Merges

theorem twins (h : rs.Merges k d) : rs.Twins k d :=
  twins_of_sublist h.sublist (areTwins_iff.mpr h.alike)

theorem trans (hab : rs.Merges a b) (hbc : rs.Merges b c) : rs.Merges a c where
  sublist := pair_sublist_trans (rs.rules.nodup_keys.sublist List.filter_sublist)
    hab.sublist hbc.sublist
  alike := ⟨hab.alike.1.trans hbc.alike.1, hab.alike.2.trans hbc.alike.2⟩

/-- Two rules that can be kept for one that is dropped can be merged with each
other. -/
theorem total (h₁ : rs.Merges k₁ d) (h₂ : rs.Merges k₂ d) (hne : k₁ ≠ k₂) :
    rs.Merges k₁ k₂ ∨ rs.Merges k₂ k₁ := by
  have hpattern := h₁.alike.1.trans h₂.alike.1.symm
  have hsuccessors := h₁.alike.2.trans h₂.alike.2.symm
  rcases pair_sublist_total (h₁.sublist.subset (by simp)) (h₂.sublist.subset (by simp)) hne
    with hsub | hsub
  · exact .inl ⟨hsub, hpattern, hsuccessors⟩
  · exact .inr ⟨hsub, hpattern.symm, hsuccessors.symm⟩

/-- Pairs of twins stay twins where others are merged. -/
theorem mergeAt (h : rs.Merges a b) (ha : a ≠ d) (hb : b ≠ d) : (rs.mergeAt k d).Merges a b where
  sublist := by
    have hfilter := h.sublist.filter fun n => n != d
    rw [ordinary_mergeAt]
    simpa [ha, hb] using hfilter
  alike := by
    rw [patternOf_mergeAt ha, patternOf_mergeAt hb, successors_mergeAt ha, successors_mergeAt hb]
    exact ⟨h.alike.1, congrArg _ h.alike.2⟩

theorem next (h : rs.Merges k d) : Next {.merge} rs (rs.mergeAt k d) :=
  ⟨.merge, rfl, step_merge_iff.mpr ⟨k, d, h, rfl⟩⟩

end Merges

/-! ### Two merges -/

theorem mergeAt_eq (rs : RuleSet) (k d : String) :
    rs.mergeAt k d = ⟨rs.rules.erase d, (rs.adjacency.erase d).mapValues (replaced d k)⟩ := by
  rw [← Table.erase_mapValues]
  rfl

/-- The result of two merges is known by which rules go and what takes their
places. -/
theorem mergeAt_mergeAt_eq {k₃ k₄ d₃ d₄ : String}
    (hgone : ∀ n, n = d₁ ∨ n = d₂ ↔ n = d₃ ∨ n = d₄)
    (hplace : ∀ targets, replaced d₂ k₂ (replaced d₁ k₁ targets) =
      replaced d₄ k₄ (replaced d₃ k₃ targets)) :
    (rs.mergeAt k₁ d₁).mergeAt k₂ d₂ = (rs.mergeAt k₃ d₃).mergeAt k₄ d₄ := by
  rw [mergeAt_eq, mergeAt_eq, mergeAt_eq (rs.mergeAt k₃ d₃), mergeAt_eq rs]
  simp only [Table.erase_mapValues, Table.mapValues_mapValues]
  rw [Table.erase_erase_eq rs.rules hgone, Table.erase_erase_eq rs.adjacency hgone,
    funext hplace (f := replaced d₂ k₂ ∘ replaced d₁ k₁)]
  rfl

theorem replaced_replaced (d₁ k₁ d₂ k₂ : String) (targets : List String) :
    replaced d₂ k₂ (replaced d₁ k₁ targets) = targets.map fun t =>
      if t = d₁ then if k₁ = d₂ then k₂ else k₁ else if t = d₂ then k₂ else t := by
  rw [replaced, replaced, List.map_map]
  refine List.map_congr_left fun t _ => ?_
  by_cases ht : t = d₁ <;> simp [ht]

namespace Merges

/-- One rule is dropped for either of two others. -/
theorem meets_dropped (h₁ : rs.Merges k₁ d) (h₂ : rs.Merges k₂ d) (h : rs.Merges k₁ k₂) :
    Meets {.merge} (rs.mergeAt k₁ d) (rs.mergeAt k₂ d) := by
  have hd₁ : k₁ ≠ d := h₁.twins.ne
  have hd₂ : k₂ ≠ d := h₂.twins.ne
  refine .inr ⟨_, (h.mergeAt hd₁ hd₂).next, ?_⟩
  have hnext := (h.mergeAt hd₁ hd₂ (k := k₂)).next
  rwa [mergeAt_mergeAt_eq (fun n => Iff.rfl) fun targets => ?_] at hnext
  rw [replaced_replaced, replaced_replaced]
  simp [h.twins.ne]

/-- A rule is kept in one merge and dropped in the other. -/
theorem meets_kept (h₁ : rs.Merges k d₁) (h₂ : rs.Merges d₁ d₂) :
    Meets {.merge} (rs.mergeAt k d₁) (rs.mergeAt d₁ d₂) := by
  have h := h₁.trans h₂
  refine .inr ⟨_, (h.mergeAt h₁.twins.ne h₂.twins.ne.symm).next, ?_⟩
  have hnext := (h₁.mergeAt h.twins.ne h₂.twins.ne (k := d₁)).next
  rwa [mergeAt_mergeAt_eq (fun n => or_comm) fun targets => ?_] at hnext
  rw [replaced_replaced, replaced_replaced]
  refine List.map_congr_left fun t _ => ?_
  by_cases ht : t = d₁
  · simp [ht, h.twins.ne, h₂.twins.ne]
  · simp [ht]

theorem meets_apart (h₁ : rs.Merges k₁ d₁) (h₂ : rs.Merges k₂ d₂) (hd : d₁ ≠ d₂) (h₁₂ : k₁ ≠ d₂)
    (h₂₁ : k₂ ≠ d₁) : Meets {.merge} (rs.mergeAt k₁ d₁) (rs.mergeAt k₂ d₂) := by
  refine .inr ⟨_, (h₂.mergeAt h₂₁ hd.symm).next, ?_⟩
  have hnext := (h₁.mergeAt h₁₂ hd (k := k₂)).next
  rwa [mergeAt_mergeAt_eq (fun n => or_comm) fun targets => ?_] at hnext
  rw [replaced_replaced, replaced_replaced]
  refine List.map_congr_left fun t _ => ?_
  by_cases ht : t = d₁
  · simp [ht, hd, h₁₂]
  · simp [ht, h₂₁]

end Merges

/-- Two merges can be brought together again. -/
theorem meets_of_merge {a b : RuleSet} (ha : rs.Step .merge a) (hb : rs.Step .merge b) :
    Meets {.merge} a b := by
  obtain ⟨k₁, d₁, h₁, rfl⟩ := step_merge_iff.mp ha
  obtain ⟨k₂, d₂, h₂, rfl⟩ := step_merge_iff.mp hb
  by_cases hd : d₁ = d₂
  · subst hd
    by_cases hk : k₁ = k₂
    · exact .inl (by rw [hk])
    · rcases h₁.total h₂ hk with h | h
      · exact h₁.meets_dropped h₂ h
      · exact (h₂.meets_dropped h₁ h).symm
  · by_cases h₂₁ : k₂ = d₁
    · subst h₂₁
      exact h₁.meets_kept h₂
    · by_cases h₁₂ : k₁ = d₂
      · subst h₁₂
        exact (h₂.meets_kept h₁).symm
      · exact h₁.meets_apart h₂ hd h₁₂ h₂₁

/-- It does not matter in which order rules are merged. -/
theorem existsUnique_endsIn_merge (rs : RuleSet) : ∃! final, EndsIn {.merge} rs final := by
  refine existsUnique_endsIn (P := fun _ => True) (fun _ _ => trivial) ?_ trivial
  rintro a b c - ⟨_, rfl, hb⟩ ⟨_, rfl, hc⟩
  exact meets_of_merge hb hc

end RuleSet

end GrammarDiagram
