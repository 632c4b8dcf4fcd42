/-
GrammarDiagram/Proofs/Absorbing.lean

Rules that their mentioners absorb.

Fusing and inlining have one form: a rule with one mention goes, and its
mentioner, `absorb`ing it, gets a new pattern and new successors.  `Absorbs` says
which these are, and `step_iff_absorbs` that they are all that such a step does.

Tables are compared by the order of their keys and by their values
(`Table.eq_of_keys_of_get?`), so that two entries can be absorbed in either
order.  Of the mentions only those of the rule itself go: the mentioner mentions
what it did and what the rule did (`Absorbs.mem_targets_iff`).
-/
import GrammarDiagram.Proofs.Severing
import GrammarDiagram.Proofs.Stepping

namespace GrammarDiagram

/-! ### Tables -/

namespace Table

variable {α : Type*} {t : Table α} {r r₁ r₂ m m₁ m₂ : String}

theorem entries_eq_of_findEntry {es fs : List (String × α)}
    (hkeys : es.map Prod.fst = fs.map Prod.fst) (hd : (es.map Prod.fst).Nodup)
    (hfind : ∀ k, findEntry k es = findEntry k fs) : es = fs := by
  induction es generalizing fs with
  | nil => exact (List.map_eq_nil_iff.mp hkeys.symm).symm
  | cons e es ih =>
    rcases fs with - | ⟨f, fs⟩
    · cases hkeys
    · rw [List.map_cons, List.map_cons, List.cons_eq_cons] at hkeys
      obtain ⟨hkey, hkeys⟩ := hkeys
      rw [List.map_cons, List.nodup_cons] at hd
      have hvalue : e.2 = f.2 := by
        have hfirst := hfind e.1
        simpa [findEntry, hkey] using hfirst
      have hrest : ∀ k, findEntry k es = findEntry k fs := by
        intro k
        by_cases hk : e.1 = k
        · -- the key of the first entry has no other one
          subst hk
          have hnone : ∀ {l : List (String × α)}, e.1 ∉ l.map Prod.fst →
              findEntry e.1 l = none := by
            intro l hl
            rwa [← findEntry_isSome_iff, Option.not_isSome_iff_eq_none] at hl
          rw [hnone hd.1, hnone (hkeys ▸ hd.1)]
        · have h := hfind k
          simpa [findEntry, hk, hkey ▸ hk] using h
      rw [Prod.ext hkey hvalue, ih hkeys hd.2 hrest]

/-- A table is known by the order of its keys and their values. -/
theorem eq_of_keys_of_get? {s t : Table α} (hkeys : s.keys = t.keys)
    (hget : ∀ k, s.get? k = t.get? k) : s = t := by
  have h := entries_eq_of_findEntry hkeys s.distinct hget
  cases s
  cases t
  congr

theorem put_of_get? {v : α} (h : t.get? m = some v) : t.put m v = t := by
  have hmem : m ∈ t.keys := (contains_iff_mem_keys t m).mp (by rw [contains, h]; rfl)
  refine eq_of_keys_of_get? (by rw [keys_put, if_pos hmem]) fun k => ?_
  rw [get?_put]
  split
  · rename_i hk
    rw [hk, h]
  · rfl

/-- Put a value under one key and take out another. -/
def absorb (t : Table α) (r m : String) (v : α) : Table α := (t.put m v).erase r

theorem get?_absorb (v : α) (k : String) :
    (t.absorb r m v).get? k =
      if k = r then none else if k = m then some v else t.get? k := by
  rw [absorb, get?_erase, get?_put]

theorem keys_absorb (v : α) (hm : m ∈ t.keys) :
    (t.absorb r m v).keys = t.keys.filter fun k => k != r := by
  rw [absorb, keys_erase, keys_put, if_pos hm]

theorem mem_keys_absorb {v : α} {k : String} (hm : m ∈ t.keys) :
    k ∈ (t.absorb r m v).keys ↔ k ≠ r ∧ k ∈ t.keys := by
  rw [keys_absorb v hm, List.mem_filter, and_comm]
  simp

/-- The keys after absorbing twice do not depend on the order. -/
theorem keys_absorb_absorb {v v' w w' : α} {k₁ k₂ k₁' k₂' : String} (h₁ : k₁ ∈ t.keys)
    (h₂ : k₂ ∈ (t.absorb r₁ k₁ v).keys) (h₁' : k₁' ∈ t.keys)
    (h₂' : k₂' ∈ (t.absorb r₂ k₁' v').keys) :
    ((t.absorb r₁ k₁ v).absorb r₂ k₂ w).keys = ((t.absorb r₂ k₁' v').absorb r₁ k₂' w').keys := by
  rw [keys_absorb _ h₂, keys_absorb _ h₁, keys_absorb _ h₂', keys_absorb _ h₁',
    List.filter_filter, List.filter_filter]
  exact List.filter_congr fun k _ => Bool.and_comm _ _

section Twice

variable {v w x : α}

/-- Absorbing at different places. -/
theorem absorb_apart (hm₁ : m₁ ∈ t.keys) (hm₂ : m₂ ∈ t.keys) (hm : m₁ ≠ m₂) (h₁ : m₁ ≠ r₂)
    (h₂ : m₂ ≠ r₁) :
    (t.absorb r₁ m₁ v).absorb r₂ m₂ w = (t.absorb r₂ m₂ w).absorb r₁ m₁ v := by
  refine eq_of_keys_of_get? (keys_absorb_absorb hm₁ ((mem_keys_absorb hm₁).mpr ⟨h₂, hm₂⟩) hm₂
    ((mem_keys_absorb hm₂).mpr ⟨h₁, hm₁⟩)) fun k => ?_
  simp only [get?_absorb]
  split_ifs <;> simp_all

/-- Absorbing where something is absorbed that has absorbed another key. -/
theorem absorb_chain (hr₁ : r₁ ∈ t.keys) (hm : m ∈ t.keys) (h₁ : m ≠ r₁) (h₂ : m ≠ r₂) :
    (t.absorb r₂ r₁ v).absorb r₁ m x = (t.absorb r₁ m w).absorb r₂ m x := by
  refine eq_of_keys_of_get? (keys_absorb_absorb hr₁ ((mem_keys_absorb hr₁).mpr ⟨h₂, hm⟩) hm
    ((mem_keys_absorb hm).mpr ⟨h₁, hm⟩)) fun k => ?_
  simp only [get?_absorb]
  split_ifs <;> simp_all

/-- Absorbing two keys in one place. -/
theorem absorb_same (hm : m ∈ t.keys) (h₁ : m ≠ r₁) (h₂ : m ≠ r₂) :
    (t.absorb r₁ m v).absorb r₂ m x = (t.absorb r₂ m w).absorb r₁ m x := by
  refine eq_of_keys_of_get? (keys_absorb_absorb hm ((mem_keys_absorb hm).mpr ⟨h₁, hm⟩) hm
    ((mem_keys_absorb hm).mpr ⟨h₂, hm⟩)) fun k => ?_
  simp only [get?_absorb]
  split_ifs <;> simp_all

end Twice

end Table

namespace RuleSet

variable {rs : RuleSet} {name mentioner pattern n t : String} {targets : List String}

/-! ### Absorbing -/

/-- Take a rule out and give its mentioner another pattern and other successors. -/
def absorb (rs : RuleSet) (name mentioner pattern : String) (targets : List String) : RuleSet :=
  ⟨rs.rules.absorb name mentioner ⟨(rs.ruleOf mentioner).name, pattern⟩,
    rs.adjacency.absorb name mentioner targets⟩

theorem hasRule_absorb (hm : rs.hasRule mentioner) :
    (rs.absorb name mentioner pattern targets).hasRule n ↔ n ≠ name ∧ rs.hasRule n := by
  simp only [hasRule, Table.contains_iff_mem_keys] at hm ⊢
  exact Table.mem_keys_absorb hm

theorem ruleOf_absorb (hn : n ≠ name) :
    (rs.absorb name mentioner pattern targets).ruleOf n =
      if n = mentioner then ⟨(rs.ruleOf mentioner).name, pattern⟩ else rs.ruleOf n := by
  rw [ruleOf, absorb, Table.get?_absorb, if_neg hn]
  split <;> rfl

theorem patternOf_absorb (hn : n ≠ name) :
    (rs.absorb name mentioner pattern targets).patternOf n =
      if n = mentioner then pattern else rs.patternOf n := by
  rw [patternOf, ruleOf_absorb hn]
  split <;> rfl

/-- Absorbing changes no names of rules. -/
theorem name_ruleOf_absorb (hn : n ≠ name) :
    ((rs.absorb name mentioner pattern targets).ruleOf n).name = (rs.ruleOf n).name := by
  rw [ruleOf_absorb hn]
  split
  · rename_i h
    rw [h]
  · rfl

theorem successors_absorb (n : String) :
    (rs.absorb name mentioner pattern targets).successors n =
      if n = name then [] else if n = mentioner then targets else rs.successors n := by
  rw [successors, absorb, Table.get?_absorb]
  split
  · rfl
  · split <;> rfl

/-- Put another entry in the place of a name. -/
def replaced (old new : String) (targets : List String) : List String :=
  targets.map fun t => if t = old then new else t

theorem mem_replaced_iff {old new : String} :
    t ∈ replaced old new targets ↔ t ∈ targets ∧ t ≠ old ∨ old ∈ targets ∧ t = new := by
  rw [replaced, List.mem_map]
  constructor
  · rintro ⟨s, hs, rfl⟩
    by_cases h : s = old
    · rw [if_pos h]
      exact .inr ⟨h ▸ hs, rfl⟩
    · rw [if_neg h]
      exact .inl ⟨hs, h⟩
  · rintro (⟨ht, hne⟩ | ⟨hold, rfl⟩)
    · exact ⟨t, ht, if_neg hne⟩
    · exact ⟨old, hold, if_pos rfl⟩

/-- `rs.Absorbs name mentioner w pattern targets`: a step of kind `w`, fusing or
inlining, takes the rule away and gives this pattern and these successors to its
mentioner. -/
inductive Absorbs (rs : RuleSet) (name mentioner : String) :
    Rewrite → String → List String → Prop
  | fuse : rs.SoleMention name mentioner → rs.successors mentioner = [name] →
      Absorbs rs name mentioner .fuse
        (Text.strip (rs.patternOf mentioner ++ " " ++ rs.patternOf name)) (rs.successors name)
  | inline : rs.SoleMention name mentioner →
      (∀ t ∈ rs.successors name, t ∈ rs.successors mentioner) →
      Absorbs rs name mentioner .inline (rs.patternOf mentioner)
        (replaced name (Pattern.fragment (rs.patternOf name)) (rs.successors mentioner))

theorem fuseAt_eq_absorb (rs : RuleSet) (name mentioner : String) :
    rs.fuseAt name mentioner = rs.absorb name mentioner
      (Text.strip (rs.patternOf mentioner ++ " " ++ rs.patternOf name)) (rs.successors name) :=
  rfl

/-- Inlining leaves the pattern of the mentioner as it is. -/
theorem inlineAt_eq_absorb (hm : rs.hasRule mentioner) :
    rs.inlineAt name mentioner = rs.absorb name mentioner (rs.patternOf mentioner)
      (replaced name (Pattern.fragment (rs.patternOf name)) (rs.successors mentioner)) := by
  obtain ⟨p, hp⟩ := Option.isSome_iff_exists.mp hm
  have hput : rs.rules.put mentioner ⟨(rs.ruleOf mentioner).name, rs.patternOf mentioner⟩ =
      rs.rules := by
    refine Table.put_of_get? ?_
    rw [patternOf, ruleOf, hp]
    rfl
  rw [absorb, Table.absorb, hput]
  rfl

/-- Steps other than merging are those in which a rule is absorbed. -/
theorem step_iff_absorbs {w : Rewrite} (hw : w ≠ .merge) {next : RuleSet} :
    rs.Step w next ↔ ∃ name mentioner pattern targets,
      rs.Absorbs name mentioner w pattern targets ∧
        next = rs.absorb name mentioner pattern targets := by
  constructor
  · intro h
    cases h with
    | @fuse c hc hfuse =>
      have hsole := mem_candidates_iff.mp hc
      exact ⟨c.1, c.2, _, _, .fuse hsole (hsole.canFuse_iff.mp hfuse), fuseAt_eq_absorb rs _ _⟩
    | merge => exact absurd rfl hw
    | @inline c hc hinline =>
      have hsole := mem_candidates_iff.mp hc
      exact ⟨c.1, c.2, _, _, .inline hsole (canInline_iff.mp hinline),
        inlineAt_eq_absorb hsole.hasRule_mentioner⟩
  · rintro ⟨name, mentioner, pattern, targets, h, rfl⟩
    cases h with
    | fuse hsole hlast =>
      rw [← fuseAt_eq_absorb]
      exact Step.fuse (c := (name, mentioner)) (mem_candidates_iff.mpr hsole)
        (hsole.canFuse_iff.mpr hlast)
    | inline hsole hsub =>
      rw [← inlineAt_eq_absorb hsole.hasRule_mentioner]
      exact Step.inline (c := (name, mentioner)) (mem_candidates_iff.mpr hsole)
        (canInline_iff.mpr hsub)

/-! ### Mentions after a rule is absorbed -/

namespace Absorbs

variable {w : Rewrite}

theorem sole (h : rs.Absorbs name mentioner w pattern targets) :
    rs.SoleMention name mentioner := by
  cases h with
  | fuse hsole _ => exact hsole
  | inline hsole _ => exact hsole

section Mentions

variable (hid : rs.Identified) (h : rs.Absorbs name mentioner w pattern targets)
include hid h

/-- The mentioner mentions what it mentioned and what the rule did, apart from the
rule itself. -/
theorem mem_targets_iff (ht : rs.hasRule t) :
    t ∈ targets ↔ t ≠ name ∧ (t ∈ rs.successors name ∨ t ∈ rs.successors mentioner) := by
  cases h with
  | fuse hsole hlast =>
    rw [hlast, List.mem_singleton]
    constructor
    · intro hmem
      refine ⟨?_, .inl hmem⟩
      rintro rfl
      exact hsole.ne_mentioner (hsole.only _ hmem)
    · rintro ⟨hne, hmem | hmem⟩
      · exact hmem
      · exact absurd hmem hne
  | inline hsole hsub =>
    rw [mem_replaced_iff]
    constructor
    · rintro (⟨hmem, hne⟩ | ⟨-, rfl⟩)
      · exact ⟨hne, .inr hmem⟩
      · exact absurd ht (hid.not_hasRule_fragment _)
    · rintro ⟨hne, hmem⟩
      exact .inl ⟨hmem.elim (hsub t) id, hne⟩

theorem mem_successors_iff (ht : rs.hasRule t) (hne : t ≠ name) :
    t ∈ (rs.absorb name mentioner pattern targets).successors n ↔
      n ≠ name ∧ (t ∈ rs.successors n ∨ n = mentioner ∧ t ∈ rs.successors name) := by
  rw [successors_absorb]
  by_cases hn : n = name
  · simp [hn]
  · by_cases hm : n = mentioner
    · rw [if_neg hn, if_pos hm, h.mem_targets_iff hid ht, hm, ← hm]
      simp [hn, hne, or_comm]
    · simp [hn, hm]

/-- A sole mention elsewhere is not touched. -/
theorem soleMention {r m : String} (hsole : rs.SoleMention r m) (hr : r ≠ name) (hm : m ≠ name)
    (hmm : m ≠ mentioner) : (rs.absorb name mentioner pattern targets).SoleMention r m where
  hasRule := (hasRule_absorb h.sole.hasRule_mentioner).mpr ⟨hr, hsole.hasRule⟩
  hasRule_mentioner := (hasRule_absorb h.sole.hasRule_mentioner).mpr ⟨hm, hsole.hasRule_mentioner⟩
  ne_root := hsole.ne_root
  ne_mentioner := hsole.ne_mentioner
  once := by
    rw [successors_absorb, if_neg hm, if_neg hmm]
    exact hsole.once
  only := by
    intro x hx
    rcases ((h.mem_successors_iff hid hsole.hasRule hr).mp hx).2 with hmem | ⟨-, hmem⟩
    · exact hsole.only x hmem
    · exact absurd (hsole.only _ hmem).symm hm

/-- The mentioner is the sole one of a rule that it mentions once, if nothing but
the absorbed rule mentioned it besides. -/
theorem soleMention_mentioner {r : String} (hr : rs.hasRule r) (hroot : r ≠ Name.root)
    (hne : r ≠ name) (hm : r ≠ mentioner) (honce : targets.count r = 1)
    (honly : ∀ x, r ∈ rs.successors x → x = name ∨ x = mentioner) :
    (rs.absorb name mentioner pattern targets).SoleMention r mentioner where
  hasRule := (hasRule_absorb h.sole.hasRule_mentioner).mpr ⟨hne, hr⟩
  hasRule_mentioner := (hasRule_absorb h.sole.hasRule_mentioner).mpr
    ⟨h.sole.ne_mentioner.symm, h.sole.hasRule_mentioner⟩
  ne_root := hroot
  ne_mentioner := hm
  once := by
    rw [successors_absorb, if_neg h.sole.ne_mentioner.symm, if_pos rfl]
    exact honce
  only := by
    intro x hx
    obtain ⟨hxn, hmem | ⟨rfl, -⟩⟩ := (h.mem_successors_iff hid hr hne).mp hx
    · exact (honly x hmem).resolve_left hxn
    · rfl

end Mentions

end Absorbs

end RuleSet

end GrammarDiagram
