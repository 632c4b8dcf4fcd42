/-
GrammarDiagram/Proofs/Rewriting.lean

Reductions in any order, and what all of them have in common.

A rewrite is one of the three reductions by name.  It fires where it finds a
place and leaves the rule set as it is where it finds none; `rewrite` applies
rewrites one after the other, whatever their order.  What every reduction keeps,
such a sequence keeps (`rewrite_invariant`).

Whichever reduction it is, one rule goes, which is not the root, and the other
rules stay in their order; and nothing is left that mentions the rule which is
gone, unless a pattern looks like its name.  `Removes` says so, and
`Reduces.removes` is the only place where the three are taken apart for it.
-/
import GrammarDiagram.Proofs.Reduction

namespace GrammarDiagram

namespace Table

variable {α : Type*} {t : Table α} {key k : String}

theorem mem_keys_put {value : α} : k ∈ (t.put key value).keys ↔ k = key ∨ k ∈ t.keys := by
  rw [keys_put]
  split
  · rename_i hmem
    refine ⟨.inr, ?_⟩
    rintro (rfl | h)
    · exact hmem
    · exact h
  · rw [List.mem_append, List.mem_singleton, or_comm]

theorem mem_keys_erase : k ∈ (t.erase key).keys ↔ k ≠ key ∧ k ∈ t.keys := by
  rw [keys_erase, List.mem_filter, and_comm]
  simp

end Table

namespace RuleSet

variable {rs : RuleSet}

/-! ### Rewrites -/

/-- The three reductions by name. -/
inductive Rewrite where
  | fuse
  | merge
  | inline
deriving DecidableEq, Repr

namespace Rewrite

/-- The reduction that a rewrite finds in a rule set. -/
def fire? (w : Rewrite) (rs : RuleSet) : Option Reduction :=
  match w with
  | fuse => rs.fuse?
  | merge => rs.merge?
  | inline => rs.inline?

/-- The rule set after a rewrite; one that does not fire changes nothing. -/
def apply (w : Rewrite) (rs : RuleSet) : RuleSet :=
  ((w.fire? rs).map Reduction.result).getD rs

theorem apply_of_fire? {w : Rewrite} {r : Reduction} (h : w.fire? rs = some r) :
    w.apply rs = r.result := by
  rw [apply, h, Option.map_some, Option.getD_some]

/-- What fires is a reduction. -/
theorem reduces_of_fire? {w : Rewrite} {r : Reduction} (h : w.fire? rs = some r) :
    rs.Reduces r := by
  cases w with
  | fuse =>
    obtain ⟨name, mentioner, hc, hlast, rfl⟩ := fuse?_cases h
    exact .fuse hc hlast
  | merge =>
    obtain ⟨kept, dropped, htwins, rfl⟩ := merge?_cases h
    exact .merge htwins
  | inline =>
    obtain ⟨name, mentioner, hc, hsub, rfl⟩ := inline?_cases h
    exact .inline hc hsub

/-- The next reduction of a run is that of a rewrite. -/
theorem exists_fire?_of_reduce? {r : Reduction} (h : rs.reduce? = some r) :
    ∃ w : Rewrite, w.fire? rs = some r := by
  rw [reduce?_eq_or, basic?_eq_or, Option.or_eq_some_iff, Option.or_eq_some_iff] at h
  rcases h with (hfuse | ⟨-, hmerge⟩) | ⟨-, hinline⟩
  · exact ⟨.fuse, hfuse⟩
  · exact ⟨.merge, hmerge⟩
  · exact ⟨.inline, hinline⟩

theorem apply_invariant {motive : RuleSet → Prop}
    (step : ∀ {rs r}, motive rs → rs.Reduces r → motive r.result) (w : Rewrite) (h : motive rs) :
    motive (w.apply rs) := by
  rcases hfire : w.fire? rs with - | r
  · rwa [apply, hfire]
  · rw [apply_of_fire? hfire]
    exact step h (reduces_of_fire? hfire)

end Rewrite

theorem reduces_of_reduce? {r : Reduction} (h : rs.reduce? = some r) : rs.Reduces r := by
  obtain ⟨w, hw⟩ := Rewrite.exists_fire?_of_reduce? h
  exact Rewrite.reduces_of_fire? hw

/-- Apply rewrites one after the other. -/
def rewrite (rs : RuleSet) (ws : List Rewrite) : RuleSet :=
  ws.foldl (fun rs w => w.apply rs) rs

/-- What every reduction keeps, a sequence of rewrites keeps. -/
theorem rewrite_invariant {motive : RuleSet → Prop}
    (step : ∀ {rs r}, motive rs → rs.Reduces r → motive r.result) (ws : List Rewrite)
    (h : motive rs) : motive (rs.rewrite ws) := by
  induction ws generalizing rs with
  | nil => exact h
  | cons w rest ih => exact ih (w.apply_invariant step h)

/-! ### What goes and what stays -/

theorem mem_successors_remove {name x t : String} (h : t ∈ (rs.remove name).successors x) :
    x ≠ name ∧ t ∈ rs.successors x := by
  rw [successors, remove, Table.get?_erase] at h
  by_cases hx : x = name
  · rw [if_pos hx] at h
    cases h
  · rw [if_neg hx] at h
    exact ⟨hx, h⟩

/-- `rs.Removes rs' gone`: the rule `gone` is taken away, and everything else in
the new rule set was there before, apart from patterns in the place of rules. -/
structure Removes (rs rs' : RuleSet) (gone : String) : Prop where
  ne_root : gone ≠ Name.root
  hasRule : rs.hasRule gone
  keys : rs'.rules.keys = rs.rules.keys.filter fun n => n != gone
  source : ∀ {x}, x ∈ rs'.adjacency.keys → x ≠ gone ∧ (x ∈ rs.adjacency.keys ∨ rs.hasRule x)
  successor : ∀ {x t}, t ∈ rs'.successors x →
    (t ≠ gone ∧ ((∃ y, t ∈ rs.successors y) ∨ rs.hasRule t)) ∨ ∃ p, t = Pattern.fragment p

section Removes

variable {name mentioner kept dropped : String}

/-- A rule is taken out after its mentioner was given other successors. -/
theorem SoleMention.mem_keys (hc : rs.SoleMention name mentioner) {targets : List String}
    {x : String} (h : x ∈ ((rs.adjacency.put mentioner targets).erase name).keys) :
    x ≠ name ∧ (x ∈ rs.adjacency.keys ∨ rs.hasRule x) := by
  obtain ⟨hne, hx⟩ := Table.mem_keys_erase.mp h
  refine ⟨hne, ?_⟩
  rcases Table.mem_keys_put.mp hx with rfl | hx
  · exact .inr hc.hasRule_mentioner
  · exact .inl hx

theorem removes_fuseAt (hc : rs.SoleMention name mentioner) :
    rs.Removes (rs.fuseAt name mentioner) name where
  ne_root := hc.ne_root
  hasRule := hc.hasRule
  keys := by
    have hm : mentioner ∈ rs.rules.keys :=
      (Table.contains_iff_mem_keys _ _).mp hc.hasRule_mentioner
    simp only [fuseAt, remove, setSuccessors, setPattern, Table.keys_erase, Table.keys_put,
      if_pos hm]
  source := hc.mem_keys
  successor := by
    intro x t ht
    have hx : x ≠ name := (mem_successors_remove ht).1
    rw [successors_fuseAt hx] at ht
    -- the rule has its only mention in the list that is replaced
    refine .inl ?_
    split at ht
    · refine ⟨?_, .inl ⟨_, ht⟩⟩
      rintro rfl
      exact hc.ne_mentioner (hc.only _ ht)
    · rename_i hxm
      refine ⟨?_, .inl ⟨_, ht⟩⟩
      rintro rfl
      exact hxm (hc.only _ ht)

theorem removes_mergeAt (ht : rs.Twins kept dropped) :
    rs.Removes (rs.mergeAt kept dropped) dropped where
  ne_root := ht.dropped_ne_root
  hasRule := ht.hasRule_dropped
  keys := Table.keys_erase _ _
  source := by
    intro x hx
    obtain ⟨hne, hx⟩ := Table.mem_keys_erase.mp hx
    rw [Table.keys_mapValues] at hx
    exact ⟨hne, .inl hx⟩
  successor := by
    intro x t hmem
    have hx : x ≠ dropped := (mem_successors_remove hmem).1
    rw [successors_mergeAt hx] at hmem
    obtain ⟨s, hs, rfl⟩ := List.mem_map.mp hmem
    refine .inl ?_
    split
    · exact ⟨ht.ne, .inr ht.hasRule_kept⟩
    · rename_i hne
      exact ⟨hne, .inl ⟨_, hs⟩⟩

theorem removes_inlineAt (hc : rs.SoleMention name mentioner) :
    rs.Removes (rs.inlineAt name mentioner) name where
  ne_root := hc.ne_root
  hasRule := hc.hasRule
  keys := Table.keys_erase _ _
  source := hc.mem_keys
  successor := by
    intro x t ht
    have hx : x ≠ name := (mem_successors_remove ht).1
    rw [successors_inlineAt hx] at ht
    split at ht
    · obtain ⟨s, hs, rfl⟩ := List.mem_map.mp ht
      split
      · exact .inr ⟨_, rfl⟩
      · rename_i hne
        exact .inl ⟨hne, .inl ⟨_, hs⟩⟩
    · rename_i hxm
      refine .inl ⟨?_, .inl ⟨_, ht⟩⟩
      rintro rfl
      exact hxm (hc.only _ ht)

end Removes

/-- Every reduction takes one rule away. -/
theorem Reduces.removes {r : Reduction} (h : rs.Reduces r) : ∃ gone, rs.Removes r.result gone := by
  cases h with
  | fuse hc _ => exact ⟨_, removes_fuseAt hc⟩
  | merge ht => exact ⟨_, removes_mergeAt ht⟩
  | inline hc _ => exact ⟨_, removes_inlineAt hc⟩

namespace Removes

variable {rs' : RuleSet} {gone n : String}

theorem hasRule_iff (h : rs.Removes rs' gone) : rs'.hasRule n ↔ n ≠ gone ∧ rs.hasRule n := by
  rw [RuleSet.hasRule, Table.contains_iff_mem_keys, h.keys, List.mem_filter,
    ← Table.contains_iff_mem_keys, and_comm]
  simp [RuleSet.hasRule]

/-- The root stays what it is. -/
theorem hasRule_root_iff (h : rs.Removes rs' gone) :
    rs'.hasRule Name.root ↔ rs.hasRule Name.root := by
  rw [h.hasRule_iff]
  exact and_iff_right h.ne_root.symm

/-- Exactly one rule goes. -/
theorem size_eq (h : rs.Removes rs' gone) : rs'.size + 1 = rs.size := by
  have hmem : gone ∈ rs.rules.keys := (Table.contains_iff_mem_keys _ _).mp h.hasRule
  have hlength := List.length_erase_add_one hmem
  rw [rs.rules.nodup_keys.erase_eq_filter, ← h.keys] at hlength
  simpa [size] using hlength

end Removes

theorem hasRule_root_rewrite_iff (rs : RuleSet) (ws : List Rewrite) :
    (rs.rewrite ws).hasRule Name.root ↔ rs.hasRule Name.root := by
  refine rewrite_invariant
    (motive := fun rs' => rs'.hasRule Name.root ↔ rs.hasRule Name.root) ?_ ws Iff.rfl
  intro rs' r hroot hr
  obtain ⟨gone, hgone⟩ := hr.removes
  rw [hgone.hasRule_root_iff, hroot]

/-- The rules that stay are in the order in which they were. -/
theorem keys_rewrite_sublist (rs : RuleSet) (ws : List Rewrite) :
    (rs.rewrite ws).rules.keys.Sublist rs.rules.keys := by
  refine rewrite_invariant
    (motive := fun rs' => rs'.rules.keys.Sublist rs.rules.keys) ?_ ws (.refl _)
  intro rs' r hsub hr
  obtain ⟨gone, hgone⟩ := hr.removes
  rw [hgone.keys]
  exact List.filter_sublist.trans hsub

end RuleSet

end GrammarDiagram
