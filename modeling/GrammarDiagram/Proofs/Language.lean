/-
GrammarDiagram/Proofs/Language.lean

The language of a rule set.

An interpretation says which words every pattern stands for.  A rule generates
a word of its pattern, followed by what its successors allow: the end, if there
is an empty successor or none at all; a word that a successor rule generates;
or a word of a successor that is a pattern.  `Generates` is the least family
of this kind (`Generates.least`), and `generates_iff` is its equation.

Two things are prepared here for the comparison of rule sets.  `Follows.imp`,
`Follows.map` and `Follows.of_map` carry what may follow a rule from one rule
set to another, the latter two with other names for the successors; and `cut`
makes rules end the sentence, which is what becomes of a rule that is replaced
by its bare pattern (`language_cut_of_follow_eq_one` says when nobody can tell).
-/
import GrammarDiagram.RuleSet.Basic
import Mathlib.Computability.Language

namespace GrammarDiagram.RuleSet

variable {α : Type*}

/-! ### Generating words -/

/-- What a list of successors allows behind a rule, given the words that rules
generate. -/
def Follows (rs : RuleSet) (I : String → Language α) (L : String → List α → Prop)
    (targets : List String) (v : List α) : Prop :=
  (v = [] ∧ (targets = [] ∨ "" ∈ targets)) ∨
    (∃ t ∈ targets, rs.hasRule t ∧ L t v) ∨
    (∃ t ∈ targets, t ≠ "" ∧ ¬ rs.hasRule t ∧ v ∈ I t)

/-- `rs.Generates I n w`: the rule `n` generates the word `w` under the
interpretation `I` of patterns. -/
inductive Generates (rs : RuleSet) (I : String → Language α) : String → List α → Prop
  | stop {n u} : rs.hasRule n → u ∈ I (rs.patternOf n) →
      rs.successors n = [] ∨ "" ∈ rs.successors n → Generates rs I n u
  | rule {n t u v} : rs.hasRule n → u ∈ I (rs.patternOf n) → t ∈ rs.successors n →
      rs.hasRule t → Generates rs I t v → Generates rs I n (u ++ v)
  | fragment {n t u v} : rs.hasRule n → u ∈ I (rs.patternOf n) → t ∈ rs.successors n →
      t ≠ "" → ¬ rs.hasRule t → v ∈ I t → Generates rs I n (u ++ v)

/-- The words that a rule generates; a name without a rule has none. -/
def language (rs : RuleSet) (I : String → Language α) (name : String) : Language α :=
  {w | rs.Generates I name w}

/-- The words that may follow a rule with these successors. -/
def follow (rs : RuleSet) (I : String → Language α) (targets : List String) : Language α :=
  {v | rs.Follows I (rs.Generates I) targets v}

variable {rs rs' : RuleSet} {I : String → Language α}

theorem mem_follow {targets : List String} {v : List α} :
    v ∈ rs.follow I targets ↔ rs.Follows I (rs.Generates I) targets v := Iff.rfl

/-- Only rules generate words. -/
theorem Generates.hasRule {n : String} {w : List α} (h : rs.Generates I n w) : rs.hasRule n := by
  cases h <;> assumption

/-! ### The equation of the language -/

/-- A word of the pattern and a word that may follow make a word of the rule. -/
theorem Generates.intro {n : String} {u v : List α} (hn : rs.hasRule n)
    (hu : u ∈ I (rs.patternOf n)) (hv : rs.Follows I (rs.Generates I) (rs.successors n) v) :
    rs.Generates I n (u ++ v) := by
  rcases hv with ⟨rfl, hstop⟩ | ⟨t, ht, hr, hg⟩ | ⟨t, ht, hne, hr, hv⟩
  · rw [List.append_nil]
    exact .stop hn hu hstop
  · exact .rule hn hu ht hr hg
  · exact .fragment hn hu ht hne hr hv

/-- The generated words are the least family that is closed under rules. -/
theorem Generates.least {L : String → List α → Prop}
    (hL : ∀ n u v, rs.hasRule n → u ∈ I (rs.patternOf n) →
      rs.Follows I L (rs.successors n) v → L n (u ++ v))
    {n : String} {w : List α} (h : rs.Generates I n w) : L n w := by
  induction h with
  | stop hn hu hstop =>
    have h := hL _ _ [] hn hu (.inl ⟨rfl, hstop⟩)
    rwa [List.append_nil] at h
  | rule hn hu ht hr _ ih => exact hL _ _ _ hn hu (.inr (.inl ⟨_, ht, hr, ih⟩))
  | fragment hn hu ht hne hr hv => exact hL _ _ _ hn hu (.inr (.inr ⟨_, ht, hne, hr, hv⟩))

/-- What may follow is carried along where rules and words are. -/
theorem Follows.imp {L L' : String → List α → Prop} {targets : List String} {v : List α}
    (hrule : ∀ t ∈ targets, rs.hasRule t ↔ rs'.hasRule t)
    (hL : ∀ t ∈ targets, L t v → L' t v) (h : rs.Follows I L targets v) :
    rs'.Follows I L' targets v := by
  rcases h with h | ⟨t, ht, hr, hg⟩ | ⟨t, ht, hne, hr, hv⟩
  · exact .inl h
  · exact .inr (.inl ⟨t, ht, (hrule t ht).mp hr, hL t ht hg⟩)
  · exact .inr (.inr ⟨t, ht, hne, fun h => hr ((hrule t ht).mpr h), hv⟩)

/-- Where all successors are empty, nothing but the end may follow. -/
theorem follows_of_end {L : String → List α → Prop} {targets : List String} {v : List α}
    (hempty : ¬ rs.hasRule "") (hend : ∀ t ∈ targets, t = "") :
    rs.Follows I L targets v ↔ v = [] := by
  constructor
  · rintro (⟨rfl, -⟩ | ⟨t, ht, hr, -⟩ | ⟨t, ht, hne, -, -⟩)
    · rfl
    · rw [hend t ht] at hr
      exact absurd hr hempty
    · exact absurd (hend t ht) hne
  · rintro rfl
    refine .inl ⟨rfl, ?_⟩
    rcases targets with - | ⟨t, rest⟩
    · exact .inl rfl
    · right
      rw [← hend t List.mem_cons_self]
      exact List.mem_cons_self

/-- What a single successor allows behind a rule. -/
def Admits (rs : RuleSet) (I : String → Language α) (L : String → List α → Prop) (t : String)
    (v : List α) : Prop :=
  (rs.hasRule t ∧ L t v) ∨ (t ≠ "" ∧ ¬ rs.hasRule t ∧ v ∈ I t)

/-- The end may follow, or what one of the successors allows. -/
theorem follows_iff {L : String → List α → Prop} {targets : List String} {v : List α} :
    rs.Follows I L targets v ↔
      (v = [] ∧ (targets = [] ∨ "" ∈ targets)) ∨ ∃ t ∈ targets, rs.Admits I L t v := by
  simp only [Follows, Admits, and_or_left, exists_or]

section Renaming

variable {L L' : String → List α → Prop} {f : String → String} {targets : List String}
  {v : List α}

/-- What may follow is carried along where successors are renamed. -/
theorem Follows.map (hend : f "" = "")
    (h : ∀ t ∈ targets, rs.Admits I L t v → rs'.Admits I L' (f t) v)
    (hv : rs.Follows I L targets v) : rs'.Follows I L' (targets.map f) v := by
  rw [follows_iff] at hv ⊢
  rcases hv with ⟨rfl, rfl | hstop⟩ | ⟨t, ht, hv⟩
  · exact .inl ⟨rfl, .inl rfl⟩
  · exact .inl ⟨rfl, .inr (List.mem_map.mpr ⟨"", hstop, hend⟩)⟩
  · exact .inr ⟨f t, List.mem_map_of_mem ht, h t ht hv⟩

/-- What may follow is carried back from renamed successors. -/
theorem Follows.of_map (hend : ∀ t ∈ targets, f t = "" → t = "")
    (h : ∀ t ∈ targets, rs'.Admits I L' (f t) v → rs.Admits I L t v)
    (hv : rs'.Follows I L' (targets.map f) v) : rs.Follows I L targets v := by
  rw [follows_iff] at hv ⊢
  rcases hv with ⟨rfl, hnil | hstop⟩ | ⟨s, hs, hv⟩
  · exact .inl ⟨rfl, .inl (List.map_eq_nil_iff.mp hnil)⟩
  · obtain ⟨t, ht, hte⟩ := List.mem_map.mp hstop
    exact .inl ⟨rfl, .inr (hend t ht hte ▸ ht)⟩
  · obtain ⟨t, ht, rfl⟩ := List.mem_map.mp hs
    exact .inr ⟨t, ht, h t ht hv⟩

end Renaming

/-- A rule generates the words of its pattern with what may follow behind. -/
theorem generates_iff {n : String} {w : List α} :
    rs.Generates I n w ↔ rs.hasRule n ∧ ∃ u v, u ∈ I (rs.patternOf n) ∧
      rs.Follows I (rs.Generates I) (rs.successors n) v ∧ w = u ++ v := by
  constructor
  · intro h
    refine ⟨h.hasRule, ?_⟩
    -- the right-hand side is itself closed under rules
    refine (Generates.least (L := fun n w => rs.Generates I n w ∧ ∃ u v, u ∈ I (rs.patternOf n) ∧
      rs.Follows I (rs.Generates I) (rs.successors n) v ∧ w = u ++ v) ?_ h).2
    intro n u v hn hu hv
    have hv' : rs.Follows I (rs.Generates I) (rs.successors n) v :=
      hv.imp (fun _ _ => Iff.rfl) fun _ _ h => h.1
    exact ⟨.intro hn hu hv', u, v, hu, hv', rfl⟩
  · rintro ⟨hn, u, v, hu, hv, rfl⟩
    exact .intro hn hu hv

/-- Rule sets with the same rules, patterns and successors generate the same
words. -/
theorem Generates.of_agree (hrule : ∀ n, rs.hasRule n ↔ rs'.hasRule n)
    (hpattern : ∀ n, rs.hasRule n → rs.patternOf n = rs'.patternOf n)
    (hsucc : ∀ n, rs.hasRule n → rs.successors n = rs'.successors n)
    {n : String} {w : List α} (h : rs.Generates I n w) : rs'.Generates I n w := by
  refine Generates.least (L := rs'.Generates I) ?_ h
  intro n u v hn hu hv
  rw [hpattern n hn] at hu
  rw [hsucc n hn] at hv
  exact .intro ((hrule n).mp hn) hu (hv.imp (fun t _ => hrule t) fun _ _ h => h)

theorem language_congr (hrule : ∀ n, rs.hasRule n ↔ rs'.hasRule n)
    (hpattern : ∀ n, rs.hasRule n → rs.patternOf n = rs'.patternOf n)
    (hsucc : ∀ n, rs.hasRule n → rs.successors n = rs'.successors n) (n : String) :
    rs.language I n = rs'.language I n := by
  ext w
  constructor
  · exact Generates.of_agree hrule hpattern hsucc
  · refine Generates.of_agree (fun n => (hrule n).symm) ?_ ?_
    · exact fun n hn => (hpattern n ((hrule n).mpr hn)).symm
    · exact fun n hn => (hsucc n ((hrule n).mpr hn)).symm

/-! ### Rules that end the sentence -/

/-- Make rules end the sentence: nothing follows them any more. -/
def cut (rs : RuleSet) (names : List String) : RuleSet :=
  names.foldl (fun rs n => rs.setSuccessors n [""]) rs

@[simp] theorem rules_cut (rs : RuleSet) (names : List String) :
    (rs.cut names).rules = rs.rules := by
  unfold cut
  induction names generalizing rs with
  | nil => rfl
  | cons n rest ih =>
    rw [List.foldl_cons, ih]
    rfl

@[simp] theorem hasRule_cut (rs : RuleSet) (names : List String) (n : String) :
    (rs.cut names).hasRule n = rs.hasRule n := by
  rw [hasRule, rules_cut, hasRule]

@[simp] theorem patternOf_cut (rs : RuleSet) (names : List String) (n : String) :
    (rs.cut names).patternOf n = rs.patternOf n := by
  rw [patternOf, ruleOf, rules_cut, patternOf, ruleOf]

theorem successors_setSuccessors (rs : RuleSet) (name n : String) (targets : List String) :
    (rs.setSuccessors name targets).successors n =
      if n = name then targets else rs.successors n := by
  simp only [successors, setSuccessors, Table.get?_put]
  split <;> rfl

theorem successors_cut (rs : RuleSet) (names : List String) (n : String) :
    (rs.cut names).successors n = if n ∈ names then [""] else rs.successors n := by
  unfold cut
  induction names generalizing rs with
  | nil => simp
  | cons a rest ih =>
    rw [List.foldl_cons, ih, successors_setSuccessors]
    -- a name may be cut again, but its successors are the same then
    by_cases hr : n ∈ rest
    · simp [hr]
    · by_cases ha : n = a <;> simp [hr, ha]

theorem successors_cut_of_mem {names : List String} {n : String} (h : n ∈ names) :
    (rs.cut names).successors n = [""] := by
  rw [successors_cut, if_pos h]

theorem successors_cut_of_not_mem {names : List String} {n : String} (h : n ∉ names) :
    (rs.cut names).successors n = rs.successors n := by
  rw [successors_cut, if_neg h]

/-- Cutting leaves the languages alone if only the empty word may follow the
rules that are cut. -/
theorem language_cut_of_follow_eq_one (hempty : ¬ rs.hasRule "") {names : List String}
    (h : ∀ n ∈ names, rs.follow I (rs.successors n) = 1) (n : String) :
    (rs.cut names).language I n = rs.language I n := by
  have hrule : ∀ t, (rs.cut names).hasRule t ↔ rs.hasRule t := fun t => by rw [hasRule_cut]
  have hempty' : ¬ (rs.cut names).hasRule "" := fun h => hempty ((hrule "").mp h)
  ext w
  constructor
  · intro hw
    refine Generates.least (L := rs.Generates I) ?_ hw
    intro n u v hn hu hv
    rw [patternOf_cut] at hu
    refine .intro ((hrule n).mp hn) hu ?_
    by_cases hmem : n ∈ names
    · rw [successors_cut_of_mem hmem, follows_of_end hempty' (by simp)] at hv
      rw [← mem_follow, h n hmem, hv]
      exact Language.nil_mem_one
    · rw [successors_cut_of_not_mem hmem] at hv
      exact hv.imp (fun t _ => hrule t) fun _ _ h => h
  · intro hw
    -- both readings of the tail are kept, to know that it is empty behind a cut rule
    refine (Generates.least
      (L := fun n w => rs.Generates I n w ∧ (rs.cut names).Generates I n w) ?_ hw).2
    intro n u v hn hu hv
    have hv₁ : rs.Follows I (rs.Generates I) (rs.successors n) v :=
      hv.imp (fun _ _ => Iff.rfl) fun _ _ h => h.1
    have hu' : u ∈ I ((rs.cut names).patternOf n) := by rwa [patternOf_cut]
    refine ⟨.intro hn hu hv₁, .intro ((hrule n).mpr hn) hu' ?_⟩
    by_cases hmem : n ∈ names
    · rw [successors_cut_of_mem hmem, follows_of_end hempty' (by simp)]
      rw [← mem_follow, h n hmem] at hv₁
      exact (Language.mem_one v).mp hv₁
    · rw [successors_cut_of_not_mem hmem]
      exact hv.imp (fun t _ => (hrule t).symm) fun _ _ h => h.2

end GrammarDiagram.RuleSet
