/-
GrammarDiagram/Proofs/Confluence.lean

When the order of reductions does not matter.

A rule set has one end if rules are only merged, or only inlined.  If rules are
fused, it has one end as long as no pattern has a blank at either end and no
rules form a ring; and then rules may be inlined as well if every rule has a
successor (`existsUnique_endsIn_of_synthesize`).

None of this can be left out: there are diagrams whose rule sets have different
ends if merging is mixed with inlining or with fusing, and diagrams with a ring,
with a blank and with a rule without successors (`ends_differ`).  The fixed order
of a run then chooses among these ends.
-/
import GrammarDiagram.Proofs.Closure
import GrammarDiagram.Proofs.Fixpoint
import GrammarDiagram.Proofs.Merging
import GrammarDiagram.Proofs.Tame

namespace GrammarDiagram.RuleSet

variable {nodes : List Node} {edges : List Edge} {rs : RuleSet}

theorem tame_of_synthesize {kinds : Set Rewrite} (hids : (nodes.map Node.id).Nodup)
    (h : (synthesize nodes edges).result = .ok rs)
    (hblank : .fuse ∈ kinds → ∀ n ∈ nodes, n.kind = .charSet → Text.IsStripped n.pattern)
    (hring : .fuse ∈ kinds → ∀ x, ¬ rs.OnRing x)
    (hgoes : .fuse ∈ kinds → .inline ∈ kinds → ∀ x, rs.hasRule x → rs.successors x ≠ []) :
    Tame kinds rs where
  identified := identified_of_synthesize hids h
  stripped := by
    intro hfuse x hx
    obtain ⟨names, -, -, rfl⟩ := synthesize_eq_ok_iff.mp h
    obtain ⟨n, hn, hpattern⟩ := exists_patternOf_assemble hx
    rw [hpattern]
    by_cases hkind : n.kind = .charSet
    · exact hblank hfuse n hn hkind
    · exact n.isStripped_pattern hkind
  ringless := hring
  goesOn := hgoes

/-- Merging alone and inlining alone have one end.  So has fusing where no
pattern has a blank at its ends and no rules form a ring, and fusing with inlining
where moreover every rule has a successor. -/
theorem existsUnique_endsIn_of_synthesize (hids : (nodes.map Node.id).Nodup)
    (h : (synthesize nodes edges).result = .ok rs) :
    (∃! final, EndsIn {.merge} rs final) ∧ (∃! final, EndsIn {.inline} rs final) ∧
      ((∀ n ∈ nodes, n.kind = .charSet → Text.IsStripped n.pattern) → (∀ x, ¬ rs.OnRing x) →
        (∃! final, EndsIn {.fuse} rs final) ∧
        ((∀ x, rs.hasRule x → rs.successors x ≠ []) →
          ∃! final, EndsIn {.fuse, .inline} rs final)) := by
  refine ⟨existsUnique_endsIn_merge rs, ?_, fun hblank hring => ⟨?_, fun hgoes => ?_⟩⟩
  · have htame : Tame {.inline} rs :=
      tame_of_synthesize hids h (by simp) (by simp) (by simp)
    exact htame.existsUnique_endsIn (by simp)
  · have htame : Tame {.fuse} rs :=
      tame_of_synthesize hids h (fun _ => hblank) (fun _ => hring) (by simp)
    exact htame.existsUnique_endsIn (by simp)
  · have htame : Tame {.fuse, .inline} rs :=
      tame_of_synthesize hids h (fun _ => hblank) (fun _ => hring) (fun _ _ => hgoes)
    exact htame.existsUnique_endsIn (by simp)

/-- Rules that are linked in the order of a numbering form no ring. -/
theorem not_onRing_of_lt {f : String → Nat} (h : ∀ a b, rs.Links a b → f a < f b)
    (x : String) : ¬ rs.OnRing x := by
  have hlt : ∀ {a b}, Relation.TransGen rs.Links a b → f a < f b := by
    intro a b hab
    induction hab with
    | single hlink => exact h _ _ hlink
    | tail _ hlink ih => exact ih.trans (h _ _ hlink)
  exact fun hring => (hlt hring).false

/-- A letter and another character, each before a digit of its own. -/
def forkedNodes : List Node := [
  { id := "s", kind := .start },
  { id := "a", kind := .letter },
  { id := "b", kind := .nonNewline },
  { id := "c", kind := .digit },
  { id := "d", kind := .digit },
  { id := "e", kind := .finish }]

/-- The edges of `forkedNodes`. -/
def forkedEdges : List Edge := [
  { source := "s", target := "a" },
  { source := "s", target := "b" },
  { source := "a", target := "c" },
  { source := "b", target := "d" },
  { source := "c", target := "e" },
  { source := "d", target := "e" }]

/-- The digits can be merged, or each of them fused with what stands before it. -/
theorem existsUnique_endsIn_forked :
    (forkedNodes.map Node.id).Nodup ∧
      ∃ rs, (synthesize forkedNodes forkedEdges).result = .ok rs ∧
        (∀ n ∈ forkedNodes, n.kind = .charSet → Text.IsStripped n.pattern) ∧
        (∀ x, ¬ rs.OnRing x) ∧ (∀ x, rs.hasRule x → rs.successors x ≠ []) ∧
        (∃! final, EndsIn {.merge} rs final) ∧ (∃! final, EndsIn {.inline} rs final) ∧
        (∃! final, EndsIn {.fuse} rs final) ∧ ∃! final, EndsIn {.fuse, .inline} rs final := by
  have hids : (forkedNodes.map Node.id).Nodup := by decide
  have hsynthesize : ∃ rs, (synthesize forkedNodes forkedEdges).result = .ok rs ∧
      decide (∀ a ∈ rs.rules.keys, rs.successors a ≠ [] ∧ ∀ b ∈ rs.successors a,
        rs.hasRule b → rs.rules.keys.idxOf a < rs.rules.keys.idxOf b) :=
    Fault.exists_ok_of_any (by decide +kernel)
  obtain ⟨rs, hrs, hfacts⟩ := hsynthesize
  have hfacts := of_decide_eq_true hfacts
  have hblank : ∀ n ∈ forkedNodes, n.kind = .charSet → Text.IsStripped n.pattern := by
    simp [forkedNodes]
  have hring : ∀ x, ¬ rs.OnRing x := by
    refine not_onRing_of_lt (f := rs.rules.keys.idxOf) fun a b hab => ?_
    exact (hfacts a hab.1.mem_keys_rules).2 b hab.1.mem hab.1.hasRule
  have hgoes : ∀ x, rs.hasRule x → rs.successors x ≠ [] :=
    fun x hx => (hfacts x ((Table.contains_iff_mem_keys _ _).mp hx)).1
  obtain ⟨hmerge, hinline, hrest⟩ := existsUnique_endsIn_of_synthesize hids hrs
  obtain ⟨hfuse, hboth⟩ := hrest hblank hring
  exact ⟨hids, rs, hrs, hblank, hring, hgoes, hmerge, hinline, hfuse, hboth hgoes⟩

/-! ### Different ends -/

/-- Two rule sets are alike if they are equal up to the names of the rules other
than the root. -/
def Alike (rs rs' : RuleSet) : Prop :=
  ∃ f : Equiv.Perm String, f Name.root = Name.root ∧ (∀ n, rs'.hasRule (f n) ↔ rs.hasRule n) ∧
    ∀ n, rs.hasRule n → rs'.patternOf (f n) = rs.patternOf n ∧
      rs'.successors (f n) = (rs.successors n).map fun t => if rs.hasRule t then f t else t

/-- The rule set of a valid diagram has ends that are not alike, whatever kinds
there are besides these. -/
def Splits (kinds : Set Rewrite) (nodes : List Node) (edges : List Edge) : Prop :=
  (nodes.map Node.id).Nodup ∧ (Report.ofGraph nodes edges).isValid ∧
    ∃ rs, (synthesize nodes edges).result = .ok rs ∧
      ∀ more, kinds ⊆ more → ∃ a b, EndsIn more rs a ∧ EndsIn more rs b ∧ ¬ Alike a b

/-- A kind of step and the two rules that it is about. -/
structure Place where
  kind : Rewrite
  first : String
  second : String

namespace Place

/-- The condition of the step at a place. -/
def admits (p : Place) (rs : RuleSet) : Bool :=
  match p.kind with
  | .fuse => rs.candidates.contains (p.first, p.second) && rs.canFuse (p.first, p.second)
  | .merge => [p.first, p.second].isSublist rs.ordinary && rs.areTwins p.first p.second
  | .inline => rs.candidates.contains (p.first, p.second) && rs.canInline (p.first, p.second)

/-- The rule set after the step at a place. -/
def act (p : Place) (rs : RuleSet) : RuleSet :=
  match p.kind with
  | .fuse => rs.fuseAt p.first p.second
  | .merge => rs.mergeAt p.first p.second
  | .inline => rs.inlineAt p.first p.second

theorem step_act {p : Place} (h : p.admits rs) : rs.Step p.kind (p.act rs) := by
  rcases p with ⟨kind, first, second⟩
  cases kind with
  | fuse =>
    obtain ⟨hc, hfuse⟩ := Bool.and_eq_true_iff.mp h
    exact .fuse (c := (first, second)) (List.contains_iff_mem.mp hc) hfuse
  | merge =>
    obtain ⟨hsub, htwins⟩ := Bool.and_eq_true_iff.mp h
    exact .merge (List.isSublist_iff_sublist.mp hsub) htwins
  | inline =>
    obtain ⟨hc, hinline⟩ := Bool.and_eq_true_iff.mp h
    exact .inline (c := (first, second)) (List.contains_iff_mem.mp hc) hinline

end Place

/-- The rule set after steps at these places, if they can be made. -/
def follow? (rs : RuleSet) : List Place → Option RuleSet
  | [] => some rs
  | p :: rest => if p.admits rs then (p.act rs).follow? rest else none

theorem reaches_of_follow? {kinds : Set Rewrite} {ps : List Place} {final : RuleSet}
    (hkinds : ∀ p ∈ ps, p.kind ∈ kinds) (h : rs.follow? ps = some final) :
    Reaches kinds rs final := by
  induction ps generalizing rs with
  | nil =>
    cases h
    exact .refl
  | cons p rest ih =>
    rw [List.forall_mem_cons] at hkinds
    unfold follow? at h
    split at h
    · rename_i hadmits
      exact .head ⟨_, hkinds.1, p.step_act hadmits⟩ (ih hkinds.2 h)
    · cases h

/-- Some rule has this pattern. -/
def showsPattern (rs : RuleSet) (pattern : String) : Bool :=
  rs.rules.keys.any fun n => rs.patternOf n == pattern

theorem Alike.showsPattern {a b : RuleSet} (h : Alike a b) {pattern : String}
    (hb : a.showsPattern pattern) : b.showsPattern pattern := by
  obtain ⟨f, -, hrule, hall⟩ := h
  obtain ⟨n, hn, hpattern⟩ := List.any_eq_true.mp hb
  have hn := (Table.contains_iff_mem_keys _ _).mpr hn
  refine List.any_eq_true.mpr ⟨f n, (Table.contains_iff_mem_keys _ _).mp ((hrule n).mpr hn), ?_⟩
  rw [(hall n hn).1]
  exact hpattern

/-- The places lead to an end with a rule of this pattern. -/
def endsWith (ps : List Place) (pattern : String) (has : Bool) (rs : RuleSet) : Bool :=
  (rs.follow? ps).any fun final =>
    final.reduce?.isNone && final.showsPattern pattern == has

theorem exists_endsIn_of_endsWith {kinds : Set Rewrite} {ps : List Place} {pattern : String}
    {has : Bool} (hkinds : ∀ p ∈ ps, p.kind ∈ kinds) (h : rs.endsWith ps pattern has) :
    ∃ final, EndsIn kinds rs final ∧ final.showsPattern pattern = has := by
  rcases hfinal : rs.follow? ps with - | final
  · rw [endsWith, hfinal] at h
    cases h
  rw [endsWith, hfinal] at h
  obtain ⟨hnone, hpattern⟩ := Bool.and_eq_true_iff.mp h
  have hstuck := reduce?_eq_none_iff.mp (Option.isNone_iff_eq_none.mp hnone)
  refine ⟨final, ⟨reaches_of_follow? hkinds hfinal, ?_⟩, by simpa using hpattern⟩
  rintro next ⟨w, -, hstep⟩
  exact Rewrite.fire?_eq_none_iff.mp (hstuck w) next hstep

/-- Two ways to ends of which one has a rule with a pattern that the other has
not. -/
theorem splits_of_endsWith {kinds : Set Rewrite} {nodes : List Node} {edges : List Edge}
    (ps qs : List Place) (pattern : String) (hids : (nodes.map Node.id).Nodup)
    (hvalid : (Report.ofGraph nodes edges).isValid)
    (hps : ∀ p ∈ ps, p.kind ∈ kinds) (hqs : ∀ p ∈ qs, p.kind ∈ kinds)
    (h : ((synthesize nodes edges).result.toOption.any fun rs =>
      rs.endsWith ps pattern true && rs.endsWith qs pattern false) = true) :
    Splits kinds nodes edges := by
  obtain ⟨rs, hrs, hends⟩ := Fault.exists_ok_of_any h
  obtain ⟨hp, hq⟩ := Bool.and_eq_true_iff.mp hends
  refine ⟨hids, hvalid, rs, hrs, fun more hmore => ?_⟩
  obtain ⟨a, ha, hshows⟩ := exists_endsIn_of_endsWith (fun p hmem => hmore (hps p hmem)) hp
  obtain ⟨b, hb, hhides⟩ := exists_endsIn_of_endsWith (fun p hmem => hmore (hqs p hmem)) hq
  refine ⟨a, b, ha, hb, fun halike => ?_⟩
  rw [halike.showsPattern hshows] at hhides
  cases hhides

/-- Two letters, of which either or none may be taken. -/
def optionNodes : List Node := [
  { id := "s", kind := .start },
  { id := "a", kind := .letter },
  { id := "b", kind := .letter },
  { id := "e", kind := .finish }]

/-- The edges of `optionNodes`. -/
def optionEdges : List Edge := [
  { source := "s", target := "a" },
  { source := "s", target := "b" },
  { source := "s", target := "e" },
  { source := "a", target := "e" },
  { source := "b", target := "e" }]

/-- A letter and a digit that follow each other, besides the start. -/
def ringNodes : List Node := [
  { id := "s", kind := .start },
  { id := "a", kind := .letter },
  { id := "b", kind := .digit },
  { id := "e", kind := .finish }]

/-- The edges of `ringNodes`. -/
def ringEdges : List Edge := [
  { source := "s", target := "e" },
  { source := "a", target := "b" },
  { source := "b", target := "a" }]

/-- A set of characters that is written with a blank behind it, between a letter
and a digit. -/
def blankNodes : List Node := [
  { id := "s", kind := .start },
  { id := "a", kind := .letter },
  { id := "b", kind := .charSet, properties := [(.text "pattern", .text "[b] ")] },
  { id := "c", kind := .digit },
  { id := "e", kind := .finish }]

/-- The edges of `blankNodes`. -/
def blankEdges : List Edge := [
  { source := "s", target := "a" },
  { source := "a", target := "b" },
  { source := "b", target := "c" },
  { source := "c", target := "e" }]

/-- A letter before a digit. -/
def brokenNodes : List Node := [
  { id := "s", kind := .start },
  { id := "a", kind := .letter },
  { id := "b", kind := .digit }]

/-- The edges of `brokenNodes`, of which the last leads to no node. -/
def brokenEdges : List Edge := [
  { source := "s", target := "a" },
  { source := "a", target := "b" },
  { source := "b", target := "lost" }]

/-- Merging does not go with inlining or with fusing; fusing alone has different
ends at a ring and at a blank, and together with inlining at a rule without
successors. -/
theorem ends_differ :
    Splits {.merge, .inline} optionNodes optionEdges ∧
      Splits {.merge, .fuse} forkedNodes forkedEdges ∧
      Splits {.fuse} ringNodes ringEdges ∧
      Splits {.fuse} blankNodes blankEdges ∧
      Splits {.fuse, .inline} brokenNodes brokenEdges := by
  refine ⟨?_, ?_, ?_, ?_, ?_⟩
  · exact splits_of_endsWith [⟨.merge, "_rule1", "_rule2"⟩]
      [⟨.inline, "_rule1", "root"⟩, ⟨.inline, "_rule2", "root"⟩] "[a-zA-Z]"
      (by decide) (by decide) (by simp) (by simp) (by decide +kernel)
  · exact splits_of_endsWith [⟨.merge, "_rule3", "_rule4"⟩]
      [⟨.fuse, "_rule3", "_rule1"⟩, ⟨.fuse, "_rule4", "_rule2"⟩] "[0-9]"
      (by decide) (by decide) (by simp) (by simp) (by decide +kernel)
  · exact splits_of_endsWith [⟨.fuse, "_rule2", "_rule1"⟩] [⟨.fuse, "_rule1", "_rule2"⟩]
      "[a-zA-Z] [0-9]" (by decide) (by decide) (by simp) (by simp) (by decide +kernel)
  · exact splits_of_endsWith
      [⟨.fuse, "_rule3", "_rule2"⟩, ⟨.fuse, "_rule2", "_rule1"⟩, ⟨.fuse, "_rule1", "root"⟩]
      [⟨.fuse, "_rule1", "root"⟩, ⟨.fuse, "_rule2", "root"⟩, ⟨.fuse, "_rule3", "root"⟩]
      "[a-zA-Z] [b]  [0-9]" (by decide) (by decide) (by simp) (by simp) (by decide +kernel)
  · exact splits_of_endsWith [⟨.fuse, "_rule2", "_rule1"⟩, ⟨.fuse, "_rule1", "root"⟩]
      [⟨.inline, "_rule2", "_rule1"⟩, ⟨.fuse, "_rule1", "root"⟩] "[a-zA-Z] [0-9]"
      (by decide) (by decide) (by simp) (by simp) (by decide +kernel)

end GrammarDiagram.RuleSet
