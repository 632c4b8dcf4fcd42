/-
GrammarDiagram/Proofs/WellFormed.lean

Rule sets without loose ends.

In a well-formed rule set the rules have identifiers for names, only rules and
the end have successors, and every successor is the end, a rule that is there, or
a pattern.  Synthesis gives such a rule set (`WellFormed.assemble`), also where
edges leave a finish or an end of an edge is no node, and every reduction keeps
it so (`WellFormed.reduces`): the rule that goes is mentioned nowhere afterwards.

Hence no sequence of rewrites leaves a reference to a rule that is gone
(`wellFormed_rewrite_of_synthesize`).  Nor does it put a rule under another name
than its own (`Named`), which has to be said besides: fusing writes a rule anew.
-/
import GrammarDiagram.Proofs.Compilation
import GrammarDiagram.Proofs.Meaning

namespace GrammarDiagram

namespace RuleSet

variable {rs : RuleSet} {names : Table String} {nodes : List Node} {edges : List Edge}

/-! ### Well-formed rule sets -/

/-- Names are identifiers, only rules and the end have successors, and successors
are the end, rules or patterns. -/
structure WellFormed (rs : RuleSet) : Prop where
  identified : rs.Identified
  source : ∀ {x}, x ∈ rs.adjacency.keys → x = "" ∨ rs.hasRule x
  successor : ∀ {x t}, t ∈ rs.successors x → t = "" ∨ rs.hasRule t ∨ Pattern.IsFragment t

/-- Whether a rule set is well formed can be read off its tables. -/
theorem wellFormed_iff :
    rs.WellFormed ↔ (∀ n ∈ rs.rules.keys, Name.IsIdentifier n) ∧
      (∀ x ∈ rs.adjacency.keys, x = "" ∨ rs.hasRule x) ∧
      ∀ t ∈ rs.mentions, t = "" ∨ rs.hasRule t ∨ Pattern.IsFragment t := by
  constructor
  · intro h
    refine ⟨fun n hn => ?_, fun _ hx => h.source hx, fun t ht => ?_⟩
    · exact h.identified n ((Table.contains_iff_mem_keys _ _).mpr hn)
    · obtain ⟨x, hx⟩ := mem_mentions_iff.mp ht
      exact h.successor hx
  · rintro ⟨hnames, hsources, htargets⟩
    refine ⟨fun n hn => ?_, fun hx => hsources _ hx, fun ht => ?_⟩
    · exact hnames n ((Table.contains_iff_mem_keys _ _).mp hn)
    · exact htargets _ (mem_mentions_iff.mpr ⟨_, ht⟩)

instance (rs : RuleSet) : Decidable rs.WellFormed := decidable_of_iff _ wellFormed_iff.symm

namespace WellFormed

/-- Names that no rule has are no successors. -/
theorem not_mem_successors (h : rs.WellFormed) {n : String} (hn : Name.IsIdentifier n)
    (hgone : ¬ rs.hasRule n) (x : String) : n ∉ rs.successors x := by
  intro hmem
  rcases h.successor hmem with hempty | hrule | hfragment
  · exact hn.1 hempty
  · exact hgone hrule
  · exact hfragment.not_isIdentifier hn

/-- Names without a rule have no successors, the end apart. -/
theorem hasRule_of_mem_successors (h : rs.WellFormed) {x t : String}
    (ht : t ∈ rs.successors x) : x = "" ∨ rs.hasRule x :=
  h.source (List.mem_map_of_mem (mem_entries_of_mem_successors ht))

/-- Taking a rule away as reductions do leaves no loose end. -/
theorem removes {rs' : RuleSet} {gone : String} (h : rs.WellFormed)
    (hgone : rs.Removes rs' gone) : rs'.WellFormed where
  identified := fun n hn => h.identified n (hgone.hasRule_iff.mp hn).2
  source := by
    intro x hx
    obtain ⟨hne, hold⟩ := hgone.source hx
    have hrule : x = "" ∨ rs.hasRule x := by
      rcases hold with hkey | hrule
      · exact h.source hkey
      · exact .inr hrule
    exact hrule.imp_right fun hrule => hgone.hasRule_iff.mpr ⟨hne, hrule⟩
  successor := by
    intro x t ht
    rcases hgone.successor ht with ⟨hne, hold⟩ | ⟨p, rfl⟩
    · -- a name that comes to stand elsewhere is still the name of a rule
      have hkind : t = "" ∨ rs.hasRule t ∨ Pattern.IsFragment t := by
        rcases hold with ⟨y, hy⟩ | hrule
        · exact h.successor hy
        · exact .inr (.inl hrule)
      exact hkind.imp_right (.imp_left fun hrule => hgone.hasRule_iff.mpr ⟨hne, hrule⟩)
    · exact .inr (.inr (Pattern.isFragment_fragment p))

theorem reduces {r : Reduction} (h : rs.WellFormed) (hr : rs.Reduces r) : r.result.WellFormed := by
  obtain ⟨gone, hgone⟩ := hr.removes
  exact h.removes hgone

theorem rewrite (h : rs.WellFormed) (ws : List Rewrite) : (rs.rewrite ws).WellFormed :=
  rewrite_invariant reduces ws h

end WellFormed

/-! ### Rules under their names -/

/-- Every rule is under its own name. -/
def Named (rs : RuleSet) : Prop :=
  ∀ key rule, rs.rules.get? key = some rule → rule.name = key

namespace Named

theorem name_ruleOf (h : rs.Named) (name : String) : (rs.ruleOf name).name = name := by
  unfold ruleOf
  rcases hget : rs.rules.get? name with - | rule
  · rfl
  · exact h name rule hget

theorem remove (h : rs.Named) (name : String) : (rs.remove name).Named := by
  intro key rule hget
  rw [RuleSet.remove, Table.get?_erase] at hget
  split at hget
  · cases hget
  · exact h key rule hget

theorem setPattern (h : rs.Named) (name pattern : String) : (rs.setPattern name pattern).Named := by
  intro key rule hget
  rw [RuleSet.setPattern, Table.get?_put] at hget
  split at hget
  · -- the rule is written anew, with the name that it had
    rename_i hkey
    cases hget
    rw [hkey]
    exact h.name_ruleOf name
  · exact h key rule hget

/-- Reductions take rules out and give them patterns and successors, but no names. -/
theorem reduces {r : Reduction} (h : rs.Named) (hr : rs.Reduces r) : r.result.Named := by
  cases hr with
  | fuse _ _ => exact Named.remove (h.setPattern _ _) _
  | merge _ => exact Named.remove h _
  | inline _ _ => exact Named.remove h _

theorem rewrite (h : rs.Named) (ws : List Rewrite) : (rs.rewrite ws).Named :=
  rewrite_invariant reduces ws h

end Named

/-! ### The rule set of a diagram -/

/-- Names with successors are those of sources. -/
theorem mem_keys_foldl_linkEdge {x : String}
    (h : x ∈ (edges.foldl (linkEdge names) rs).adjacency.keys) :
    x ∈ rs.adjacency.keys ∨ ∃ e ∈ edges, names.get? e.source = some x := by
  induction edges generalizing rs with
  | nil => exact .inl h
  | cons e rest ih =>
    rcases ih h with hkey | ⟨e', he', hsource⟩
    · unfold linkEdge at hkey
      split at hkey
      · rename_i source target hs ht
        rcases Table.mem_keys_put.mp hkey with rfl | hkey
        · exact .inr ⟨e, List.mem_cons_self, hs⟩
        · exact .inl hkey
      · exact .inl hkey
    · exact .inr ⟨e', List.mem_cons_of_mem _ he', hsource⟩

/-- The name of an id is empty or has a rule. -/
theorem Naming.hasRule_assemble (hn : Naming nodes names) {id x : String}
    (hx : names.get? id = some x) : x = "" ∨ (assemble names nodes edges).hasRule x := by
  obtain ⟨n, hmem, rfl⟩ := hn.domain hx
  by_cases hkind : n.kind = .finish
  · exact .inl ((hn.fits_of_get? hmem hx).eq_empty_iff.mpr hkind)
  · exact .inr (hasRule_assemble_iff.mpr ⟨n, hmem, hkind, hx⟩)

theorem WellFormed.assemble (hn : Naming nodes names) :
    (assemble names nodes edges).WellFormed where
  identified := identified_assemble hn
  source := by
    intro x hx
    rcases mem_keys_foldl_linkEdge hx with hkey | ⟨e, -, hsource⟩
    · cases hkey
    · exact hn.hasRule_assemble hsource
  successor := by
    intro x t ht
    obtain ⟨e, -, -, htarget⟩ := mem_successors_assemble_iff.mp ht
    rw [← or_assoc]
    exact .inl (hn.hasRule_assemble htarget)

theorem Named.assemble (names : Table String) (nodes : List Node) (edges : List Edge) :
    (assemble names nodes edges).Named := by
  intro key rule hget
  rw [RuleSet.assemble, rules_foldl_linkEdge, get?_foldl_addRule, Table.get?_empty,
    Option.none_or] at hget
  obtain ⟨n, -, rfl⟩ := Option.map_eq_some_iff.mp hget
  rfl

/-- There is a root if there is a start. -/
theorem Naming.hasRule_root_assemble_iff (hn : Naming nodes names) :
    (assemble names nodes edges).hasRule Name.root ↔ ∃ n ∈ nodes, n.kind = .start := by
  rw [hasRule_assemble_iff]
  constructor
  · rintro ⟨n, hmem, -, hroot⟩
    exact ⟨n, hmem, (hn.fits_of_get? hmem hroot).eq_root_iff.mp rfl⟩
  · rintro ⟨n, hmem, hkind⟩
    obtain ⟨x, hx, hfits⟩ := hn.fits hmem
    refine ⟨n, hmem, by rw [hkind]; decide, ?_⟩
    rw [hx, hfits.eq_root_iff.mpr hkind]

/-! ### Rewriting the rule set of a diagram -/

/-- Whatever rewrites are applied to the rule set of a diagram with distinct ids,
it stays well formed: every rule is stored under its own name, there is a root if the
diagram has a start, and rules that are gone are mentioned nowhere. -/
theorem wellFormed_rewrite_of_synthesize (hids : (nodes.map Node.id).Nodup)
    (h : (synthesize nodes edges).result = .ok rs) (ws : List Rewrite) :
    (rs.rewrite ws).WellFormed ∧
      (∀ entry ∈ (rs.rewrite ws).rules.entries, entry.2.name = entry.1) ∧
      ((rs.rewrite ws).hasRule Name.root ↔ ∃ n ∈ nodes, n.kind = .start) ∧
      ∀ n, rs.hasRule n → ¬ (rs.rewrite ws).hasRule n →
        ∀ x, n ∉ (rs.rewrite ws).successors x := by
  obtain ⟨names, hassign, -, rfl⟩ := synthesize_eq_ok_iff.mp h
  have hn := naming_of_assignNames hids hassign
  have hstart : (assemble names nodes edges).WellFormed := .assemble hn
  have hend := hstart.rewrite ws
  have hnamed := (Named.assemble names nodes edges).rewrite ws
  refine ⟨hend, fun entry hentry => hnamed _ _ (Table.mem_entries_iff.mp hentry), ?_,
    fun n hrule hgone => ?_⟩
  · rw [hasRule_root_rewrite_iff, hn.hasRule_root_assemble_iff]
  · exact hend.not_mem_successors (hstart.identified n hrule) hgone

/-- The edges of `branchingNodes`, one more that leads on from the finish, and
one that leads nowhere. -/
def returningEdges : List Edge :=
  branchingEdges ++ [{ source := "e", target := "s" }, { source := "a", target := "lost" }]

/-- One letter is merged with the other, the second digit is fused with the first
and both are inlined; what is left mentions neither of the rules that are gone. -/
theorem wellFormed_rewrite_returning :
    (branchingNodes.map Node.id).Nodup ∧
      ∃ rs, (synthesize branchingNodes returningEdges).result = .ok rs ∧
        rs.hasRule "_rule2" ∧ rs.successors "" = [Name.root] ∧
        (rs.rewrite [.merge, .fuse, .inline]).WellFormed ∧
        (∀ entry ∈ (rs.rewrite [.merge, .fuse, .inline]).rules.entries,
          entry.2.name = entry.1) ∧
        (rs.rewrite [.merge, .fuse, .inline]).hasRule Name.root ∧
        (rs.rewrite [.merge, .fuse, .inline]).successors Name.root =
          ["", "_rule1", "_rule1", "([0-9] [0-9])"] ∧
        ∀ x, "_rule2" ∉ (rs.rewrite [.merge, .fuse, .inline]).successors x := by
  have hids : (branchingNodes.map Node.id).Nodup := by decide
  have hsynthesize : ∃ rs, (synthesize branchingNodes returningEdges).result = .ok rs ∧
      decide (rs.hasRule "_rule2" ∧ rs.successors "" = [Name.root] ∧
        ¬ (rs.rewrite [.merge, .fuse, .inline]).hasRule "_rule2" ∧
        (rs.rewrite [.merge, .fuse, .inline]).successors Name.root =
          ["", "_rule1", "_rule1", "([0-9] [0-9])"]) :=
    Fault.exists_ok_of_any (by decide +kernel)
  obtain ⟨rs, hrs, hfacts⟩ := hsynthesize
  obtain ⟨hletter, hfinish, hgone, hroot⟩ := of_decide_eq_true hfacts
  obtain ⟨hwell, hnamed, hstart, hmentions⟩ :=
    wellFormed_rewrite_of_synthesize hids hrs [.merge, .fuse, .inline]
  refine ⟨hids, rs, hrs, hletter, hfinish, hwell, hnamed, hstart.mpr ?_, hroot,
    hmentions _ hletter hgone⟩
  exact ⟨{ id := "s", kind := .start }, List.mem_cons_self, rfl⟩

end RuleSet

end GrammarDiagram
