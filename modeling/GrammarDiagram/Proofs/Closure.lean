/-
GrammarDiagram/Proofs/Closure.lean

References in the text of a grammar.

Bodies mention other rules, and a rule that is mentioned may be hollow, so that
the text does not define it (`router_not_defined`).  No other rule is missing
(`defines_compile`): whether or not the rule set was reduced, every rule that is
mentioned and not hollow is defined, and so is the root; and if no pattern has
a line feed, nothing defines the rules that are hollow.

For this it has to be known of what patterns and successors are made.  `Over`
states a property of each; one that holds of the nodes and is `Stable` under
what reductions write holds of every rule set that is compiled (`over_compile`).
-/
import GrammarDiagram.Proofs.Compilation
import GrammarDiagram.Proofs.Emission

namespace GrammarDiagram

/-! ### Characters in texts -/

/-- A character does not occur in a text. -/
def Lacks (c : Char) (s : String) : Prop := c ∉ s.toList

instance (c : Char) (s : String) : Decidable (Lacks c s) :=
  inferInstanceAs (Decidable (c ∉ s.toList))

/-- The characters, apart from those of names and patterns, that bodies are written with. -/
def marks : List Char := [' ', '|', '(', ')', '?']

section Lacks

variable {c : Char} {s t : String}

theorem lacks_of_all {l : List Char} (hc : c ∉ l) (h : s.toList.all l.contains) : Lacks c s :=
  fun hmem => hc (List.contains_iff_mem.mp (List.all_eq_true.mp h c hmem))

theorem Lacks.append (hs : Lacks c s) (ht : Lacks c t) : Lacks c (s ++ t) := by
  unfold Lacks
  rw [String.toList_append, List.mem_append]
  exact not_or.mpr ⟨hs, ht⟩

theorem Lacks.strip (hs : Lacks c s) : Lacks c (Text.strip s) := by
  intro hmem
  rw [Text.toList_strip] at hmem
  exact hs ((Text.stripChars_sublist _).subset hmem)

theorem Lacks.intercalate {sep : String} (hsep : Lacks c sep) {l : List String}
    (hl : ∀ s ∈ l, Lacks c s) : Lacks c (String.intercalate sep l) := by
  induction l with
  | nil => exact List.not_mem_nil
  | cons s rest ih =>
    obtain ⟨hs, hrest⟩ := List.forall_mem_cons.mp hl
    rcases rest with - | ⟨t, rest⟩
    · rwa [String.intercalate_singleton]
    · rw [String.intercalate_cons_cons]
      exact (hs.append hsep).append (ih hrest)

end Lacks

namespace RuleSet

/-! ### Properties of patterns and successors -/

/-- Patterns of rules have one property, their successors another. -/
structure Over (P Q : String → Prop) (rs : RuleSet) : Prop where
  pattern : ∀ {n}, rs.hasRule n → P (rs.patternOf n)
  successor : ∀ {n t}, rs.hasRule n → t ∈ rs.successors n → Q t

/-- Two properties that are kept by what reductions write. -/
structure Stable (P Q : String → Prop) : Prop where
  join : ∀ {p q}, P p → P q → P (Text.strip (p ++ " " ++ q))
  fragment : ∀ {p}, P p → Q (Pattern.fragment p)
  name : ∀ {n}, Name.IsIdentifier n → Q n

variable {P Q : String → Prop} {rs : RuleSet}

section Step

variable (hs : Stable P Q)
include hs

theorem Over.fuseAt {name mentioner : String} (h : Over P Q rs)
    (hc : rs.SoleMention name mentioner) : Over P Q (rs.fuseAt name mentioner) := by
  constructor
  · intro n hn
    rw [hasRule_fuseAt hc.hasRule_mentioner] at hn
    rw [patternOf_fuseAt hn.1]
    split
    · exact hs.join (h.pattern hc.hasRule_mentioner) (h.pattern hc.hasRule)
    · exact h.pattern hn.2
  · intro n t hn ht
    rw [hasRule_fuseAt hc.hasRule_mentioner] at hn
    rw [successors_fuseAt hn.1] at ht
    split at ht
    · exact h.successor hc.hasRule ht
    · exact h.successor hn.2 ht

omit hs in
theorem Over.mergeAt {kept dropped : String} (h : Over P Q rs) (hkept : Q kept) :
    Over P Q (rs.mergeAt kept dropped) := by
  constructor
  · intro n hn
    rw [hasRule_mergeAt] at hn
    rw [patternOf_mergeAt hn.1]
    exact h.pattern hn.2
  · intro n t hn ht
    rw [hasRule_mergeAt] at hn
    rw [successors_mergeAt hn.1] at ht
    obtain ⟨x, hx, rfl⟩ := List.mem_map.mp ht
    split
    · exact hkept
    · exact h.successor hn.2 hx

theorem Over.inlineAt {name mentioner : String} (h : Over P Q rs)
    (hc : rs.SoleMention name mentioner) : Over P Q (rs.inlineAt name mentioner) := by
  constructor
  · intro n hn
    rw [hasRule_inlineAt] at hn
    rw [patternOf_inlineAt hn.1]
    exact h.pattern hn.2
  · intro n t hn ht
    rw [hasRule_inlineAt] at hn
    rw [successors_inlineAt hn.1] at ht
    split at ht
    · obtain ⟨x, hx, rfl⟩ := List.mem_map.mp ht
      split
      · exact hs.fragment (h.pattern hc.hasRule)
      · exact h.successor hc.hasRule_mentioner hx
    · exact h.successor hn.2 ht

/-- Reductions keep the properties, if names of rules have that of successors. -/
theorem Over.reduce? {r : Reduction} (h : Over P Q rs) (hnames : ∀ n, rs.hasRule n → Q n)
    (hr : rs.reduce? = some r) : Over P Q r.result := by
  rcases reduces_of_reduce? hr with ⟨hc, -⟩ | ht | ⟨hc, -⟩
  · exact h.fuseAt hs hc
  · exact h.mergeAt (hnames _ ht.hasRule_kept)
  · exact h.inlineAt hs hc

theorem Over.optimize (h : Over P Q rs) (hnames : ∀ n, rs.hasRule n → Q n) :
    Over P Q rs.optimize.1 := by
  refine (optimize_invariant
    (motive := fun rs => (∀ n, rs.hasRule n → Q n) ∧ Over P Q rs) ?_ ⟨hnames, h⟩).2
  rintro rs r ⟨hnames, h⟩ hr
  exact ⟨fun n hn => hnames n (hasRule_of_reduces (reduces_of_reduce? hr) hn), h.reduce? hs hnames hr⟩

end Step

theorem over_assemble {names : Table String} {nodes : List Node} {edges : List Edge}
    (hnames : ∀ {id x}, names.get? id = some x → Q x) (hpattern : ∀ n ∈ nodes, P n.pattern) :
    Over P Q (assemble names nodes edges) := by
  constructor
  · intro x hx
    obtain ⟨n, hmem, heq⟩ := exists_patternOf_assemble hx
    rw [heq]
    exact hpattern n hmem
  · intro x t _ ht
    obtain ⟨e, -, -, htarget⟩ := mem_successors_assemble_iff.mp ht
    exact hnames htarget

/-- What nodes have and reductions keep, every compiled rule set has. -/
theorem over_compile {nodes : List Node} {edges : List Edge} {optimize : Bool} {c : Compilation}
    (hs : Stable P Q) (hids : (nodes.map Node.id).Nodup)
    (h : (compile optimize nodes edges).result = .ok c) (hpattern : ∀ n ∈ nodes, P n.pattern)
    (hempty : Q "") : Over P Q c.ruleSet := by
  obtain ⟨-, rs, hrs, rfl⟩ := compile_eq_ok_iff.mp h
  have hid := identified_of_synthesize hids hrs
  obtain ⟨names, hnames, -, rfl⟩ := synthesize_eq_ok_iff.mp hrs
  have hn := naming_of_assignNames hids hnames
  -- successors are the end and names of nodes
  have hname : ∀ {id x}, names.get? id = some x → Q x := by
    intro id x hx
    by_cases hxe : x = ""
    · rw [hxe]
      exact hempty
    · exact hs.name (hn.isIdentifier_of_get? hx hxe)
  have hover : Over P Q (assemble names nodes edges) := over_assemble hname hpattern
  cases optimize
  · exact hover
  · exact hover.optimize hs fun n hn => hs.name (hid n hn)

/-! ### Visible successors -/

theorem isBlank_of_isSlugChar {c : Char} (h : Text.isSlugChar c) : Text.isBlank c = false := by
  -- small letters, digits and the underscore lie above the blanks of ASCII and below the others
  have hrange : 0x2F < c.toNat ∧ c.toNat < 0x7B := by
    simp only [Text.isSlugChar, Name.isLower_iff, Char.isDigit, Bool.or_eq_true, Bool.and_eq_true,
      decide_eq_true_eq, beq_iff_eq, ge_iff_le, UInt32.le_iff_toNat_le] at h
    rcases h with (⟨hlow, hhigh⟩ | ⟨hlow, hhigh⟩) | rfl
    · exact ⟨Nat.lt_of_lt_of_le (by decide) hlow, Nat.lt_of_le_of_lt hhigh (by decide)⟩
    · exact ⟨Nat.lt_of_lt_of_le (by decide) hlow, Nat.lt_of_le_of_lt hhigh (by decide)⟩
    · decide
  simp [Text.isBlank]
  omega

/-- All successors can be seen in print. -/
theorem stable_isVisible : Stable (fun _ => True) IsVisible where
  join := fun _ _ => trivial
  fragment := by
    intro p _
    -- a fragment starts with a quote, a bracket or a parenthesis
    obtain ⟨c, rest, hlist, hc⟩ := Pattern.head_fragment p
    refine .inr ⟨c, by rw [hlist]; exact List.mem_cons_self, ?_⟩
    rcases hc with rfl | rfl | rfl <;> decide
  name := by
    intro n hn
    rcases hlist : n.toList with - | ⟨c, rest⟩
    · exact absurd (String.toList_inj.mp hlist) hn.1
    · have hmem : c ∈ n.toList := by rw [hlist]; exact List.mem_cons_self
      exact .inr ⟨c, hmem, isBlank_of_isSlugChar (hn.2 c hmem)⟩

/-! ### Characters that are missing -/

section Lacks

variable {c : Char}

theorem lacks_renderAlternatives (hc : c ∉ marks) {targets : List String}
    (h : ∀ t ∈ targets, Lacks c t) : Lacks c (renderAlternatives targets) := by
  set named := targets.filter fun t => t != "" with hnamed
  have hall : ∀ t ∈ named, Lacks c t := fun t ht => h t (List.mem_of_mem_filter ht)
  simp only [RuleSet.renderAlternatives, ← hnamed]
  have hoptional : ∀ {joined : String}, Lacks c joined →
      Lacks c (if named.isEmpty || named.length == targets.length then joined
        else joined ++ "?") := by
    intro joined hjoined
    split
    · exact hjoined
    · exact hjoined.append (lacks_of_all hc (by decide))
  rcases hcase : named with - | ⟨a, - | ⟨b, rest⟩⟩
  · rw [hcase] at hoptional
    exact hoptional (lacks_of_all hc (by decide))
  · rw [hcase] at hoptional hall
    exact hoptional (hall a List.mem_cons_self)
  · rw [hcase] at hoptional hall
    refine hoptional (.append (.append ?_ (.intercalate ?_ hall)) ?_)
    all_goals exact lacks_of_all hc (by decide)

theorem Over.lacks_body (hc : c ∉ marks) (h : Over (Lacks c) (Lacks c) rs) {n : String}
    (hn : rs.hasRule n) : Lacks c (rs.body n) := by
  have halternatives : Lacks c (renderAlternatives (rs.successors n)) :=
    lacks_renderAlternatives hc fun t ht => h.successor hn ht
  exact (((h.pattern hn).append (lacks_of_all hc (by decide))).append halternatives).strip

/-- Reductions write no characters but those of patterns and names, and marks. -/
theorem stable_lacks (hc : c ∉ marks) (hslug : Text.isSlugChar c = false) :
    Stable (Lacks c) (Lacks c) where
  join := fun hp hq => ((hp.append (lacks_of_all hc (by decide))).append hq).strip
  fragment := by
    intro p hp
    unfold Pattern.fragment
    split
    · exact hp
    · exact .append (.append (lacks_of_all hc (by decide)) hp) (lacks_of_all hc (by decide))
  name := fun hn => hn.not_mem hslug

end Lacks

/-! ### Unbroken lines -/

/-- A text without line feeds. -/
def IsUnbroken (s : String) : Prop := '\n' ∉ s.toList

instance (s : String) : Decidable (IsUnbroken s) := inferInstanceAs (Decidable ('\n' ∉ s.toList))

theorem stable_isUnbroken : Stable IsUnbroken IsUnbroken := stable_lacks (by decide) (by decide)

theorem Over.isUnbroken_body (h : Over IsUnbroken IsUnbroken rs) {n : String}
    (hn : rs.hasRule n) : IsUnbroken (rs.body n) :=
  Over.lacks_body (by decide) h hn

end RuleSet

/-! ### Patterns of nodes -/

open RuleSet

/-- Only sets of characters can have blanks at their ends. -/
theorem Node.isStripped_pattern {n : Node} (h : n.kind ≠ .charSet) :
    Text.IsStripped n.pattern := by
  rcases hkind : n.kind with - | - | - | - | - | - | - | - | - | -
  case literal =>
    rw [Node.pattern, hkind]
    exact Text.isStripped_of_toList (Literal.toList_quote _) (by decide) (by decide)
  case charSet => exact absurd hkind h
  all_goals
    simp only [Node.pattern, hkind, Text.isStripped_iff]
    decide +kernel

/-- Line feeds, carriage returns and tabs are escaped, and no escape has one. -/
theorem not_mem_escapeChars {c : Char} (hc : c ∈ ['\n', '\r', '\t']) (cs : List Char) :
    c ∉ Literal.escapeChars cs := by
  intro hmem
  obtain ⟨d, -, hd⟩ := List.mem_flatMap.mp hmem
  simp only [List.mem_cons, List.not_mem_nil, or_false] at hc
  rcases hletter : Literal.escapeLetter? d with - | l
  · rw [Literal.escapeChar, hletter, List.mem_singleton] at hd
    subst hd
    rcases hc with rfl | rfl | rfl <;> cases hletter
  · rw [Literal.escapeChar, hletter] at hd
    have hl : c = '\\' ∨ c = l := by simpa using hd
    unfold Literal.escapeLetter? at hletter
    split at hletter <;> cases hletter <;> rcases hc with rfl | rfl | rfl <;> simp at hl

/-- Only sets of characters can have line feeds. -/
theorem Node.isUnbroken_pattern {n : Node} (h : n.kind ≠ .charSet) : IsUnbroken n.pattern := by
  rcases hkind : n.kind with - | - | - | - | - | - | - | - | - | -
  case literal =>
    rw [Node.pattern, hkind, IsUnbroken, Literal.toList_quote]
    simpa using not_mem_escapeChars List.mem_cons_self _
  case charSet => exact absurd hkind h
  all_goals
    simp only [Node.pattern, hkind]
    decide

/-! ### References -/

section References

variable {nodes : List Node} {edges : List Edge} {optimize : Bool} {c : Compilation} {t : String}
  (hids : (nodes.map Node.id).Nodup) (h : (compile optimize nodes edges).result = .ok c)
include hids h

theorem body_compile_eq_empty_iff (hrule : c.ruleSet.hasRule t) :
    c.ruleSet.body t = "" ↔ c.ruleSet.Hollow t := by
  have hover := over_compile stable_isVisible hids h (fun _ _ => trivial) (.inl rfl)
  exact body_eq_empty_iff fun s hs => hover.successor hrule hs

/-- Compiled rules that are not hollow are defined. -/
theorem defines_of_compile (hrule : c.ruleSet.hasRule t) (hsolid : ¬ c.ruleSet.Hollow t) :
    Defines c.grammar t := by
  rw [← body_compile_eq_empty_iff hids h hrule] at hsolid
  rw [grammar_of_compile h]
  exact defines_of_body (identified_of_compile hids h t hrule) hrule hsolid

/-- If no pattern has a line feed, compiled rules that are defined are not
hollow, apart from the root. -/
theorem not_hollow_of_defines (hunbroken : ∀ m ∈ nodes, IsUnbroken m.pattern)
    (hrule : c.ruleSet.hasRule t) (ht : Defines c.grammar t) :
    t = Name.root ∨ ¬ c.ruleSet.Hollow t := by
  have hover := over_compile stable_isUnbroken hids h hunbroken (by decide)
  have hid := identified_of_compile hids h
  rw [grammar_of_compile h] at ht
  rw [← body_compile_eq_empty_iff hids h hrule]
  exact body_ne_empty_of_defines hid (fun m hm => hover.isUnbroken_body hm) (hid t hrule) ht

end References

/-- A rule that is mentioned is defined, unless it is hollow; and hollow rules
other than the root are not, if no pattern has a line feed. -/
theorem defines_compile {nodes : List Node} {edges : List Edge} {optimize : Bool}
    {c : Compilation} (hids : (nodes.map Node.id).Nodup)
    (h : (compile optimize nodes edges).result = .ok c) {n t : String}
    (hn : Defines c.grammar n) (ht : t ∈ c.ruleSet.successors n) (hrule : c.ruleSet.hasRule t) :
    (t = Name.root ∨ ¬ c.ruleSet.Hollow t → Defines c.grammar t) ∧
      ((∀ m ∈ nodes, IsUnbroken m.pattern) → Defines c.grammar t →
        t = Name.root ∨ ¬ c.ruleSet.Hollow t) := by
  constructor
  · rintro (rfl | hsolid)
    · rw [grammar_of_compile h] at hn ⊢
      exact defines_root hn
    · exact defines_of_compile hids h hrule hsolid
  · intro hunbroken hdefines
    exact not_hollow_of_defines hids h hunbroken hrule hdefines

/-- A letter that may be left out, in front of a router. -/
def routedNodes : List Node := [
  { id := "s", kind := .start },
  { id := "r", kind := .router },
  { id := "a", kind := .letter },
  { id := "e", kind := .finish }]

/-- The edges of `routedNodes`. -/
def routedEdges : List Edge := [
  { source := "s", target := "r" },
  { source := "s", target := "a" },
  { source := "a", target := "r" },
  { source := "r", target := "e" }]

/-- Of the two rules behind the root, the letter is defined and the router is
not. -/
theorem defines_compile_routed :
    (routedNodes.map Node.id).Nodup ∧ (∀ m ∈ routedNodes, IsUnbroken m.pattern) ∧
      ∃ c, (compile false routedNodes routedEdges).result = .ok c ∧ Defines c.grammar "root" ∧
        c.ruleSet.successors "root" = ["_rule1", "_rule2"] ∧ c.ruleSet.hasRule "_rule1" ∧
        c.ruleSet.hasRule "_rule2" ∧ ¬ Defines c.grammar "_rule1" ∧
        Defines c.grammar "_rule2" := by
  have hids : (routedNodes.map Node.id).Nodup := by decide
  have hunbroken : ∀ m ∈ routedNodes, IsUnbroken m.pattern := by decide
  have hcompile : ∃ c, (compile false routedNodes routedEdges).result = .ok c ∧
      decide (c.ruleSet.successors "root" = ["_rule1", "_rule2"] ∧ c.ruleSet.hasRule "root" ∧
        c.ruleSet.hasRule "_rule1" ∧ c.ruleSet.hasRule "_rule2" ∧ ¬ c.ruleSet.Hollow "root" ∧
        c.ruleSet.Hollow "_rule1" ∧ ¬ c.ruleSet.Hollow "_rule2") :=
    Fault.exists_ok_of_any (by decide +kernel)
  obtain ⟨c, hc, hfacts⟩ := hcompile
  obtain ⟨hsuccessors, hstart, hrouter, hletter, hroot, hhollow, hsolid⟩ :=
    of_decide_eq_true hfacts
  have hdefined := defines_of_compile hids hc hstart hroot
  have hr := defines_compile hids hc hdefined (t := "_rule1") (by simp [hsuccessors]) hrouter
  have ha := defines_compile hids hc hdefined (t := "_rule2") (by simp [hsuccessors]) hletter
  refine ⟨hids, hunbroken, c, hc, hdefined, hsuccessors, hrouter, hletter, ?_, ?_⟩
  · intro hdefines
    rcases hr.2 hunbroken hdefines with h | h
    · exact absurd h (by decide)
    · exact h hhollow
  · exact ha.1 (.inr hsolid)

/-- The root mentions the router, which is hollow and not defined, whether or not
the rules are reduced. -/
theorem router_not_defined :
    (routedNodes.map Node.id).Nodup ∧
      ∀ optimize, ∃ c, (compile optimize routedNodes routedEdges).result = .ok c ∧
        Defines c.grammar "root" ∧ "_rule1" ∈ c.ruleSet.successors "root" ∧
        c.ruleSet.hasRule "_rule1" ∧ ¬ Defines c.grammar "_rule1" := by
  have hids : (routedNodes.map Node.id).Nodup := by decide
  refine ⟨hids, fun optimize => ?_⟩
  have hcompile : ∃ c, (compile optimize routedNodes routedEdges).result = .ok c ∧
      decide ("_rule1" ∈ c.ruleSet.successors "root" ∧ c.ruleSet.hasRule "root" ∧
        c.ruleSet.hasRule "_rule1" ∧ ¬ c.ruleSet.Hollow "root" ∧
        c.ruleSet.Hollow "_rule1") := by
    cases optimize
    · exact Fault.exists_ok_of_any (by decide +kernel)
    · exact Fault.exists_ok_of_any (by decide +kernel)
  obtain ⟨c, hc, hfacts⟩ := hcompile
  obtain ⟨hmentioned, hstart, hrouter, hroot, hhollow⟩ := of_decide_eq_true hfacts
  refine ⟨c, hc, defines_of_compile hids hc hstart hroot, hmentioned, hrouter, ?_⟩
  intro hdefines
  rcases not_hollow_of_defines hids hc (by decide) hrouter hdefines with h | h
  · exact absurd h (by decide)
  · exact h hhollow

end GrammarDiagram
