/-
GrammarDiagram/Proofs/ReadBack.lean

Grammars read back as the rule sets that they were written from.

The tree of a rule is what its pattern is read as, followed by the choice between
its successors: a name stands for itself, another text for what it is read as,
and the choice may be left out if the end is among the successors.  Every pattern
and every successor of a compiled rule set can be read by itself, since nodes give
such patterns and reductions keep this (`stable_isReadable`).  So the body of a
rule is read as the tree of the rule (`exists_tree?`), and the text of a grammar
as the trees of all rules that have one; if there is none, the text is empty
(`readGrammar_compile`).
-/
import GrammarDiagram.Proofs.Closure
import GrammarDiagram.Proofs.Reader

namespace GrammarDiagram

open Gbnf

/-! ### Trees of rules -/

namespace Gbnf

/-- The items that a text is read as if there are no alternatives. -/
def sequence? (s : String) : Option (List Item) :=
  match parse s with
  | some [items] => some items
  | _ => none

/-- The item that a text is read as if there is one. -/
def item? (s : String) : Option Item :=
  match parse s with
  | some [[item]] => some item
  | _ => none

theorem Reads.sequence?_eq {s : String} {items : List Item} (h : Reads s items) :
    sequence? s = some items := by
  rw [sequence?, h.parse_eq]

theorem Reads.item?_eq {s : String} {item : Item} (h : Reads s [item]) :
    item? s = some item := by
  rw [item?, h.parse_eq]

theorem Reads.exists_cons {s : String} {item : Item} {items : List Item}
    (h : Reads s (item :: items)) : ∃ items, Reads s items ∧ (items = [] → s = "") :=
  ⟨_, h, fun hnil => absurd hnil (List.cons_ne_nil _ _)⟩

/-- The choice between items: nothing if there are none, an item if it is the
only one, and a group otherwise. -/
def choice (optional : Bool) (items : List Item) : List Item :=
  let mark := fun item => if optional then .marked item .optional else item
  match items with
  | [] => []
  | [item] => [mark item]
  | items => [mark (.group (items.map fun item => [item]))]

theorem choice_eq_nil_iff {optional : Bool} {items : List Item} :
    choice optional items = [] ↔ items = [] := by
  rcases items with - | ⟨item, - | ⟨item', items⟩⟩ <;> simp [choice]

end Gbnf

namespace RuleSet

variable {rs : RuleSet}

/-- The item that a successor stands for: a rule for its name, another text for
what it is read as. -/
def successorItem? (rs : RuleSet) (t : String) : Option Item :=
  if rs.hasRule t then some (.name t) else item? t

/-- The tree of a rule: its pattern, and the choice between its successors. -/
def tree? (rs : RuleSet) (n : String) : Option (List Item) := do
  let own ← sequence? (rs.patternOf n)
  let items ← ((rs.successors n).filter fun t => t != "").mapM rs.successorItem?
  return own ++ choice ((rs.successors n).contains "") items

/-- The rule has a tree, and there are items in it. -/
def HasTree (rs : RuleSet) (n : String) (items : List Item) : Prop :=
  rs.hasRule n ∧ items ≠ [] ∧ rs.tree? n = some items

theorem HasTree.unique {n : String} {items items' : List Item} (h : rs.HasTree n items)
    (h' : rs.HasTree n items') : items = items' :=
  Option.some.inj (h.2.2.symm.trans h'.2.2)

/-! ### Readable rule sets -/

/-- A pattern that can be read. -/
structure IsReadable (s : String) : Prop where
  stripped : Text.IsStripped s
  unbroken : IsUnbroken s
  reads : ∃ items, Reads s items ∧ (items = [] → s = "")

/-- A successor that can be read: the end, or one item without a mark. -/
structure IsSingle (s : String) : Prop where
  stripped : Text.IsStripped s
  unbroken : IsUnbroken s
  reads : s ≠ "" → ∃ item, item.isMarked = false ∧ Reads s [item]

theorem isReadable_empty : IsReadable "" :=
  ⟨by simp [Text.IsStripped, Text.BareEnds], by decide, [], .empty, fun _ => rfl⟩

theorem isSingle_empty : IsSingle "" :=
  ⟨isReadable_empty.stripped, by decide, fun h => absurd rfl h⟩

theorem isReadable_spaced {p q : String} (hp : IsReadable p) (hq : IsReadable q) :
    IsReadable (Text.strip (p ++ " " ++ q)) := by
  obtain ⟨items, hitems, hempty⟩ := hp.reads
  obtain ⟨more, hmore, hempty'⟩ := hq.reads
  refine ⟨Text.isStripped_strip _, stable_isUnbroken.join hp.unbroken hq.unbroken,
    items ++ more, ?_, fun h => ?_⟩
  · rw [Text.strip_append hp.stripped hq.stripped]
    exact hitems.spaced hmore
  · obtain ⟨h, h'⟩ := List.append_eq_nil_iff.mp h
    rw [hempty h, hempty' h']
    decide

theorem isSingle_fragment {p : String} (hp : IsReadable p) : IsSingle (Pattern.fragment p) := by
  have hunbroken := stable_isUnbroken.fragment hp.unbroken
  unfold Pattern.fragment at hunbroken ⊢
  split at hunbroken
  · rename_i hatom
    rw [if_pos hatom]
    exact ⟨hp.stripped, hunbroken, fun _ => exists_reads_of_isAtom hatom hp.unbroken⟩
  · rename_i hatom
    rw [if_neg hatom]
    obtain ⟨items, hitems, -⟩ := hp.reads
    have hgroup := Reads.group (.cons hitems .nil) (List.cons_ne_nil p [])
    rw [String.intercalate_singleton] at hgroup
    have hlist : ("(" ++ p ++ ")").toList = '(' :: (p.toList ++ [')']) := by simp
    exact ⟨Text.isStripped_of_toList hlist (by decide) (by decide), hunbroken,
      fun _ => ⟨_, rfl, hgroup⟩⟩

theorem isSingle_name {n : String} (hn : Name.IsIdentifier n) : IsSingle n := by
  refine ⟨⟨fun c hc => ?_, fun c hc => ?_⟩, stable_isUnbroken.name hn, fun _ => ⟨_, rfl, .name hn⟩⟩
  · exact isBlank_of_isSlugChar (hn.2 c (List.mem_of_mem_head? hc))
  · exact isBlank_of_isSlugChar (hn.2 c (List.mem_of_mem_getLast? hc))

/-- Reductions keep patterns and successors readable. -/
theorem stable_isReadable : Stable IsReadable IsSingle where
  join := isReadable_spaced
  fragment := isSingle_fragment
  name := isSingle_name

/-! ### Bodies -/

/-- A text with or without a mark behind it. -/
theorem reads_marked {s : String} {item : Item} (h : Reads s [item])
    (hitem : item.isMarked = false) (hs : Text.IsStripped s) (optional : Bool) :
    Reads (if optional then s ++ "?" else s)
        [if optional then .marked item .optional else item] ∧
      Text.IsStripped (if optional then s ++ "?" else s) := by
  cases optional with
  | false => exact ⟨h, hs⟩
  | true =>
    refine ⟨h.mark hitem, ?_⟩
    rcases hlist : s.toList with - | ⟨c, cs⟩
    · -- an empty text is not read as an item
      rw [String.toList_eq_nil_iff.mp hlist] at h
      cases h.unique .empty
    · have hmarked : (s ++ "?").toList = c :: (cs ++ ['?']) := by simp [hlist]
      refine Text.isStripped_of_toList hmarked (hs.1 c ?_) (by decide)
      rw [hlist]
      rfl

/-- Alternatives are read as the choice between them. -/
theorem reads_renderAlternatives {targets : List String} {items : List Item}
    (h : List.Forall₂ (fun t item => item.isMarked = false ∧ Reads t [item] ∧ Text.IsStripped t)
      (targets.filter fun t => t != "") items) :
    Reads (renderAlternatives targets) (choice (targets.contains "") items) ∧
      Text.IsStripped (renderAlternatives targets) := by
  -- all of them are named unless the end is among them
  have hall : ((targets.filter fun t => t != "").length == targets.length) =
      !targets.contains "" := by
    rw [Bool.eq_iff_iff, beq_iff_eq, List.length_filter_eq_length_iff]
    simp only [bne_iff_ne, Bool.not_eq_true', List.contains_eq_mem, decide_eq_false_iff_not]
    exact ⟨fun hne hmem => hne "" hmem rfl, fun hnot t ht hte => hnot (hte ▸ ht)⟩
  simp only [renderAlternatives, hall]
  generalize targets.contains "" = optional
  have hif : ∀ {s : String}, (if !optional then s else s ++ "?") =
      if optional then s ++ "?" else s := by
    intro s
    cases optional <;> rfl
  generalize (targets.filter fun t => t != "") = named at h ⊢
  have hreads := h.imp fun _ _ h => h.2.1
  rcases h with - | @⟨t, item, ts, items, ht, hts⟩
  · exact ⟨.empty, isReadable_empty.stripped⟩
  · simp only [List.isEmpty_cons, Bool.false_or, hif]
    rcases hts with - | @⟨u, item', ts, items, hu, hts⟩
    · exact reads_marked ht.2.1 ht.1 ht.2.2 optional
    · -- several are put in parentheses
      refine reads_marked ?_ rfl ?_ optional
      · refine Reads.group ?_ (List.cons_ne_nil _ _)
        rwa [List.forall₂_map_right_iff]
      · generalize String.intercalate " | " _ = joined
        have hlist : ("(" ++ joined ++ ")").toList = '(' :: (joined.toList ++ [')']) := by simp
        exact Text.isStripped_of_toList hlist (by decide) (by decide)

theorem exists_mapM_eq_some {α β : Type} {f : α → Option β} {R : α → β → Prop} {l : List α}
    (h : ∀ a ∈ l, ∃ b, f a = some b ∧ R a b) :
    ∃ bs, l.mapM f = some bs ∧ List.Forall₂ R l bs := by
  induction l with
  | nil => exact ⟨[], rfl, .nil⟩
  | cons a l ih =>
    obtain ⟨⟨b, hb, hR⟩, hl⟩ := List.forall_mem_cons.mp h
    obtain ⟨bs, hbs, hRs⟩ := ih hl
    exact ⟨b :: bs, by rw [List.mapM_cons, hb, hbs]; rfl, .cons hR hRs⟩

/-- A rule set whose patterns and successors can be read. -/
structure Readable (rs : RuleSet) : Prop where
  identified : rs.Identified
  parts : Over IsReadable IsSingle rs

namespace Readable

theorem isUnbroken_body (h : rs.Readable) (n : String) (hn : rs.hasRule n) :
    IsUnbroken (rs.body n) := by
  have hunbroken : Over IsUnbroken IsUnbroken rs :=
    ⟨fun hn => (h.parts.pattern hn).unbroken, fun hn ht => (h.parts.successor hn ht).unbroken⟩
  exact hunbroken.isUnbroken_body hn

/-- Every rule has a tree, which its body is read as. -/
theorem exists_tree? (h : rs.Readable) {n : String} (hn : rs.hasRule n) :
    ∃ items, rs.tree? n = some items ∧ Reads (rs.body n) items ∧ (rs.body n = "" ↔ items = []) := by
  obtain ⟨own, hown, hempty⟩ := (h.parts.pattern hn).reads
  have hsuccessor : ∀ t ∈ (rs.successors n).filter fun t => t != "",
      ∃ item, rs.successorItem? t = some item ∧
        (item.isMarked = false ∧ Reads t [item] ∧ Text.IsStripped t) := by
    intro t ht
    obtain ⟨ht, hte⟩ := List.mem_filter.mp ht
    have hsingle := h.parts.successor hn ht
    rw [successorItem?]
    by_cases hrule : rs.hasRule t
    · exact ⟨.name t, if_pos hrule, rfl, .name (h.identified t hrule), hsingle.stripped⟩
    · obtain ⟨item, hitem, hreads⟩ := hsingle.reads (by simpa using hte)
      exact ⟨item, by rw [if_neg hrule, hreads.item?_eq], hitem, hreads, hsingle.stripped⟩
  obtain ⟨items, hitems, hall⟩ := exists_mapM_eq_some hsuccessor
  obtain ⟨hreads, hstripped⟩ := reads_renderAlternatives hall
  have hbody : Reads (rs.body n) (own ++ choice ((rs.successors n).contains "") items) := by
    rw [body, Text.strip_append (h.parts.pattern hn).stripped hstripped]
    exact hown.spaced hreads
  refine ⟨_, ?_, hbody, fun hnone => ?_, fun hnone => ?_⟩
  · rw [tree?, hown.sequence?_eq, hitems]
    rfl
  · rw [hnone] at hbody
    exact hbody.unique .empty
  · obtain ⟨hownnil, hchoice⟩ := List.append_eq_nil_iff.mp hnone
    rw [choice_eq_nil_iff.mp hchoice, List.forall₂_nil_right_iff] at hall
    have halternatives : renderAlternatives (rs.successors n) = "" := by
      simp only [renderAlternatives, hall]
      rfl
    rw [body, hempty hownnil, halternatives]
    decide

/-- The rules with items in their trees are those with a body. -/
theorem exists_hasTree_iff (h : rs.Readable) {n : String} :
    (∃ items, rs.HasTree n items) ↔ rs.hasRule n ∧ rs.body n ≠ "" := by
  constructor
  · rintro ⟨items, hn, hne, hitems⟩
    obtain ⟨items', hitems', -, hiff⟩ := h.exists_tree? hn
    rw [hitems] at hitems'
    cases hitems'
    exact ⟨hn, mt hiff.mp hne⟩
  · rintro ⟨hn, hbody⟩
    obtain ⟨items, hitems, -, hiff⟩ := h.exists_tree? hn
    exact ⟨items, hn, mt hiff.mpr hbody, hitems⟩

end Readable

/-! ### Lines -/

/-- The lines of a grammar are read as what their bodies are read as. -/
theorem mapM_readLine {es : List (String × String × List Item)}
    (h : ∀ e ∈ es, Name.IsIdentifier e.1 ∧ Reads e.2.1 e.2.2) :
    (es.map fun e => (line e.1 e.2.1).toList).mapM readLine =
      some (es.map fun e => (e.1, [e.2.2])) := by
  induction es with
  | nil => rfl
  | cons e es ih =>
    obtain ⟨⟨hname, hreads⟩, hes⟩ := List.forall_mem_cons.mp h
    have hline : (line e.1 e.2.1).toList =
        e.1.toList ++ ' ' :: ':' :: ':' :: '=' :: ' ' :: e.2.1.toList := by simp [line]
    rw [List.map_cons, List.mapM_cons, hline, readLine_line hname hreads, ih hes]
    rfl

/-- A text with lines is read line by line. -/
theorem readGrammar_render_eq (hid : rs.Identified)
    (hbody : ∀ n, rs.hasRule n → IsUnbroken (rs.body n)) (hne : rs.lines ≠ []) :
    readGrammar rs.render = (rs.lines.map String.toList).mapM readLine := by
  rw [readGrammar, splitOn_render (not_mem_of_mem_lines hid hbody) hne]

namespace Readable

/-- What is written for the root is read as its tree, or as an empty literal if
there are other trees only. -/
theorem reads_root (h : rs.Readable) {b : String}
    (hb : b = "\"\"" ∧ (rs.hasRule Name.root → rs.body Name.root = "") ∧
        (∃ n, rs.hasRule n ∧ rs.body n ≠ "") ∨
      rs.hasRule Name.root ∧ rs.body Name.root ≠ "" ∧ b = rs.body Name.root) :
    ∃ items, Reads b items ∧
      ((∃ n items, rs.HasTree n items) ∧ (∀ items, ¬ rs.HasTree Name.root items) ∧
          items = [.literal ""] ∨
        rs.HasTree Name.root items) := by
  rcases hb with ⟨rfl, hempty, n, hn⟩ | ⟨hrule, hbody, rfl⟩
  · refine ⟨_, .quote "", .inl ⟨⟨n, h.exists_hasTree_iff.mpr hn⟩, fun items hitems => ?_, rfl⟩⟩
    obtain ⟨hrule, hbody⟩ := h.exists_hasTree_iff.mp ⟨items, hitems⟩
    exact hbody (hempty hrule)
  · obtain ⟨items, hitems, hreads, hiff⟩ := h.exists_tree? hrule
    exact ⟨items, hreads, .inr ⟨hrule, mt hiff.mpr hbody, hitems⟩⟩

/-- The text of a grammar is read as what is written for the root and the trees
of the other rules. -/
theorem readGrammar_eq (h : rs.Readable) {b : String} {items : List Item}
    (hlines : rs.lines = line Name.root b :: rs.ordinaryLines) (hb : Reads b items) :
    readGrammar rs.render = some ((Name.root, [items]) ::
      rs.bodiedNames.map fun n => (n, [(rs.tree? n).getD []])) := by
  let es : List (String × String × List Item) :=
    (Name.root, b, items) :: rs.bodiedNames.map fun n => (n, rs.body n, (rs.tree? n).getD [])
  have hes : rs.lines.map String.toList = es.map fun e => (line e.1 e.2.1).toList := by
    simp [hlines, es, ordinaryLines_eq]
  have hall : ∀ e ∈ es, Name.IsIdentifier e.1 ∧ Reads e.2.1 e.2.2 := by
    refine List.forall_mem_cons.mpr ⟨⟨Name.isIdentifier_root, hb⟩, List.forall_mem_map.mpr ?_⟩
    intro n hn
    have hrule := (mem_bodiedNames_iff.mp hn).1
    obtain ⟨items, hitems, hreads, -⟩ := h.exists_tree? hrule
    refine ⟨h.identified n hrule, ?_⟩
    rw [hitems]
    exact hreads
  rw [readGrammar_render_eq h.identified h.isUnbroken_body (by simp [hlines]), hes,
    mapM_readLine hall]
  simp [es]

/-- The text of a readable rule set is empty if no rule has items in its tree, and
is read as these trees otherwise. -/
theorem render_eq_empty_or_exists_readGrammar (h : rs.Readable) :
    rs.render = "" ∧ (∀ n items, ¬ rs.HasTree n items) ∨
      ∃ rules, readGrammar rs.render = some rules ∧ (rules.map Prod.fst).Nodup ∧
        ∀ n alternatives, (n, alternatives) ∈ rules ↔
          (∃ items, rs.HasTree n items ∧ alternatives = [items]) ∨
          (n = Name.root ∧ (∃ m items, rs.HasTree m items) ∧
            (∀ items, ¬ rs.HasTree Name.root items) ∧ alternatives = [[.literal ""]]) := by
  rcases rs.lines_cases with ⟨hnil, hnone⟩ | ⟨b, hlines, hb⟩
  · refine .inl ⟨by rw [render, hnil]; rfl, fun n items hitems => ?_⟩
    obtain ⟨hrule, hbody⟩ := h.exists_hasTree_iff.mp ⟨items, hitems⟩
    exact hbody (hnone n hrule)
  · obtain ⟨items, hreads, hroot⟩ := h.reads_root hb
    refine .inr ⟨_, h.readGrammar_eq hlines hreads, ?_, fun n alternatives => ?_⟩
    · simp only [List.map_cons, List.map_map, Function.comp_def, List.map_id']
      exact List.nodup_cons.mpr
        ⟨fun hmem => (mem_bodiedNames_iff.mp hmem).2.1 rfl, rs.nodup_bodiedNames⟩
    · rw [List.mem_cons, Prod.mk.injEq, List.mem_map]
      constructor
      · rintro (⟨rfl, rfl⟩ | ⟨m, hm, heq⟩)
        · rcases hroot with ⟨hany, hnot, rfl⟩ | hitems
          · exact .inr ⟨rfl, hany, hnot, rfl⟩
          · exact .inl ⟨items, hitems, rfl⟩
        · cases heq
          obtain ⟨hrule, -, hbody⟩ := mem_bodiedNames_iff.mp hm
          obtain ⟨items, hitems⟩ := h.exists_hasTree_iff.mpr ⟨hrule, hbody⟩
          exact .inl ⟨items, hitems, by rw [hitems.2.2, Option.getD_some]⟩
      · rintro (⟨items', hitems', rfl⟩ | ⟨rfl, -, hnot, rfl⟩)
        · by_cases hn : n = Name.root
          · subst hn
            -- the root has a tree, so no empty literal stands for it
            rcases hroot with ⟨-, hnot, -⟩ | hitems
            · exact absurd hitems' (hnot _)
            · exact .inl ⟨rfl, by rw [hitems'.unique hitems]⟩
          · obtain ⟨hrule, hbody⟩ := h.exists_hasTree_iff.mp ⟨items', hitems'⟩
            refine .inr ⟨n, mem_bodiedNames_iff.mpr ⟨hrule, hn, hbody⟩, ?_⟩
            rw [hitems'.2.2, Option.getD_some]
        · rcases hroot with ⟨-, -, rfl⟩ | hitems
          · exact .inl ⟨rfl, rfl⟩
          · exact absurd hitems (hnot _)

end Readable

end RuleSet

/-! ### Grammars -/

open RuleSet

/-- A bracket expression on one line, such as the empty one of a set without a
pattern. -/
def IsBracketExpression (s : String) : Prop :=
  IsUnbroken s ∧ ∃ cs, Enclosable ']' cs ∧ s.toList = '[' :: (cs ++ [']'])

theorem Node.isReadable_pattern {n : Node}
    (h : n.kind = .charSet → IsBracketExpression n.pattern) : IsReadable n.pattern := by
  by_cases hset : n.kind = .charSet
  · obtain ⟨hunbroken, cs, hcs, hlist⟩ := h hset
    exact ⟨Text.isStripped_of_toList hlist (by decide) (by decide), hunbroken,
      (Reads.set hcs hlist).exists_cons⟩
  · refine ⟨isStripped_pattern hset, isUnbroken_pattern hset, ?_⟩
    cases hkind : n.kind
    case charSet => exact absurd hkind hset
    case start | finish | router =>
      rw [Node.pattern, hkind]
      exact isReadable_empty.reads
    all_goals simp only [Node.pattern, hkind]
    case literal => exact (Reads.quote _).exists_cons
    case letter => exact Reads.exists_cons ⟨[.set "a-zA-Z"], by decide, .set _⟩
    case digit => exact Reads.exists_cons ⟨[.set "0-9"], by decide, .set _⟩
    case nonNewline => exact Reads.exists_cons ⟨[.set "^\\n"], by decide, .set _⟩
    case identifier =>
      exact Reads.exists_cons
        ⟨[.set "a-zA-Z_"] ++ ([.set "a-zA-Z0-9_"] ++ [.mark .repeated]), by decide,
          (Builds.set _).append ((Builds.set _).mark rfl _)⟩
    case duration =>
      have hunits : List.Forall₂ Builds
          (["s", "m", "h", "d", "w", "mo", "y"].map fun u => [.literal u])
          (["s", "m", "h", "d", "w", "mo", "y"].map fun u => [.literal u]) := by
        rw [List.forall₂_map_left_iff, List.forall₂_map_right_iff, List.forall₂_same]
        exact fun u _ => .literal u
      exact Reads.exists_cons ⟨_, by decide,
        (Builds.set "0-9").append (((Builds.set "0-9").mark rfl .optional).append
          (Builds.group hunits (by simp)))⟩

/-- If sets of characters are bracket expressions, the text of a compiled grammar
is read as its rules: every rule has a tree, and the lines are the rules with items
in their trees, each with its tree.  Where there are such rules but the root is
none of them, it has a line too, which is read as the empty literal; where there
are none, the text is empty. -/
theorem readGrammar_compile {nodes : List Node} {edges : List Edge} {optimize : Bool}
    {c : Compilation} (hids : (nodes.map Node.id).Nodup)
    (h : (compile optimize nodes edges).result = .ok c)
    (hsets : ∀ n ∈ nodes, n.kind = .charSet → IsBracketExpression n.pattern) :
    (∀ n, c.ruleSet.hasRule n → ∃ items, c.ruleSet.tree? n = some items) ∧
      (c.grammar = "" ∧ (∀ n items, ¬ c.ruleSet.HasTree n items) ∨
        ∃ rules, readGrammar c.grammar = some rules ∧ (rules.map Prod.fst).Nodup ∧
          ∀ n alternatives, (n, alternatives) ∈ rules ↔
            (∃ items, c.ruleSet.HasTree n items ∧ alternatives = [items]) ∨
            (n = Name.root ∧ (∃ m items, c.ruleSet.HasTree m items) ∧
              (∀ items, ¬ c.ruleSet.HasTree Name.root items) ∧
              alternatives = [[.literal ""]])) := by
  have hreadable : c.ruleSet.Readable :=
    ⟨identified_of_compile hids h, over_compile stable_isReadable hids h
      (fun n hn => n.isReadable_pattern (hsets n hn)) isSingle_empty⟩
  refine ⟨fun n hn => ?_, ?_⟩
  · obtain ⟨items, hitems, -⟩ := hreadable.exists_tree? hn
    exact ⟨items, hitems⟩
  · rw [grammar_of_compile h]
    exact hreadable.render_eq_empty_or_exists_readGrammar

/-- A text with quotes, a bar and a line feed, and a set with a bracket. -/
def quotedNodes : List Node := [
  { id := "s", kind := .start },
  { id := "a", kind := .literal, properties := [(.text "value", .text "say \"a|b\"\n")] },
  { id := "b", kind := .charSet, properties := [(.text "pattern", .text "[^\\]x]")] },
  { id := "c", kind := .letter },
  { id := "d", kind := .digit },
  { id := "e", kind := .finish }]

/-- The edges of `quotedNodes`. -/
def quotedEdges : List Edge := [
  { source := "s", target := "a" },
  { source := "s", target := "b" },
  { source := "s", target := "e" },
  { source := "a", target := "c" },
  { source := "b", target := "d" },
  { source := "c", target := "e" },
  { source := "c", target := "a" },
  { source := "d", target := "e" },
  { source := "b", target := "e" }]

/-- The rules of `quotedNodes` after all reductions. -/
def quotedRules : RuleSet where
  rules := .named [⟨"root", ""⟩, ⟨"_rule1", "\"say \\\"a|b\\\"\\n\" [a-zA-Z]"⟩,
    ⟨"_rule2", "[^\\]x]"⟩]
  adjacency := ⟨[("root", ["_rule1", "_rule2", ""]), ("_rule1", ["", "_rule1"]),
    ("_rule2", ["[0-9]", ""])], by decide⟩

/-- The letter is fused with the text, and the digit stands for itself behind the
set. -/
theorem readGrammar_compile_quoted :
    (quotedNodes.map Node.id).Nodup ∧
      (∀ n ∈ quotedNodes, n.kind = .charSet → IsBracketExpression n.pattern) ∧
      ∃ c rules, (compile true quotedNodes quotedEdges).result = .ok c ∧
        readGrammar c.grammar = some rules ∧
        ("root", [[.marked (.group [[.name "_rule1"], [.name "_rule2"]]) .optional]]) ∈ rules ∧
        ("_rule1", [[.literal "say \"a|b\"\n", .set "a-zA-Z",
          .marked (.name "_rule1") .optional]]) ∈ rules ∧
        ("_rule2", [[.set "^\\]x", .marked (.set "0-9") .optional]]) ∈ rules := by
  have hids : (quotedNodes.map Node.id).Nodup := by decide
  have hsets : ∀ n ∈ quotedNodes, n.kind = .charSet → IsBracketExpression n.pattern := by
    have hset : IsBracketExpression "[^\\]x]" :=
      ⟨by decide, "^\\]x".toList,
        .plain (by decide) (by decide) (.escaped (.plain (by decide) (by decide) .nil)), by decide⟩
    simp only [quotedNodes, List.forall_mem_cons]
    exact ⟨nofun, nofun, fun _ => hset, nofun, nofun, nofun, nofun⟩
  have hcompile : ∃ c, (compile true quotedNodes quotedEdges).result = .ok c ∧
      decide (c.ruleSet.rules.entries = quotedRules.rules.entries ∧
        c.ruleSet.adjacency.entries = quotedRules.adjacency.entries) :=
    Fault.exists_ok_of_any (by decide +kernel)
  obtain ⟨c, hc, hfacts⟩ := hcompile
  have hrs : c.ruleSet = quotedRules := by
    obtain ⟨hrules, hadjacency⟩ := of_decide_eq_true hfacts
    generalize c.ruleSet = rs at hrules hadjacency ⊢
    rcases rs with ⟨⟨rules, _⟩, ⟨adjacency, _⟩⟩
    cases hrules
    cases hadjacency
    rfl
  obtain ⟨-, ⟨-, hnone⟩ | ⟨rules, hrules, -, hiff⟩⟩ := readGrammar_compile hids hc hsets
  · rw [hrs] at hnone
    exact absurd ⟨by decide, List.cons_ne_nil _ _, rfl⟩ (hnone "_rule1" _)
  · rw [hrs] at hiff
    refine ⟨hids, hsets, c, rules, hc, hrules, ?_, ?_, ?_⟩
    · exact (hiff _ _).mpr (.inl ⟨_, ⟨by decide, List.cons_ne_nil _ _, rfl⟩, rfl⟩)
    · exact (hiff _ _).mpr (.inl ⟨_, ⟨by decide, List.cons_ne_nil _ _, rfl⟩, rfl⟩)
    · exact (hiff _ _).mpr (.inl ⟨_, ⟨by decide, List.cons_ne_nil _ _, rfl⟩, rfl⟩)

end GrammarDiagram
