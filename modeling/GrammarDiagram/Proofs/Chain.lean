/-
GrammarDiagram/Proofs/Chain.lean

Rules that stand one behind the other, from the root to the end of the sentence.

As long as two rules of a chain are left the second one can be fused with the
root.  So fusing is what happens next, though perhaps elsewhere in the chain,
and no rule is ever merged or inlined (`Chained.reduce?_cases`).  Where it
happens does not matter: the chain closes up again (`Chained.fuseAt`), and the
patterns along it, one behind the other, read the same (`Chained.joined_fuseAt`).
In the end the root is left with all of them (`Chained.optimize`), and the text
of the grammar is one line (`Chained.render_eq`).
-/
import GrammarDiagram.Proofs.Fixpoint
import GrammarDiagram.Proofs.Stripping

namespace GrammarDiagram

/-! ### Texts in a row -/

namespace Text

/-- Texts one behind the other, with a space between those that are not empty. -/
def joined (ps : List String) : String := ps.foldr spaced ""

theorem joined_cons (p : String) (ps : List String) :
    joined (p :: ps) = spaced p (joined ps) := rfl

theorem joined_append (ps qs : List String) :
    joined (ps ++ qs) = spaced (joined ps) (joined qs) := by
  induction ps with
  | nil => rfl
  | cons p rest ih => rw [List.cons_append, joined_cons, joined_cons, ih, spaced_assoc]

theorem joined_singleton (p : String) : joined [p] = p := by
  by_cases hp : p = ""
  · simp [joined, spaced, hp]
  · simp [joined, spaced, hp]

/-- Texts that are not empty give a text that is not empty. -/
theorem intercalate_eq_empty_iff {ps : List String} (hps : ∀ p ∈ ps, p ≠ "") :
    String.intercalate " " ps = "" ↔ ps = [] := by
  rcases ps with - | ⟨p, ps⟩
  · exact iff_of_true rfl rfl
  · have hp : p ≠ "" := hps p List.mem_cons_self
    rcases ps with - | ⟨q, ps⟩
    · simpa using hp
    · simp [String.intercalate_cons_cons, hp]

/-- The empty texts leave no trace. -/
theorem joined_eq_intercalate (ps : List String) :
    joined ps = String.intercalate " " (ps.filter fun p => p != "") := by
  induction ps with
  | nil => rfl
  | cons p rest ih =>
    rw [joined_cons, ih, spaced]
    by_cases hp : p = ""
    · simp [hp]
    · have hrest : ∀ q ∈ rest.filter fun q => q != "", q ≠ "" := by simp
      rw [if_neg hp, List.filter_cons_of_pos (by simpa using hp)]
      rcases hfilter : rest.filter fun q => q != "" with - | ⟨q, qs⟩
      · simp
      · have hne : String.intercalate " " (q :: qs) ≠ "" := by
          rw [Ne, intercalate_eq_empty_iff (hfilter ▸ hrest)]
          exact List.cons_ne_nil q qs
        rw [if_neg hne, String.intercalate_cons_cons]

end Text

namespace RuleSet

variable {rs : RuleSet} {names front back : List String} {x y : String}

/-! ### Chained rules -/

/-- `rs.Chained names`: these are the rules, the root in front; the next one is
all that follows a rule, and the end all that follows the last.  Patterns have no
blanks at their ends. -/
structure Chained (rs : RuleSet) (names : List String) : Prop where
  head : names.head? = some Name.root
  rules : rs.rules.keys.Perm names
  ne_empty : "" ∉ names
  links : names.map rs.successors = (names.tail ++ [""]).map fun t => [t]
  outside : ∀ x, x ∉ names → rs.successors x = []
  bare : ∀ x ∈ names, Text.IsStripped (rs.patternOf x)

namespace Chained

theorem nodup (h : rs.Chained names) : names.Nodup :=
  h.rules.nodup_iff.mp rs.rules.nodup_keys

theorem hasRule_iff (h : rs.Chained names) : rs.hasRule x ↔ x ∈ names := by
  rw [hasRule, Table.contains_iff_mem_keys, h.rules.mem_iff]

/-- The targets of a chain, cut where the targets of `x` and what follows begin. -/
theorem targets_split (front back : List String) (x : String) :
    (front ++ x :: back).tail ++ [""] = (front ++ [x]).tail ++ (back ++ [""]) := by
  rcases front with - | ⟨f, front⟩
  · rfl
  · simp

/-- What follows the rules before a place, and what follows the others. -/
theorem links_split (h : rs.Chained (front ++ x :: back)) :
    front.map rs.successors = (front ++ [x]).tail.map (fun t => [t]) ∧
      (x :: back).map rs.successors = (back ++ [""]).map fun t => [t] := by
  have hlinks := h.links
  rw [targets_split, List.map_append, List.map_append] at hlinks
  exact List.append_inj hlinks (by simp)

/-- The last rule leads to the end, and every other one to the next. -/
theorem successors_eq (h : rs.Chained (front ++ x :: back)) :
    rs.successors x = [back.head?.getD ""] := by
  have hlinks := h.links_split.2
  rcases back with - | ⟨z, back⟩
  · simpa using hlinks
  · exact (List.cons_eq_cons.mp hlinks).1

/-- No two rules have the same successors. -/
theorem nodup_successors (h : rs.Chained names) : (names.map rs.successors).Nodup := by
  rw [h.links]
  refine List.Nodup.map (fun a b hab => List.singleton_inj.mp hab) ?_
  refine List.nodup_append.mpr ⟨h.nodup.tail, List.nodup_singleton _, ?_⟩
  intro a ha b hb hab
  rw [List.mem_singleton.mp hb] at hab
  exact h.ne_empty (hab ▸ List.mem_of_mem_tail ha)

theorem soleMention (h : rs.Chained (front ++ x :: y :: back)) : rs.SoleMention y x := by
  have hx : rs.successors x = [y] := h.successors_eq
  have hnodup := h.nodup
  have hyx : y ≠ x := by
    rintro rfl
    simp [List.nodup_append] at hnodup
  refine ⟨h.hasRule_iff.mpr (by simp), h.hasRule_iff.mpr (by simp), ?_, hyx, by simp [hx], ?_⟩
  · -- the root stands in front, so it stands nowhere else
    rintro rfl
    have hhead := h.head
    rcases front with - | ⟨f, front⟩
    · exact hyx (Option.some.inj hhead).symm
    · obtain rfl : f = Name.root := Option.some.inj hhead
      simp at hnodup
  · intro n hn
    have hmem : n ∈ front ++ x :: y :: back := by
      by_contra hnot
      rw [h.outside n hnot] at hn
      cases hn
    obtain ⟨front', back', hsplit⟩ := List.append_of_mem hmem
    have hdiffer := h.nodup_successors
    rw [hsplit] at h
    have hsucc := h.successors_eq
    rw [hsucc, List.mem_singleton] at hn
    rw [← hn, ← hx] at hsucc
    exact List.inj_on_of_nodup_map hdiffer hmem (by simp) hsucc

/-- The rules apart from two neighbours are others. -/
theorem ne_of_mem (h : rs.Chained (front ++ x :: y :: back)) {n : String}
    (hn : n ∈ front ++ back) : n ≠ x ∧ n ≠ y := by
  have hnodup := h.nodup
  rw [List.nodup_middle, List.nodup_cons, List.nodup_middle, List.nodup_cons] at hnodup
  refine ⟨?_, ?_⟩
  · rintro rfl
    rw [List.mem_append] at hn
    exact hnodup.1 (List.mem_append.mpr (hn.imp_right (List.mem_cons_of_mem _)))
  · rintro rfl
    exact hnodup.2.1 hn

/-- What is changed for two neighbours only is the same along the rest of the
chain. -/
theorem map_eq {α : Type*} (h : rs.Chained (front ++ x :: y :: back)) {f g : String → α}
    (hfg : ∀ n, n ≠ x → n ≠ y → f n = g n) :
    (front ++ x :: back).map f = front.map g ++ f x :: back.map g := by
  have hsame : ∀ n ∈ front ++ back, f n = g n :=
    fun n hn => hfg n (h.ne_of_mem hn).1 (h.ne_of_mem hn).2
  rw [List.map_append, List.map_cons,
    List.map_congr_left fun n hn => hsame n (List.mem_append_left _ hn),
    List.map_congr_left fun n hn => hsame n (List.mem_append_right _ hn)]

/-! ### Fusing -/

theorem perm_cons (front back : List String) (x y : String) :
    (front ++ x :: y :: back).Perm (y :: (front ++ x :: back)) := by
  simpa using @List.perm_middle _ y (front ++ [x]) back

theorem links_fuseAt (h : rs.Chained (front ++ x :: y :: back)) :
    (front ++ x :: back).map (rs.fuseAt y x).successors =
      ((front ++ x :: back).tail ++ [""]).map fun t => [t] := by
  have hxy : x ≠ y := h.soleMention.ne_mentioner.symm
  have hx : (rs.fuseAt y x).successors x = rs.successors y := by
    rw [successors_fuseAt hxy, if_pos rfl]
  have hother : ∀ n, n ≠ x → n ≠ y → (rs.fuseAt y x).successors n = rs.successors n := by
    intro n hnx hny
    rw [successors_fuseAt hny, if_neg hnx]
  -- the rule that stays has what followed the one that goes
  obtain ⟨hfront, hback⟩ := h.links_split
  obtain ⟨-, hback⟩ := List.cons_eq_cons.mp hback
  rw [h.map_eq hother, hx, ← List.map_cons, hfront, hback, targets_split, List.map_append]
  rfl

/-- Fusing closes the chain up. -/
theorem fuseAt (h : rs.Chained (front ++ x :: y :: back)) :
    (rs.fuseAt y x).Chained (front ++ x :: back) where
  head := by
    rw [← h.head]
    rcases front with - | ⟨f, front⟩ <;> rfl
  rules := by
    rw [(removes_fuseAt h.soleMention).keys, ← rs.rules.nodup_keys.erase_eq_filter]
    have hperm := (perm_cons front back x y).symm.trans h.rules.symm
    exact (List.cons_perm_iff_perm_erase.mp hperm).2.symm
  ne_empty := by
    intro hmem
    exact h.ne_empty ((perm_cons front back x y).mem_iff.mpr (List.mem_cons_of_mem _ hmem))
  links := h.links_fuseAt
  outside := by
    intro n hn
    by_cases hny : n = y
    · rw [List.eq_nil_iff_forall_not_mem]
      exact fun t ht => (mem_successors_remove ht).1 hny
    · have hnx : n ≠ x := by
        rintro rfl
        simp at hn
      rw [successors_fuseAt hny, if_neg hnx]
      refine h.outside n fun hmem => ?_
      rcases List.mem_cons.mp ((perm_cons front back x y).mem_iff.mp hmem) with hmem | hmem
      · exact hny hmem
      · exact hn hmem
  bare := by
    intro n hn
    have hnodup := (perm_cons front back x y).nodup_iff.mp h.nodup
    have hny : n ≠ y := fun hny => (List.nodup_cons.mp hnodup).1 (hny ▸ hn)
    rw [patternOf_fuseAt hny]
    split
    · exact Text.isStripped_strip _
    · exact h.bare n ((perm_cons front back x y).mem_iff.mpr (List.mem_cons_of_mem _ hn))

/-- The patterns along a chain read the same after fusing. -/
theorem joined_fuseAt (h : rs.Chained (front ++ x :: y :: back)) :
    Text.joined ((front ++ x :: back).map (rs.fuseAt y x).patternOf) =
      Text.joined ((front ++ x :: y :: back).map rs.patternOf) := by
  have hxy : x ≠ y := h.soleMention.ne_mentioner.symm
  have hx : (rs.fuseAt y x).patternOf x = Text.joined ([x, y].map rs.patternOf) := by
    rw [patternOf_fuseAt hxy, if_pos rfl, Text.strip_append (h.bare x (by simp))
      (h.bare y (by simp))]
    exact congrArg _ (Text.joined_singleton _).symm
  have hother : ∀ n, n ≠ x → n ≠ y → (rs.fuseAt y x).patternOf n = rs.patternOf n := by
    intro n hnx hny
    rw [patternOf_fuseAt hny, if_neg hnx]
  have hpair : front ++ x :: y :: back = front ++ ([x, y] ++ back) := rfl
  rw [h.map_eq hother, hx, Text.joined_append, Text.joined_cons, ← Text.joined_append,
    ← Text.joined_append, hpair, List.map_append, List.map_append]

/-! ### Reducing a chain -/

theorem exists_eq_cons (h : rs.Chained names) : ∃ rest, names = Name.root :: rest := by
  rcases names with - | ⟨n, rest⟩
  · cases h.head
  · exact ⟨rest, by rw [Option.some.inj h.head]⟩

/-- As long as two rules are left, one can be fused: the second with the root. -/
theorem fuse?_ne_none (h : rs.Chained names) (hne : names ≠ [Name.root]) : rs.fuse? ≠ none := by
  obtain ⟨rest, rfl⟩ := h.exists_eq_cons
  rcases rest with - | ⟨y, back⟩
  · exact absurd rfl hne
  · have hsole : rs.SoleMention y Name.root := @soleMention rs [] back Name.root y h
    have hlast : rs.successors Name.root = [y] := @successors_eq rs [] (y :: back) Name.root h
    rw [fuse?, Ne, Option.map_eq_none_iff, List.find?_eq_none]
    intro hnone
    exact hnone _ (mem_candidates_iff.mpr hsole) (hsole.canFuse_iff.mpr hlast)

/-- What is fused are two neighbours. -/
theorem exists_split_of_fuse? (h : rs.Chained names) {r : Reduction} (hr : rs.fuse? = some r) :
    ∃ front x y back, names = front ++ x :: y :: back ∧ r.result = rs.fuseAt y x := by
  obtain ⟨name, mentioner, hsole, hlast, rfl⟩ := fuse?_cases hr
  obtain ⟨front, back, rfl⟩ := List.append_of_mem (h.hasRule_iff.mp hsole.hasRule_mentioner)
  have hsucc := h.successors_eq
  rw [hlast, List.singleton_inj] at hsucc
  rcases back with - | ⟨z, back⟩
  · -- the last rule leads to the end, which is no rule
    obtain rfl : name = "" := hsucc
    exact absurd (h.hasRule_iff.mp hsole.hasRule) h.ne_empty
  · obtain rfl : name = z := hsucc
    exact ⟨front, mentioner, name, back, rfl, rfl⟩

/-- A chain is reduced when only the root is left, and until then by fusing. -/
theorem reduce?_cases (h : rs.Chained names) :
    (names = [Name.root] ∧ rs.reduce? = none) ∨
      ∃ front x y back r, names = front ++ x :: y :: back ∧ rs.reduce? = some r ∧
        r.result = rs.fuseAt y x := by
  by_cases hroot : names = [Name.root]
  · refine .inl ⟨hroot, ?_⟩
    rcases hr : rs.reduce? with - | r
    · rfl
    · -- a reduction would take another rule away
      obtain ⟨gone, hgone⟩ := (reduces_of_reduce? hr).removes
      have hmem := h.hasRule_iff.mp hgone.hasRule
      rw [hroot, List.mem_singleton] at hmem
      exact absurd hmem hgone.ne_root
  · obtain ⟨r, hr⟩ := Option.ne_none_iff_exists'.mp (h.fuse?_ne_none hroot)
    obtain ⟨front, x, y, back, hsplit, hresult⟩ := h.exists_split_of_fuse? hr
    refine .inr ⟨front, x, y, back, r, hsplit, reduce?_of_basic? ?_, hresult⟩
    rw [basic?_eq_or, hr, Option.some_or]

/-- Reducing a chain leaves the root, with the patterns in the order of the chain. -/
theorem optimize (h : rs.Chained names) :
    rs.optimize.1.Chained [Name.root] ∧
      rs.optimize.1.patternOf Name.root = Text.joined (names.map rs.patternOf) := by
  revert names
  refine optimize_induction (motive := fun rs final _ => ∀ {names}, rs.Chained names →
    final.Chained [Name.root] ∧
      final.patternOf Name.root = Text.joined (names.map rs.patternOf)) ?_ ?_ rs
  · intro rs hnone names h
    rcases h.reduce?_cases with ⟨rfl, -⟩ | ⟨front, x, y, back, r, -, hr, -⟩
    · exact ⟨h, (Text.joined_singleton _).symm⟩
    · rw [hnone] at hr
      cases hr
  · intro rs r hr ih names h
    rcases h.reduce?_cases with ⟨-, hnone⟩ | ⟨front, x, y, back, r', rfl, hr', hresult⟩
    · rw [hnone] at hr
      cases hr
    · rw [hr] at hr'
      cases hr'
      rw [hresult] at ih ⊢
      obtain ⟨hchain, htext⟩ := ih h.fuseAt
      exact ⟨hchain, htext.trans h.joined_fuseAt⟩

end Chained

/-! ### One line -/

/-- The grammar whose root has these patterns one behind the other; without
patterns there is none. -/
def oneLine (patterns : List String) : String :=
  if patterns = [] then "" else line Name.root (String.intercalate " " patterns)

theorem Chained.ordinary_eq (h : rs.Chained [Name.root]) : rs.ordinary = [] := by
  rw [ordinary, List.perm_singleton.mp h.rules]
  rfl

theorem Chained.render_eq {ps : List String} (h : rs.Chained [Name.root])
    (htext : rs.patternOf Name.root = Text.joined ps) :
    rs.render = oneLine (ps.filter fun p => p != "") := by
  have hroot : rs.hasRule Name.root := h.hasRule_iff.mpr List.mem_cons_self
  have hsucc : rs.successors Name.root = [""] := @successors_eq rs [] [] Name.root h
  have hbody : rs.body Name.root = String.intercalate " " (ps.filter fun p => p != "") := by
    have hend : renderAlternatives [""] = "" := rfl
    rw [body, hsucc, hend, Text.strip_append (h.bare _ List.mem_cons_self)
      (Text.isStripped_iff.mpr rfl), htext, Text.joined_eq_intercalate]
    simp [Text.spaced]
  have hordinary : rs.ordinaryLines = [] := by
    simp [ordinaryLines, sortedNames, h.ordinary_eq]
  have hempty := @Text.intercalate_eq_empty_iff (ps.filter fun p => p != "") (by simp)
  rw [render, lines, body?, if_pos hroot, hordinary, Option.getD_some, hbody, oneLine]
  by_cases hps : ps.filter (fun p => p != "") = []
  · simp [hps]
  · have hne : String.intercalate " " (ps.filter fun p => p != "") ≠ "" := mt hempty.mp hps
    rw [if_neg hps]
    simp [hne]

end RuleSet

end GrammarDiagram
