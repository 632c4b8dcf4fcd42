/-
GrammarDiagram/Proofs/Reduction.lean

What a single reduction does to a rule set and its languages.

`Reduces` says all that a reduction can be: where it acts, and under which
conditions.  Fusing and merging keep the language of every rule that stays
(`language_fuseAt`, `language_mergeAt`); merging moreover gives the kept rule
the words of the dropped one.  Inlining keeps the languages if nothing follows
the rule that is inlined (`language_inlineAt`).  Each proof has the same two
halves: the words of the one rule set are closed under the rules of the other.
What carries them is that a rule with one mention occurs in one place only.
-/
import GrammarDiagram.Proofs.Identifier
import GrammarDiagram.Proofs.Language
import GrammarDiagram.Proofs.Mention

namespace GrammarDiagram.RuleSet

variable {α : Type*} {rs : RuleSet} {I : String → Language α}

/-! ### What a reduction can be -/

/-- A rule that can be fused is all that follows its mentioner. -/
theorem SoleMention.canFuse_iff {name mentioner : String} (h : rs.SoleMention name mentioner) :
    rs.canFuse (name, mentioner) ↔ rs.successors mentioner = [name] := by
  simp only [canFuse, beq_iff_eq]
  constructor
  · intro hlen
    obtain ⟨t, ht⟩ := List.length_eq_one_iff.mp hlen
    have hmem := h.mem
    rw [ht, List.mem_singleton] at hmem
    rw [ht, hmem]
  · intro hlast
    rw [hlast, List.length_singleton]

theorem fuse?_cases {r : Reduction} (h : rs.fuse? = some r) :
    ∃ name mentioner, rs.SoleMention name mentioner ∧ rs.successors mentioner = [name] ∧
      r = ⟨rs.fuseAt name mentioner, .ruleFused name mentioner⟩ := by
  obtain ⟨c, hc, rfl⟩ := Option.map_eq_some_iff.mp h
  have hsole := soleMention_of_mem_candidates (List.mem_of_find?_eq_some hc)
  exact ⟨c.1, c.2, hsole, hsole.canFuse_iff.mp (List.find?_some hc), rfl⟩

/-- `rs.Twins kept dropped`: two rules, neither of them the root, with one pattern
and one list of successors. -/
structure Twins (rs : RuleSet) (kept dropped : String) : Prop where
  hasRule_kept : rs.hasRule kept
  hasRule_dropped : rs.hasRule dropped
  kept_ne_root : kept ≠ Name.root
  dropped_ne_root : dropped ≠ Name.root
  ne : kept ≠ dropped
  patternOf_eq : rs.patternOf kept = rs.patternOf dropped
  successors_eq : rs.successors kept = rs.successors dropped

theorem mem_ordinary {n : String} : n ∈ rs.ordinary ↔ rs.hasRule n ∧ n ≠ Name.root := by
  rw [ordinary, List.mem_filter, ← Table.contains_iff_mem_keys]
  simp [hasRule]

theorem areTwins_iff {a b : String} :
    rs.areTwins a b ↔ rs.patternOf a = rs.patternOf b ∧ rs.successors a = rs.successors b := by
  simp [areTwins]

theorem twins_of_sublist {kept dropped : String} (hsub : [kept, dropped].Sublist rs.ordinary)
    (h : rs.areTwins kept dropped) : rs.Twins kept dropped := by
  have hd : rs.ordinary.Nodup := rs.rules.nodup_keys.sublist List.filter_sublist
  obtain ⟨hk, hkr⟩ := mem_ordinary.mp (hsub.subset List.mem_cons_self)
  obtain ⟨hdr, hdrr⟩ := mem_ordinary.mp (hsub.subset (List.mem_cons_of_mem _ List.mem_cons_self))
  have hne : kept ≠ dropped := by simpa using hd.sublist hsub
  obtain ⟨hpattern, hsuccessors⟩ := areTwins_iff.mp h
  exact ⟨hk, hdr, hkr, hdrr, hne, hpattern, hsuccessors⟩

/-- A pair in a list is a pair behind the first item, or the first item with one
behind it. -/
theorem pair_sublist_cons_iff {a b x : String} {l : List String} :
    [a, b].Sublist (x :: l) ↔ [a, b].Sublist l ∨ a = x ∧ b ∈ l := by
  rw [List.sublist_cons_iff]
  refine or_congr_right ⟨?_, ?_⟩
  · rintro ⟨r, hr, hsub⟩
    obtain ⟨rfl, rfl⟩ := List.cons_eq_cons.mp hr
    exact ⟨rfl, List.singleton_sublist.mp hsub⟩
  · rintro ⟨rfl, hb⟩
    exact ⟨[b], rfl, List.singleton_sublist.mpr hb⟩

theorem findTwins?_sublist {names : List String} {p : String × String}
    (h : rs.findTwins? names = some p) :
    [p.1, p.2].Sublist names ∧ rs.areTwins p.1 p.2 := by
  induction names with
  | nil => cases h
  | cons name rest ih =>
    unfold findTwins? at h
    split at h
    · rename_i twin ht
      cases h
      exact ⟨pair_sublist_cons_iff.mpr (.inr ⟨rfl, List.mem_of_find?_eq_some ht⟩),
        List.find?_some ht⟩
    · obtain ⟨hsub, htwins⟩ := ih h
      exact ⟨pair_sublist_cons_iff.mpr (.inl hsub), htwins⟩

theorem merge?_cases {r : Reduction} (h : rs.merge? = some r) :
    ∃ kept dropped, rs.Twins kept dropped ∧
      r = ⟨rs.mergeAt kept dropped, .ruleMerged dropped kept⟩ := by
  obtain ⟨p, hp, rfl⟩ := Option.map_eq_some_iff.mp h
  obtain ⟨hsub, htwins⟩ := findTwins?_sublist hp
  exact ⟨p.1, p.2, twins_of_sublist hsub htwins, rfl⟩

theorem canInline_iff {c : String × String} :
    rs.canInline c ↔ ∀ t ∈ rs.successors c.1, t ∈ rs.successors c.2 := by
  simp [canInline]

theorem inline?_cases {r : Reduction} (h : rs.inline? = some r) :
    ∃ name mentioner, rs.SoleMention name mentioner ∧
      (∀ t ∈ rs.successors name, t ∈ rs.successors mentioner) ∧
      r = ⟨rs.inlineAt name mentioner,
        .ruleInlined name mentioner (Pattern.fragment (rs.patternOf name))⟩ := by
  obtain ⟨c, hc, rfl⟩ := Option.map_eq_some_iff.mp h
  have hsole := soleMention_of_mem_candidates (List.mem_of_find?_eq_some hc)
  exact ⟨c.1, c.2, hsole, canInline_iff.mp (List.find?_some hc), rfl⟩

/-- `rs.Reduces r`: what a reduction can be, whichever way its place is found.  It
fuses, merges or inlines, each under its condition. -/
inductive Reduces (rs : RuleSet) : Reduction → Prop
  | fuse {name mentioner} : rs.SoleMention name mentioner → rs.successors mentioner = [name] →
      Reduces rs ⟨rs.fuseAt name mentioner, .ruleFused name mentioner⟩
  | merge {kept dropped} : rs.Twins kept dropped →
      Reduces rs ⟨rs.mergeAt kept dropped, .ruleMerged dropped kept⟩
  | inline {name mentioner} : rs.SoleMention name mentioner →
      (∀ t ∈ rs.successors name, t ∈ rs.successors mentioner) →
      Reduces rs ⟨rs.inlineAt name mentioner,
        .ruleInlined name mentioner (Pattern.fragment (rs.patternOf name))⟩

theorem basic?_eq_or (rs : RuleSet) : rs.basic? = rs.fuse?.or rs.merge? :=
  Option.orElse_eq_or

theorem reduce?_eq_or (rs : RuleSet) : rs.reduce? = rs.basic?.or rs.inline? :=
  Option.orElse_eq_or

/-! ### Views of a changed rule set -/

theorem hasRule_remove (rs : RuleSet) (name n : String) :
    (rs.remove name).hasRule n ↔ n ≠ name ∧ rs.hasRule n := by
  rw [hasRule, Table.contains, remove, Table.get?_erase]
  by_cases h : n = name
  · simp [h]
  · simp [h, hasRule, Table.contains]

theorem ruleOf_remove {name n : String} (h : n ≠ name) :
    (rs.remove name).ruleOf n = rs.ruleOf n := by
  rw [ruleOf, remove, Table.get?_erase, if_neg h, ruleOf]

theorem patternOf_remove {name n : String} (h : n ≠ name) :
    (rs.remove name).patternOf n = rs.patternOf n := by
  rw [patternOf, ruleOf_remove h, patternOf]

theorem successors_remove {name n : String} (h : n ≠ name) :
    (rs.remove name).successors n = rs.successors n := by
  rw [successors, remove, Table.get?_erase, if_neg h, successors]

theorem hasRule_setPattern_iff (rs : RuleSet) (name pattern n : String) :
    (rs.setPattern name pattern).hasRule n ↔ n = name ∨ rs.hasRule n := by
  rw [hasRule, Table.contains, setPattern, Table.get?_put]
  by_cases h : n = name
  · simp [h]
  · simp [h, hasRule, Table.contains]

theorem patternOf_setPattern (rs : RuleSet) (name pattern n : String) :
    (rs.setPattern name pattern).patternOf n =
      if n = name then pattern else rs.patternOf n := by
  simp only [patternOf, ruleOf, setPattern, Table.get?_put]
  split <;> rfl

/-- Changing every successor list, the empty one to itself. -/
theorem successors_mapValues (rs : RuleSet) {f : List String → List String} (hf : f [] = [])
    (n : String) :
    successors { rs with adjacency := rs.adjacency.mapValues f } n = f (rs.successors n) := by
  simp only [successors, Table.get?_mapValues]
  rcases rs.adjacency.get? n with - | targets
  · exact hf.symm
  · rfl

/-- Away from its only mentioner nobody can tell that a rule is gone. -/
theorem hasRule_iff_of_only {rs' : RuleSet} {name mentioner x t : String}
    (hrule : ∀ t, rs'.hasRule t ↔ t ≠ name ∧ rs.hasRule t)
    (honly : ∀ x, name ∈ rs.successors x → x = mentioner) (hx : x ≠ mentioner)
    (ht : t ∈ rs.successors x) : rs'.hasRule t ↔ rs.hasRule t := by
  rw [hrule]
  refine ⟨fun h => h.2, fun h => ⟨?_, h⟩⟩
  rintro rfl
  exact hx (honly x ht)

/-! ### Fusing -/

section Fusing

variable {name mentioner n : String}

theorem hasRule_fuseAt (hm : rs.hasRule mentioner) :
    (rs.fuseAt name mentioner).hasRule n ↔ n ≠ name ∧ rs.hasRule n := by
  rw [fuseAt, hasRule_remove, hasRule_setSuccessors, hasRule_setPattern_iff]
  constructor
  · rintro ⟨hne, rfl | h⟩
    · exact ⟨hne, hm⟩
    · exact ⟨hne, h⟩
  · rintro ⟨hne, h⟩
    exact ⟨hne, .inr h⟩

theorem patternOf_fuseAt (hn : n ≠ name) :
    (rs.fuseAt name mentioner).patternOf n =
      if n = mentioner then Text.strip (rs.patternOf mentioner ++ " " ++ rs.patternOf name)
      else rs.patternOf n := by
  rw [fuseAt, patternOf_remove hn]
  exact patternOf_setPattern rs mentioner _ n

theorem successors_fuseAt (hn : n ≠ name) :
    (rs.fuseAt name mentioner).successors n =
      if n = mentioner then rs.successors name else rs.successors n := by
  rw [fuseAt, successors_remove hn, successors_setSuccessors]
  rfl

/-- Fusing a rule with its mentioner, whose only successor it is, keeps the
languages. -/
theorem language_fuseAt (hempty : ¬ rs.hasRule "")
    (hjoin : ∀ p q, I (Text.strip (p ++ " " ++ q)) = I p * I q)
    (hc : rs.SoleMention name mentioner) (hlast : rs.successors mentioner = [name])
    (hn : n ≠ name) : (rs.fuseAt name mentioner).language I n = rs.language I n := by
  have hmn : mentioner ≠ name := hc.ne_mentioner.symm
  have hrule : ∀ t, (rs.fuseAt name mentioner).hasRule t ↔ t ≠ name ∧ rs.hasRule t :=
    fun t => hasRule_fuseAt hc.hasRule_mentioner
  have hsame : ∀ x, x ≠ mentioner → ∀ t ∈ rs.successors x,
      (rs.fuseAt name mentioner).hasRule t ↔ rs.hasRule t :=
    fun x hx t ht => hasRule_iff_of_only hrule hc.only hx ht
  ext w
  constructor
  · intro hw
    refine Generates.least (L := rs.Generates I) ?_ hw
    intro x u v hx hu hv
    obtain ⟨hxn, hx'⟩ := (hrule x).mp hx
    rw [patternOf_fuseAt hxn] at hu
    rw [successors_fuseAt hxn] at hv
    by_cases hxm : x = mentioner
    · -- the fused pattern gives a word of either part
      subst hxm
      rw [if_pos rfl] at hu hv
      rw [hjoin, Language.mem_mul] at hu
      obtain ⟨u₁, hu₁, u₂, hu₂, rfl⟩ := hu
      have hv' := hv.imp (hsame name hc.ne_mentioner) fun _ _ h => h
      rw [List.append_assoc]
      exact .rule hx' hu₁ hc.mem hc.hasRule (.intro hc.hasRule hu₂ hv')
    · rw [if_neg hxm] at hu hv
      exact .intro hx' hu (hv.imp (hsame x hxm) fun _ _ h => h)
  · intro hw
    -- of the rule itself we keep the two parts of a word, for the mentioner to take over
    refine (Generates.least (L := fun x w =>
      (x ≠ name → (rs.fuseAt name mentioner).Generates I x w) ∧
      (x = name → ∃ u v, u ∈ I (rs.patternOf name) ∧
        (rs.fuseAt name mentioner).Follows I ((rs.fuseAt name mentioner).Generates I)
          (rs.successors name) v ∧ w = u ++ v)) ?_ hw).1 hn
    intro x u v hx hu hv
    by_cases hxm : x = mentioner
    · -- nothing but the rule can follow its mentioner
      subst hxm
      refine ⟨fun _ => ?_, fun h => absurd h hmn⟩
      rw [hlast] at hv
      rcases hv with ⟨-, h | h⟩ | ⟨t, ht, -, hL⟩ | ⟨t, ht, -, hr, -⟩
      · cases h
      · rw [List.mem_singleton] at h
        exact absurd (h ▸ hc.hasRule) hempty
      · rw [List.mem_singleton] at ht
        obtain ⟨u₂, v₂, hu₂, hv₂, rfl⟩ := hL.2 ht
        rw [← List.append_assoc]
        refine .intro ((hrule _).mpr ⟨hmn, hx⟩) ?_ ?_
        · rw [patternOf_fuseAt hmn, if_pos rfl, hjoin]
          exact Language.append_mem_mul hu hu₂
        · rw [successors_fuseAt hmn, if_pos rfl]
          exact hv₂
      · rw [List.mem_singleton] at ht
        exact absurd (ht ▸ hc.hasRule) hr
    · have hv' := hv.imp (fun t ht => (hsame x hxm t ht).symm) fun t ht h =>
        h.1 fun e => hxm (hc.only x (e ▸ ht))
      constructor
      · intro hxn
        refine .intro ((hrule x).mpr ⟨hxn, hx⟩) ?_ ?_
        · rwa [patternOf_fuseAt hxn, if_neg hxm]
        · rwa [successors_fuseAt hxn, if_neg hxm]
      · rintro rfl
        exact ⟨u, v, hu, hv', rfl⟩

end Fusing

/-! ### Merging -/

section Merging

variable {kept dropped n : String}

theorem hasRule_mergeAt :
    (rs.mergeAt kept dropped).hasRule n ↔ n ≠ dropped ∧ rs.hasRule n := by
  rw [mergeAt, hasRule_remove]
  rfl

theorem patternOf_mergeAt (hn : n ≠ dropped) :
    (rs.mergeAt kept dropped).patternOf n = rs.patternOf n := by
  rw [mergeAt, patternOf_remove hn]
  rfl

theorem successors_mergeAt (hn : n ≠ dropped) :
    (rs.mergeAt kept dropped).successors n =
      (rs.successors n).map fun t => if t = dropped then kept else t := by
  rw [mergeAt, successors_remove hn, successors_mapValues rs rfl]

/-- Twins generate the same words. -/
theorem Twins.generates {w : List α} (ht : rs.Twins kept dropped)
    (h : rs.Generates I kept w) : rs.Generates I dropped w := by
  obtain ⟨-, u, v, hu, hv, rfl⟩ := generates_iff.mp h
  rw [ht.patternOf_eq] at hu
  rw [ht.successors_eq] at hv
  exact .intro ht.hasRule_dropped hu hv

/-- The words of every rule are words of the rule that takes its place. -/
theorem generates_mergeAt {w : List α} (hempty : ¬ rs.hasRule "")
    (htwins : rs.Twins kept dropped) (h : rs.Generates I n w) :
    (rs.mergeAt kept dropped).Generates I (if n = dropped then kept else n) w := by
  refine Generates.least (L := fun x w =>
    (rs.mergeAt kept dropped).Generates I (if x = dropped then kept else x) w) ?_ h
  intro x u v hx hu hv
  have hend : ¬ "" = dropped := fun h => hempty (h ▸ htwins.hasRule_dropped)
  have hv' : (rs.mergeAt kept dropped).Follows I ((rs.mergeAt kept dropped).Generates I)
      ((rs.successors x).map fun t => if t = dropped then kept else t) v := by
    refine hv.map (if_neg hend) ?_
    rintro t - (⟨-, hL⟩ | ⟨hne, hr, hv⟩)
    · exact .inl ⟨hL.hasRule, hL⟩
    · have htd : t ≠ dropped := by
        rintro rfl
        exact hr htwins.hasRule_dropped
      rw [if_neg htd]
      exact .inr ⟨hne, fun h => hr (hasRule_mergeAt.mp h).2, hv⟩
  by_cases hxd : x = dropped
  · -- the kept rule stands in for its twin
    subst hxd
    rw [if_pos rfl]
    refine .intro (hasRule_mergeAt.mpr ⟨htwins.ne, htwins.hasRule_kept⟩) ?_ ?_
    · rwa [patternOf_mergeAt htwins.ne, htwins.patternOf_eq]
    · rwa [successors_mergeAt htwins.ne, htwins.successors_eq]
  · rw [if_neg hxd]
    refine .intro (hasRule_mergeAt.mpr ⟨hxd, hx⟩) ?_ ?_
    · rwa [patternOf_mergeAt hxd]
    · rwa [successors_mergeAt hxd]

/-- Merging twins keeps the languages. -/
theorem language_mergeAt (hempty : ¬ rs.hasRule "") (htwins : rs.Twins kept dropped)
    (hn : n ≠ dropped) :
    (rs.mergeAt kept dropped).language I n = rs.language I n := by
  ext w
  constructor
  · intro hw
    refine Generates.least (L := rs.Generates I) ?_ hw
    intro x u v hx hu hv
    obtain ⟨hxd, hx'⟩ := hasRule_mergeAt.mp hx
    rw [patternOf_mergeAt hxd] at hu
    rw [successors_mergeAt hxd] at hv
    refine .intro hx' hu (hv.of_map ?_ ?_)
    · intro t _ hte
      split at hte
      · exact absurd (hte ▸ htwins.hasRule_kept) hempty
      · exact hte
    · intro t _ hadmits
      by_cases htd : t = dropped
      · subst htd
        rw [if_pos rfl] at hadmits
        -- the kept rule has the words of the dropped one
        rcases hadmits with ⟨-, hL⟩ | ⟨-, hr, -⟩
        · exact .inl ⟨htwins.hasRule_dropped, htwins.generates hL⟩
        · exact absurd (hasRule_mergeAt.mpr ⟨htwins.ne, htwins.hasRule_kept⟩) hr
      · rw [if_neg htd] at hadmits
        rcases hadmits with ⟨-, hL⟩ | ⟨hne, hr, hv⟩
        · exact .inl ⟨hL.hasRule, hL⟩
        · exact .inr ⟨hne, fun h => hr (hasRule_mergeAt.mpr ⟨htd, h⟩), hv⟩
  · intro hw
    have h := generates_mergeAt hempty htwins hw
    rwa [if_neg hn] at h

end Merging

/-! ### Inlining -/

section Inlining

variable {name mentioner n : String}

theorem hasRule_inlineAt :
    (rs.inlineAt name mentioner).hasRule n ↔ n ≠ name ∧ rs.hasRule n := by
  rw [inlineAt, hasRule_remove]
  rfl

theorem patternOf_inlineAt (hn : n ≠ name) :
    (rs.inlineAt name mentioner).patternOf n = rs.patternOf n := by
  rw [inlineAt, patternOf_remove hn]
  rfl

theorem successors_inlineAt (hn : n ≠ name) :
    (rs.inlineAt name mentioner).successors n =
      if n = mentioner then (rs.successors mentioner).map fun t =>
        if t = name then Pattern.fragment (rs.patternOf name) else t
      else rs.successors n := by
  rw [inlineAt, successors_remove hn, successors_setSuccessors]

/-- Inlining a rule that nothing follows keeps the languages. -/
theorem language_inlineAt (hempty : ¬ rs.hasRule "")
    (hfragment : ∀ p, I (Pattern.fragment p) = I p)
    (hfree : ¬ rs.hasRule (Pattern.fragment (rs.patternOf name)))
    (hname : rs.hasRule name) (honly : ∀ x, name ∈ rs.successors x → x = mentioner)
    (hend : ∀ t ∈ rs.successors name, t = "") (hn : n ≠ name) :
    (rs.inlineAt name mentioner).language I n = rs.language I n := by
  have hrule : ∀ t, (rs.inlineAt name mentioner).hasRule t ↔ t ≠ name ∧ rs.hasRule t :=
    fun t => hasRule_inlineAt
  have hsame : ∀ x, x ≠ mentioner → ∀ t ∈ rs.successors x,
      (rs.inlineAt name mentioner).hasRule t ↔ rs.hasRule t :=
    fun x hx t ht => hasRule_iff_of_only hrule honly hx ht
  have hne : ¬ "" = name := fun h => hempty (h ▸ hname)
  ext w
  constructor
  · intro hw
    refine Generates.least (L := rs.Generates I) ?_ hw
    intro x u v hx hu hv
    obtain ⟨hxn, hx'⟩ := (hrule x).mp hx
    rw [patternOf_inlineAt hxn] at hu
    rw [successors_inlineAt hxn] at hv
    refine .intro hx' hu ?_
    by_cases hxm : x = mentioner
    · subst hxm
      rw [if_pos rfl] at hv
      refine hv.of_map ?_ ?_
      · intro t _ hte
        split at hte
        · exact absurd hte (Pattern.fragment_ne_empty _)
        · exact hte
      · intro t _ hadmits
        by_cases htn : t = name
        · subst htn
          rw [if_pos rfl] at hadmits
          -- the fragment has the words of the pattern, which are those of the rule
          rcases hadmits with ⟨hr, -⟩ | ⟨-, -, hv⟩
          · exact absurd ((hrule _).mp hr).2 hfree
          · rw [hfragment] at hv
            have h := Generates.intro hname hv ((follows_of_end hempty hend).mpr rfl)
            rw [List.append_nil] at h
            exact .inl ⟨hname, h⟩
        · rw [if_neg htn] at hadmits
          rcases hadmits with ⟨-, hL⟩ | ⟨hne, hr, hv⟩
          · exact .inl ⟨hL.hasRule, hL⟩
          · exact .inr ⟨hne, fun h => hr ((hrule t).mpr ⟨htn, h⟩), hv⟩
    · rw [if_neg hxm] at hv
      exact hv.imp (hsame x hxm) fun _ _ h => h
  · intro hw
    -- the words of the rule itself are those of its pattern, since nothing follows
    refine (Generates.least (L := fun x w =>
      (x ≠ name → (rs.inlineAt name mentioner).Generates I x w) ∧
      (x = name → w ∈ I (rs.patternOf name))) ?_ hw).1 hn
    intro x u v hx hu hv
    by_cases hxn : x = name
    · subst hxn
      rw [follows_of_end hempty hend] at hv
      refine ⟨fun h => absurd rfl h, fun _ => ?_⟩
      rwa [hv, List.append_nil]
    · refine ⟨fun _ => .intro ((hrule x).mpr ⟨hxn, hx⟩) ?_ ?_, fun h => absurd h hxn⟩
      · rwa [patternOf_inlineAt hxn]
      · rw [successors_inlineAt hxn]
        by_cases hxm : x = mentioner
        · subst hxm
          rw [if_pos rfl]
          refine hv.map (if_neg hne) ?_
          intro t _ hadmits
          by_cases htn : t = name
          · subst htn
            rw [if_pos rfl]
            rcases hadmits with ⟨-, hL⟩ | ⟨-, hr, -⟩
            · refine .inr ⟨Pattern.fragment_ne_empty _, fun h => hfree ((hrule _).mp h).2, ?_⟩
              rw [hfragment]
              exact hL.2 rfl
            · exact absurd hname hr
          · rw [if_neg htn]
            rcases hadmits with ⟨hr, hL⟩ | ⟨hne, hr, hv⟩
            · exact .inl ⟨(hrule t).mpr ⟨htn, hr⟩, hL.1 htn⟩
            · exact .inr ⟨hne, fun h => hr ((hrule t).mp h).2, hv⟩
        · rw [if_neg hxm]
          exact hv.imp (fun t ht => (hsame x hxm t ht).symm) fun t ht h =>
            h.1 fun e => hxm (honly x (e ▸ ht))

end Inlining

end GrammarDiagram.RuleSet
