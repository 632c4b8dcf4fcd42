/-
GrammarDiagram/Proofs/Route.lean

Reductions invent nothing.

A route through a rule set goes from rule to successor and stops wherever it
likes; what it passes are patterns, and a pattern in the place of a rule ends it.
Every derivation follows a route (`exists_route_of_generates`).  A reduction may
lose routes, and it may write the patterns along one in another way: two of them
in one, or one of them as a fragment.  But a route through the reduced rule set
has the words of a route through the one before (`Route.reduces`).

So after any sequence of rewrites every word still belongs to a route through the
first rule set (`mem_routeLanguage_of_mem_rewrite`), though the route may stop
where no derivation of the first rule set could.
-/
import GrammarDiagram.Proofs.Meaning

namespace GrammarDiagram.RuleSet

variable {α : Type*}

/-! ### Routes -/

/-- `rs.Route n route`: the patterns along a walk from `n`.  A rule contributes its
pattern, and the walk stops there or goes on to a successor; a pattern in the
place of a rule stands for itself and ends the walk. -/
inductive Route (rs : RuleSet) : String → List String → Prop
  | fragment {t} : t ≠ "" → ¬ rs.hasRule t → Route rs t [t]
  | stop {n} : rs.hasRule n → Route rs n [rs.patternOf n]
  | onward {n t route} : rs.hasRule n → t ∈ rs.successors n → Route rs t route →
      Route rs n (rs.patternOf n :: route)

/-- The words along the routes from a name: one of every pattern in turn. -/
def routeLanguage (rs : RuleSet) (I : String → Language α) (n : String) : Language α :=
  {w | ∃ route, rs.Route n route ∧ w ∈ (route.map I).prod}

variable {rs rs' : RuleSet} {I : String → Language α} {n : String}

/-- Derivations follow routes. -/
theorem exists_route_of_generates {w : List α} (h : rs.Generates I n w) :
    ∃ route, rs.Route n route ∧ w ∈ (route.map I).prod := by
  induction h with
  | stop hn hu _ =>
    refine ⟨_, .stop hn, ?_⟩
    simpa using hu
  | rule hn hu ht _ _ ih =>
    obtain ⟨route, hroute, hv⟩ := ih
    refine ⟨_, .onward hn ht hroute, ?_⟩
    rw [List.map_cons, List.prod_cons]
    exact Language.append_mem_mul hu hv
  | fragment hn hu ht hne hr hv =>
    refine ⟨_, .onward hn ht (.fragment hne hr), ?_⟩
    rw [List.map_cons, List.prod_cons]
    exact Language.append_mem_mul hu (by simpa using hv)

/-! ### Matching routes -/

/-- There is a route from `n` with the words of this one. -/
def Matches (rs : RuleSet) (I : String → Language α) (n : String) (route : List String) : Prop :=
  ∃ route', rs.Route n route' ∧ (route'.map I).prod = (route.map I).prod

/-- What may be behind a rule on a route: nothing, or the rest from a successor. -/
def Onward (rs : RuleSet) (I : String → Language α) (targets tail : List String) : Prop :=
  tail = [] ∨ ∃ t ∈ targets, rs.Matches I t tail

theorem Matches.intro {tail : List String} (hn : rs.hasRule n)
    (h : rs.Onward I (rs.successors n) tail) : rs.Matches I n (rs.patternOf n :: tail) := by
  rcases h with rfl | ⟨t, ht, route, hroute, hprod⟩
  · exact ⟨_, .stop hn, rfl⟩
  · refine ⟨_, .onward hn ht hroute, ?_⟩
    rw [List.map_cons, List.prod_cons, hprod, List.map_cons, List.prod_cons]

/-- Twins have the same routes. -/
theorem Twins.matches {kept dropped : String} (ht : rs.Twins kept dropped) {route : List String}
    (h : rs.Matches I kept route) : rs.Matches I dropped route := by
  obtain ⟨route', hroute, hprod⟩ := h
  refine ⟨route', ?_, hprod⟩
  cases hroute with
  | fragment _ hr => exact absurd ht.hasRule_kept hr
  | stop _ =>
    rw [ht.patternOf_eq]
    exact .stop ht.hasRule_dropped
  | onward _ hs hrest =>
    rw [ht.successors_eq] at hs
    rw [ht.patternOf_eq]
    exact .onward ht.hasRule_dropped hs hrest

/-- Routes are matched if each rule that stays is matched with what is behind it. -/
theorem Route.matches_of_removes {gone : String} (hid : rs.Identified)
    (hgone : rs.Removes rs' gone)
    (hstep : ∀ {n tail}, n ≠ gone → rs.hasRule n → rs.Onward I (rs'.successors n) tail →
      rs.Matches I n (rs'.patternOf n :: tail))
    {route : List String} (h : rs'.Route n route) (hn : n ≠ gone) : rs.Matches I n route := by
  induction h with
  | fragment hne hr =>
    exact ⟨_, .fragment hne fun h => hr (hgone.hasRule_iff.mpr ⟨hn, h⟩), rfl⟩
  | stop hrule => exact hstep hn (hgone.hasRule_iff.mp hrule).2 (.inl rfl)
  | onward hrule ht _ ih =>
    refine hstep hn (hgone.hasRule_iff.mp hrule).2 (.inr ⟨_, ht, ih ?_⟩)
    -- the rule that is gone is no successor any more
    rcases hgone.successor ht with ⟨hne, -⟩ | ⟨p, rfl⟩
    · exact hne
    · rintro rfl
      exact hid.not_hasRule_fragment p hgone.hasRule

/-! ### Routes through a reduced rule set -/

section Step

variable {name mentioner kept dropped : String} {tail : List String}

/-- A fused rule passes both of its parts. -/
theorem matches_fuseAt (hI : Faithful I) (hc : rs.SoleMention name mentioner) (hn : n ≠ name)
    (hrule : rs.hasRule n) (h : rs.Onward I ((rs.fuseAt name mentioner).successors n) tail) :
    rs.Matches I n ((rs.fuseAt name mentioner).patternOf n :: tail) := by
  rw [successors_fuseAt hn] at h
  rw [patternOf_fuseAt hn]
  by_cases hm : n = mentioner
  · subst hm
    rw [if_pos rfl] at h ⊢
    -- through the mentioner, on to the rule that is gone, and on from there
    have hparts : rs.Matches I n (rs.patternOf n :: rs.patternOf name :: tail) :=
      .intro hrule (.inr ⟨_, hc.mem, .intro hc.hasRule h⟩)
    obtain ⟨route, hroute, hprod⟩ := hparts
    refine ⟨route, hroute, hprod.trans ?_⟩
    simp only [List.map_cons, List.prod_cons, hI.join, mul_assoc]
  · rw [if_neg hm] at h ⊢
    exact .intro hrule h

/-- A merged rule passes what its twin did. -/
theorem matches_mergeAt (ht : rs.Twins kept dropped) (hn : n ≠ dropped) (hrule : rs.hasRule n)
    (h : rs.Onward I ((rs.mergeAt kept dropped).successors n) tail) :
    rs.Matches I n ((rs.mergeAt kept dropped).patternOf n :: tail) := by
  rw [successors_mergeAt hn] at h
  rw [patternOf_mergeAt hn]
  refine .intro hrule (h.imp_right ?_)
  rintro ⟨s, hs, hmatch⟩
  obtain ⟨t, hmem, rfl⟩ := List.mem_map.mp hs
  refine ⟨t, hmem, ?_⟩
  split at hmatch
  · rename_i hdropped
    exact hdropped ▸ ht.matches hmatch
  · exact hmatch

/-- A fragment passes the rule that it stands for, where the route stops. -/
theorem matches_inlineAt (hid : rs.Identified) (hI : Faithful I)
    (hc : rs.SoleMention name mentioner) (hn : n ≠ name) (hrule : rs.hasRule n)
    (h : rs.Onward I ((rs.inlineAt name mentioner).successors n) tail) :
    rs.Matches I n ((rs.inlineAt name mentioner).patternOf n :: tail) := by
  rw [successors_inlineAt hn] at h
  rw [patternOf_inlineAt hn]
  refine .intro hrule ?_
  split at h
  · rename_i hm
    subst hm
    refine h.imp_right ?_
    rintro ⟨s, hs, hmatch⟩
    obtain ⟨t, hmem, rfl⟩ := List.mem_map.mp hs
    refine ⟨t, hmem, ?_⟩
    split at hmatch
    · rename_i hname
      subst hname
      obtain ⟨route, hroute, hprod⟩ := hmatch
      -- no rule has such a name, so the route ends with the fragment
      cases hroute with
      | fragment =>
        refine ⟨_, .stop hc.hasRule, hprod ▸ ?_⟩
        simp only [List.map_cons, List.map_nil, hI.fragment]
      | stop hr => exact absurd hr (hid.not_hasRule_fragment _)
      | onward hr => exact absurd hr (hid.not_hasRule_fragment _)
    · exact hmatch
  · exact h

end Step

/-- A route through a reduced rule set has the words of a route through the one
before. -/
theorem Route.reduces {r : Reduction} (hid : rs.Identified) (hI : Faithful I) (h : rs.Reduces r)
    (hn : r.result.hasRule n) {route : List String} (hroute : r.result.Route n route) :
    rs.Matches I n route := by
  cases h with
  | fuse hc hlast =>
    have hgone := removes_fuseAt hc
    exact hroute.matches_of_removes hid hgone (matches_fuseAt hI hc) (hgone.hasRule_iff.mp hn).1
  | merge ht =>
    have hgone := removes_mergeAt ht
    exact hroute.matches_of_removes hid hgone (matches_mergeAt ht) (hgone.hasRule_iff.mp hn).1
  | inline hc hsub =>
    have hgone := removes_inlineAt hc
    exact hroute.matches_of_removes hid hgone (matches_inlineAt hid hI hc)
      (hgone.hasRule_iff.mp hn).1

/-! ### The whole sequence -/

/-- Along rewrites, routes from rules are matched by routes through the first rule
set. -/
theorem matches_rewrite (hid : rs.Identified) (hI : Faithful I) (ws : List Rewrite) :
    (rs.rewrite ws).Identified ∧ ∀ n, (rs.rewrite ws).hasRule n →
      ∀ route, (rs.rewrite ws).Route n route → rs.Matches I n route := by
  refine rewrite_invariant (motive := fun rs' => rs'.Identified ∧ ∀ n, rs'.hasRule n →
    ∀ route, rs'.Route n route → rs.Matches I n route) ?_ ws
    ⟨hid, fun n _ route hroute => ⟨route, hroute, rfl⟩⟩
  rintro rs' r ⟨hid', hold⟩ hr
  refine ⟨hid'.reduces hr, fun n hn route hroute => ?_⟩
  obtain ⟨gone, hgone⟩ := hr.removes
  obtain ⟨middle, hmiddle, hprod⟩ := hroute.reduces hid' hI hr hn
  obtain ⟨first, hfirst, hprod'⟩ := hold n (hgone.hasRule_iff.mp hn).2 middle hmiddle
  exact ⟨first, hfirst, hprod'.trans hprod⟩

/-- Every word after any rewrites belongs to a route through the first rule set,
whatever has successors there and whatever they are. -/
theorem mem_routeLanguage_of_mem_rewrite (hid : rs.Identified) (hI : Faithful I)
    (ws : List Rewrite) (n : String) :
    ∀ w ∈ (rs.rewrite ws).language I n, w ∈ rs.routeLanguage I n := by
  intro w (hw : (rs.rewrite ws).Generates I n w)
  obtain ⟨route, hroute, hmem⟩ := exists_route_of_generates hw
  obtain ⟨first, hfirst, hprod⟩ := (matches_rewrite hid hI ws).2 n hw.hasRule route hroute
  exact ⟨first, hfirst, hprod ▸ hmem⟩

/-- The letter that is inlined has lost the digit behind it, and what is left is a
route that stops at the letter. -/
theorem mem_routeLanguage_optionalLetter :
    optionalLetterRules.Identified ∧ Faithful spelled ∧
      spelling "[a-zA-Z]" ∈
        (optionalLetterRules.rewrite [.inline]).language spelled Name.root ∧
      spelling "[a-zA-Z]" ∈ optionalLetterRules.routeLanguage spelled Name.root := by
  have hid : optionalLetterRules.Identified := by
    have hkeys : ∀ n ∈ optionalLetterRules.rules.keys, Name.IsIdentifier n := by decide
    exact fun n hn => hkeys n ((Table.contains_iff_mem_keys _ _).mp hn)
  have hmem : spelling "[a-zA-Z]" ∈
      (optionalLetterRules.rewrite [.inline]).language spelled Name.root :=
    .fragment (t := "[a-zA-Z]") (u := []) (by decide +kernel) (mem_spelled.mpr (by decide +kernel))
      (by decide +kernel) (by decide) (by decide +kernel) rfl
  exact ⟨hid, faithful_spelled, hmem,
    mem_routeLanguage_of_mem_rewrite hid faithful_spelled [.inline] Name.root _ hmem⟩

end GrammarDiagram.RuleSet
