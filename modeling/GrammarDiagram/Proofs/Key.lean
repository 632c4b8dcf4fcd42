/-
GrammarDiagram/Proofs/Key.lean

What the key of an edge tells of the edge.

A key is made of two to four parts with arrows between them.  Where no part holds
an arrow, the first one in a key is the one behind the first part, even if that part
ends with half an arrow (`append_arrow_inj`); so the parts can be read off the key
(`intercalate_arrow_inj`), and edges with one key have the same parts in the same
order.

What a part stands for cannot always be read off.  Of three parts the second may
be the handle that the edge leaves by and the third its target, or the second its
target and the third the handle that it arrives at.  Two edges that stand for one
key in these two ways *cross* (`Edge.Crosses`), and different edges have one key
only if they do (`key_eq_key_iff`).

The record of an analysis knows an edge by its key alone.  So an edge that crosses
one that is drawn as a loop is drawn as a loop too, although it may lie on no cycle
(`feedback_without_cycle`).
-/
import GrammarDiagram.Proofs.Feedback
import Mathlib.Data.List.Infix

namespace GrammarDiagram

/-! ### Joining by arrows -/

/-- The characters of the arrow between two parts of a key. -/
def arrow : List Char := ['-', '>']

/-- A text that goes on where another one has its arrow would hold that arrow too. -/
theorem eq_nil_of_append_arrow {p more q r : List Char} (hmore : ¬ arrow <:+: p ++ more)
    (h : arrow ++ q = more ++ (arrow ++ r)) : more = [] := by
  rcases more with - | ⟨c, - | ⟨d, more⟩⟩
  · rfl
  · -- a character before an arrow makes no arrow with it
    have hnext : '>' = '-' := (List.cons.inj (List.cons.inj h).2).1
    cases hnext
  · obtain rfl : '-' = c := (List.cons.inj h).1
    obtain rfl : '>' = d := (List.cons.inj (List.cons.inj h).2).1
    exact absurd ⟨p, more, by simp [arrow]⟩ hmore

/-- What comes before the first arrow and what comes after it. -/
theorem append_arrow_inj {p q p' q' : List Char} (hp : ¬ arrow <:+: p) (hp' : ¬ arrow <:+: p')
    (h : p ++ (arrow ++ q) = p' ++ (arrow ++ q')) : p = p' ∧ q = q' := by
  have hsame : p = p' := by
    rcases List.append_eq_append_iff.mp h with ⟨more, rfl, hmore⟩ | ⟨more, rfl, hmore⟩
    · rw [eq_nil_of_append_arrow hp' hmore, List.append_nil]
    · rw [eq_nil_of_append_arrow hp hmore, List.append_nil]
  subst hsame
  exact ⟨rfl, List.append_cancel_left (List.append_cancel_left h)⟩

/-- Parts without arrows can be read off the text that they make up. -/
theorem intercalate_arrow_inj {ps qs : List (List Char)} (hps : ps ≠ []) (hqs : qs ≠ [])
    (hp : ∀ p ∈ ps, ¬ arrow <:+: p) (hq : ∀ q ∈ qs, ¬ arrow <:+: q)
    (h : arrow.intercalate ps = arrow.intercalate qs) : ps = qs := by
  induction ps generalizing qs with
  | nil => exact absurd rfl hps
  | cons p ps ih =>
    obtain ⟨q, qs, rfl⟩ := List.exists_cons_of_ne_nil hqs
    obtain ⟨hpfree, hpsfree⟩ := List.forall_mem_cons.mp hp
    obtain ⟨hqfree, hqsfree⟩ := List.forall_mem_cons.mp hq
    rcases ps with - | ⟨p', ps⟩ <;> rcases qs with - | ⟨q', qs⟩
    · rw [List.intercalate_singleton, List.intercalate_singleton] at h
      rw [h]
    · -- a single part holds no arrow
      rw [List.intercalate_singleton, List.intercalate_cons_cons] at h
      exact absurd (h ▸ List.infix_append q arrow _) hpfree
    · rw [List.intercalate_singleton, List.intercalate_cons_cons] at h
      exact absurd (h ▸ List.infix_append p arrow _) hqfree
    · rw [List.intercalate_cons_cons, List.intercalate_cons_cons, List.append_assoc,
        List.append_assoc] at h
      obtain ⟨rfl, hrest⟩ := append_arrow_inj hpfree hqfree h
      rw [ih (List.cons_ne_nil _ _) (List.cons_ne_nil _ _) hpsfree hqsfree hrest]

/-! ### The parts of a key -/

/-- A text that can be told from the parts beside it: not empty, and without an
arrow. -/
structure IsPart (s : String) : Prop where
  ne_empty : s ≠ ""
  noArrow : ¬ arrow <:+: s.toList

instance (s : String) : Decidable (IsPart s) :=
  decidable_of_iff (s ≠ "" ∧ ¬ arrow <:+: s.toList)
    ⟨fun h => ⟨h.1, h.2⟩, fun h => ⟨h.ne_empty, h.noArrow⟩⟩

/-- A handle that is absent or a part. -/
def IsHandle (v : Value) : Prop := v = .null ∨ ∃ s, v = .text s ∧ IsPart s

/-- The parts that a handle adds to a key. -/
def handleParts : Value → List String
  | .text s => [s]
  | _ => []

theorem IsHandle.handleText_eq {v : Value} (h : IsHandle v) :
    Edge.handleText v = .ok (handleParts v) := by
  rcases h with rfl | ⟨s, rfl, hs⟩
  · rfl
  · simp [Edge.handleText, handleParts, hs.ne_empty]

theorem IsHandle.isPart {v : Value} (h : IsHandle v) {s : String} (hs : s ∈ handleParts v) :
    IsPart s := by
  rcases h with rfl | ⟨t, rfl, ht⟩
  · cases hs
  · rwa [List.mem_singleton.mp hs]

namespace Edge

/-- An edge whose ends are parts, and its handles as far as it has any. -/
structure IsPlain (e : Edge) : Prop where
  source : IsPart e.source
  target : IsPart e.target
  sourceHandle : IsHandle e.sourceHandle
  targetHandle : IsHandle e.targetHandle

/-- What is joined to make the key of an edge. -/
def parts (e : Edge) : List String :=
  e.source :: (handleParts e.sourceHandle ++ e.target :: handleParts e.targetHandle)

/-- One edge leaves by a handle that is called like the target of the other, and the
other arrives at a handle that is called like the target of the first; they have no
other handles. -/
@[mk_iff]
structure Crosses (e e' : Edge) : Prop where
  source : e.source = e'.source
  leaves : e.sourceHandle = .text e'.target
  lands : e.targetHandle = .null
  starts : e'.sourceHandle = .null
  arrives : e'.targetHandle = .text e.target

variable {e e' : Edge}

theorem IsPlain.isPart (h : e.IsPlain) : ∀ s ∈ e.parts, IsPart s := by
  intro s hs
  simp only [parts, List.mem_cons, List.mem_append] at hs
  rcases hs with rfl | hs | rfl | hs
  · exact h.source
  · exact h.sourceHandle.isPart hs
  · exact h.target
  · exact h.targetHandle.isPart hs

/-- A plain edge has a key: its parts with arrows between them. -/
theorem IsPlain.key_eq (h : e.IsPlain) : e.key = .ok (String.intercalate "->" e.parts) := by
  unfold key
  rw [h.sourceHandle.handleText_eq, h.targetHandle.handleText_eq, if_neg h.source.ne_empty,
    if_neg h.target.ne_empty]
  show Except.ok _ = _
  simp [parts]

theorem IsPlain.key_eq_key_iff_parts (h : e.IsPlain) (h' : e'.IsPlain) :
    e.key = e'.key ↔ e.parts = e'.parts := by
  rw [h.key_eq, h'.key_eq, Except.ok.injEq]
  refine ⟨fun hkeys => ?_, congrArg _⟩
  have hchars := congrArg String.toList hkeys
  rw [String.toList_intercalate, String.toList_intercalate] at hchars
  have hlists : e.parts.map String.toList = e'.parts.map String.toList := by
    refine intercalate_arrow_inj (by simp [parts]) (by simp [parts]) ?_ ?_ hchars
    · exact List.forall_mem_map.mpr fun s hs => (h.isPart s hs).noArrow
    · exact List.forall_mem_map.mpr fun s hs => (h'.isPart s hs).noArrow
  exact List.map_injective_iff.mpr (fun _ _ => String.toList_inj.mp) hlists

/-- Crossing edges have the same parts. -/
theorem Crosses.parts_eq (h : e.Crosses e') : e.parts = e'.parts := by
  simp [parts, handleParts, h.source, h.leaves, h.lands, h.starts, h.arrives]

/-- Edges with the same parts are the same edge, or they cross. -/
theorem IsPlain.parts_eq_parts_iff (h : e.IsPlain) (h' : e'.IsPlain) :
    e.parts = e'.parts ↔ e = e' ∨ e.Crosses e' ∨ e'.Crosses e := by
  constructor
  · intro hparts
    obtain ⟨source, target, sourceHandle, targetHandle⟩ := e
    obtain ⟨source', target', sourceHandle', targetHandle'⟩ := e'
    -- the handles that are there are as many on both sides
    rcases h.sourceHandle with rfl | ⟨s, rfl, -⟩ <;>
      rcases h.targetHandle with rfl | ⟨t, rfl, -⟩ <;>
      rcases h'.sourceHandle with rfl | ⟨s', rfl, -⟩ <;>
      rcases h'.targetHandle with rfl | ⟨t', rfl, -⟩ <;>
      grind [parts, handleParts, crosses_iff]
  · rintro (rfl | hcrosses | hcrosses)
    · rfl
    · exact hcrosses.parts_eq
    · exact hcrosses.parts_eq.symm

end Edge

/-- Every plain edge has a key, and different plain edges have the same key exactly
if they cross. -/
theorem key_eq_key_iff {e e' : Edge} (h : e.IsPlain) (h' : e'.IsPlain) :
    (∃ key, e.key = .ok key) ∧ (e.key = e'.key ↔ e = e' ∨ e.Crosses e' ∨ e'.Crosses e) := by
  refine ⟨⟨_, h.key_eq⟩, ?_⟩
  rw [h.key_eq_key_iff_parts h', h.parts_eq_parts_iff h']

/-! ### Edges that cross -/

/-- From `a` to `b` by a handle called `c`. -/
def leavingByC : Edge := { source := "a", target := "b", sourceHandle := .text "c" }

/-- From `a` to a handle of `c` called `b`. -/
def arrivingAtB : Edge := { source := "a", target := "c", targetHandle := .text "b" }

theorem isPlain_leavingByC : leavingByC.IsPlain where
  source := by decide
  target := by decide
  sourceHandle := .inr ⟨"c", rfl, by decide⟩
  targetHandle := .inl rfl

theorem isPlain_arrivingAtB : arrivingAtB.IsPlain where
  source := by decide
  target := by decide
  sourceHandle := .inl rfl
  targetHandle := .inr ⟨"b", rfl, by decide⟩

/-- Ends that look like halves of an arrow. -/
def halfArrows : Edge := { source := "a-", target := ">b" }

theorem isPlain_halfArrows : halfArrows.IsPlain where
  source := by decide
  target := by decide
  sourceHandle := .inl rfl
  targetHandle := .inl rfl

/-- The two edges that cross have one key, and the halves of arrows do not mislead. -/
theorem key_eq_key_iff_leavingByC :
    leavingByC.IsPlain ∧ arrivingAtB.IsPlain ∧ halfArrows.IsPlain ∧
      leavingByC.key = arrivingAtB.key ∧ leavingByC.key ≠ halfArrows.key := by
  have hcrosses := (key_eq_key_iff isPlain_leavingByC isPlain_arrivingAtB).2
  have hhalves := (key_eq_key_iff isPlain_leavingByC isPlain_halfArrows).2
  refine ⟨isPlain_leavingByC, isPlain_arrivingAtB, isPlain_halfArrows,
    hcrosses.mpr (.inr (.inl ⟨rfl, rfl, rfl, rfl, rfl⟩)), fun hkey => ?_⟩
  rcases hhalves.mp hkey with heq | hcross | hcross
  · exact absurd (congrArg Edge.source heq) (by decide)
  · exact absurd hcross.source (by decide)
  · exact absurd hcross.source (by decide)

/-! ### An edge drawn as a loop that lies on no cycle -/

/-- The node `b` is to the left of `a`, and `c` is to the right. -/
def crossingNodes : List Node := [
  { id := "a", kind := .letter, position := gridPlace (10, 0) },
  { id := "b", kind := .letter, position := gridPlace (0, 0) },
  { id := "c", kind := .letter, position := gridPlace (20, 0) }]

/-- To and fro between `a` and `b`, and from `a` on to `c`. -/
def crossingEdges : List Edge := [leavingByC, arrivingAtB, { source := "b", target := "a" }]

/-- No edge leaves `c`. -/
theorem not_mem_cycle_arrivingAtB {cycle : List Edge} (h : IsCycle crossingEdges cycle) :
    arrivingAtB ∉ cycle := by
  intro hmem
  obtain ⟨e, he, hsource⟩ := h.exists_source_eq hmem
  have hedge := h.mem e he
  simp only [crossingEdges, List.mem_cons, List.not_mem_nil, or_false] at hedge
  rcases hedge with rfl | rfl | rfl <;> exact absurd hsource (by decide)

/-- The edge to `c` has the key of the one to `b`.  That one wins a cycle of two edges
and is drawn as a loop, and so is the edge to `c`, which is on no cycle. -/
theorem feedback_without_cycle :
    leavingByC.IsPlain ∧ arrivingAtB.IsPlain ∧ leavingByC.key = arrivingAtB.key ∧
      leavingByC.target ≠ arrivingAtB.target ∧
      (∀ cycle, IsCycle crossingEdges cycle → arrivingAtB ∉ cycle) ∧
      ∃ f, (Feedback.analyze Ranking.geometric crossingNodes crossingEdges).result = .ok f ∧
        f.isFeedback arrivingAtB = .ok true ∧ f.pathLength arrivingAtB = .ok 2 := by
  have hkey : arrivingAtB.key = .ok "a->c->b" := by cbv
  refine ⟨isPlain_leavingByC, isPlain_arrivingAtB, by cbv, by decide,
    fun cycle => not_mem_cycle_arrivingAtB, ?_⟩
  have hanalyze : ∃ f,
      (Feedback.analyze Ranking.geometric crossingNodes crossingEdges).result = .ok f ∧
        decide ("a->c->b" ∈ f.marked ∧ f.pathLengths.get? "a->c->b" = some 2) :=
    Fault.exists_ok_of_any (by decide +kernel)
  obtain ⟨f, hresult, hrecord⟩ := hanalyze
  obtain ⟨hmarked, hlength⟩ := of_decide_eq_true hrecord
  refine ⟨f, hresult, ?_, ?_⟩
  · exact (Feedback.isFeedback_iff hkey).mpr hmarked
  · rw [Feedback.pathLength_of_key hkey, hlength]
    rfl

end GrammarDiagram
