/-
GrammarDiagram/Proofs/Ranking.lean

The winner of a cycle under the geometric ranking, for places on a grid.

On a grid keys are compared like the entries of a dictionary (`exceeds_parts`),
and the winner has the greatest one (`exists_winner?`).  How far an edge runs to
the left is the first part of its key, so no edge of a cycle runs further to the
left than the winner.  A coordinate that does not decrease along any edge of a
cycle is the same all round (`IsCycle.const_of_le`).  Hence some edge of a cycle
counts as running to the left unless all its ids are at one place
(`exists_leftward_pos_iff`).
-/
import GrammarDiagram.Cycle.Feedback
import GrammarDiagram.Proofs.Search
import Mathlib.Data.Prod.Lex
import Mathlib.Data.String.Basic

namespace GrammarDiagram

/-! ### Round a cycle -/

namespace IsCycle

variable {edges cycle : List Edge}

/-- Every edge of a cycle leads to one. -/
theorem exists_source_eq (h : IsCycle edges cycle) {e : Edge} (he : e ∈ cycle) :
    ∃ e' ∈ cycle, e'.source = e.target := by
  obtain ⟨before, after, rfl⟩ := List.append_of_mem he
  rcases after with - | ⟨e', after⟩
  · -- the last edge leads to the first one
    obtain ⟨first, hfirst⟩ : ∃ first, (before ++ [e]).head? = some first :=
      Option.isSome_iff_exists.mp (by simp)
    have hlast : (before ++ [e]).getLast? = some e := List.getLast?_concat
    exact ⟨first, List.mem_of_head? hfirst, (h.closed first hfirst e hlast).symm⟩
  · refine ⟨e', by simp, ?_⟩
    exact (List.isChain_append.mp h.chain).2.1.rel.symm

/-- What does not decrease along any edge stays the same all round. -/
theorem const_of_le (h : IsCycle edges cycle) {x : String → Int}
    (hle : ∀ e ∈ cycle, x e.source ≤ x e.target) : ∃ v, ∀ e ∈ cycle, x e.source = v := by
  have hsorted : (cycle.map fun e => x e.source).Pairwise (· ≤ ·) := by
    refine List.IsChain.pairwise ((List.isChain_map _).mpr ?_)
    refine h.chain.imp_of_mem_imp fun e e' he _ hstep => ?_
    rw [← hstep]
    exact hle e he
  obtain ⟨first, rest, rfl⟩ := List.exists_cons_of_ne_nil h.ne_nil
  rcases List.eq_nil_or_concat (first :: rest) with hnil | ⟨front, last, hcycle⟩
  · cases hnil
  · rw [List.concat_eq_append] at hcycle
    have hlow : ∀ e ∈ first :: rest, x first.source ≤ x e.source := by
      rw [List.map_cons, List.pairwise_cons] at hsorted
      refine List.forall_mem_cons.mpr ⟨Int.le_refl _, fun e he => ?_⟩
      exact hsorted.1 _ (List.mem_map_of_mem he)
    have hhigh : ∀ e ∈ first :: rest, x e.source ≤ x last.source := by
      intro e he
      rw [hcycle] at hsorted he
      rw [List.map_append, List.pairwise_append] at hsorted
      rcases List.mem_append.mp he with he | he
      · exact hsorted.2.2 _ (List.mem_map_of_mem he) _ (by simp)
      · exact Int.le_of_eq (by rw [List.mem_singleton.mp he])
    -- the last edge leads back to the first id
    have hlast : last ∈ first :: rest := by rw [hcycle]; simp
    have hback : last.target = first.source :=
      h.closed first rfl last (by rw [hcycle]; exact List.getLast?_concat)
    refine ⟨x first.source, fun e he => Int.le_antisymm ?_ (hlow e he)⟩
    calc x e.source ≤ x last.source := hhigh e he
      _ ≤ x last.target := hle last hlast
      _ = x first.source := by rw [hback]

end IsCycle

/-! ### Places on a grid -/

/-- The place with these coordinates. -/
def gridPlace (p : Int × Int) : Position := ⟨.int p.1, .int p.2⟩

/-- How far it is to the left from one place to another; straight up counts as
one, anything else on a vertical line as minus one. -/
def leftward (p q : Int × Int) : Int :=
  if p.1 = q.1 then if q.2 < p.2 then 1 else -1 else p.1 - q.1

theorem leftward_ne_zero (p q : Int × Int) : leftward p q ≠ 0 := by
  unfold leftward
  split
  · split <;> decide
  · omega

variable {edges cycle : List Edge}

/-- Some edge of a cycle runs to the left unless the cycle is at one place. -/
theorem exists_leftward_pos_iff (h : IsCycle edges cycle) (place : String → Int × Int) :
    (∃ e ∈ cycle, 0 < leftward (place e.source) (place e.target)) ↔
      ¬ ∃ p, ∀ e ∈ cycle, place e.source = p := by
  constructor
  · rintro ⟨e, he, hpos⟩ ⟨p, hp⟩
    obtain ⟨e', he', hnext⟩ := h.exists_source_eq he
    rw [← hnext, hp e he, hp e' he'] at hpos
    simp [leftward] at hpos
  · intro hplaces
    by_contra hnone
    push Not at hnone
    -- no edge runs to the left, so all are vertical; and then none runs upwards
    have hx : ∀ e ∈ cycle, (place e.source).1 ≤ (place e.target).1 := by
      intro e he
      have hle := hnone e he
      unfold leftward at hle
      split at hle
      · omega
      · omega
    obtain ⟨x, hconst⟩ := h.const_of_le (x := fun id => (place id).1) hx
    have hvertical : ∀ e ∈ cycle, (place e.source).1 = (place e.target).1 := by
      intro e he
      obtain ⟨e', he', hnext⟩ := h.exists_source_eq he
      rw [← hnext, hconst e he, hconst e' he']
    have hy : ∀ e ∈ cycle, (place e.source).2 ≤ (place e.target).2 := by
      intro e he
      have hle := hnone e he
      rw [leftward, if_pos (hvertical e he)] at hle
      split at hle
      · omega
      · omega
    obtain ⟨y, hconst'⟩ := h.const_of_le (x := fun id => (place id).2) hy
    exact hplaces ⟨(x, y), fun e he => Prod.ext (hconst e he) (hconst' e he)⟩

/-! ### Keys on a grid -/

theorem greater_int (a b : Int) : (Number.int a).greater (.int b) = decide (b < a) := by
  rw [Bool.eq_iff_iff, decide_eq_true_iff]
  simp [Number.greater, Int.compare_eq_gt]

theorem greater?_int (a b : Int) : (Value.int a).greater? (.int b) = some (decide (b < a)) := by
  simp [Value.greater?, Value.number?, greater_int]

theorem isBelow_gridPlace (p q : Int × Int) :
    Geometric.isBelow (gridPlace p) (gridPlace q) = .ok (decide (q.2 < p.2)) := by
  simp [Geometric.isBelow, gridPlace, greater?_int]

theorem score_gridPlace (p q : Int × Int) :
    Geometric.score (gridPlace p) (gridPlace q) = .ok (.int (leftward p q)) := by
  have hscore : Geometric.score (gridPlace p) (gridPlace q) =
      if (Number.int (p.1 - q.1)).isZero then
        Geometric.isBelow (gridPlace p) (gridPlace q) >>= fun b => .ok (.int (if b then 1 else -1))
      else .ok (.int (p.1 - q.1)) := rfl
  rw [hscore, isBelow_gridPlace, leftward]
  by_cases hx : p.1 = q.1
  · -- on a vertical line the score tells up from down
    rw [if_pos (by simp [Number.isZero, hx]), if_pos hx]
    show Except.ok (Number.int (if decide (q.2 < p.2) then 1 else -1)) = _
    simp only [decide_eq_true_eq]
  · have hne : ¬ (Number.int (p.1 - q.1)).isZero := by
      simp only [Number.isZero, beq_iff_eq]
      omega
    rw [if_neg hne, if_neg hx]

/-- A key on a grid: how far an edge runs to the left, its height, whether it runs
upwards, and its source. -/
abbrev GridKey : Type := Int ×ₗ Int ×ₗ Bool ×ₗ String

/-- The parts of a key on a grid. -/
def GridKey.parts (k : GridKey) : List KeyPart :=
  let (left, rest) := ofLex k
  let (height, rest) := ofLex rest
  let (below, source) := ofLex rest
  [.number (.int left), .number (.int height), .flag below, .text source]

/-- The key of an edge between two places. -/
def gridKey (e : Edge) (p q : Int × Int) : GridKey :=
  toLex (leftward p q, toLex (((p.2 - q.2).natAbs : Int), toLex (decide (q.2 < p.2), e.source)))

theorem sortKey_gridPlace (e : Edge) (p q : Int × Int) :
    Geometric.sortKey e (gridPlace p) (gridPlace q) = .ok (gridKey e p q).parts := by
  unfold Geometric.sortKey
  rw [score_gridPlace, isBelow_gridPlace]
  rfl

/-- Loops run backward, and other edges do if they run to the left. -/
theorem isBackward_gridPlace (e : Edge) (p q : Int × Int) :
    Geometric.isBackward e (gridPlace p) (gridPlace q) =
      .ok (e.isSelfLoop || decide (0 < leftward p q)) := by
  unfold Geometric.isBackward
  by_cases hloop : e.isSelfLoop
  · simp [hloop]
  · rw [if_neg hloop, score_gridPlace]
    have hisZero : (Number.int (leftward p q)).isZero = false := by
      simpa [Number.isZero] using leftward_ne_zero p q
    show (if (Number.int (leftward p q)).greater (.int 0) then Except.ok true
      else if (Number.int (leftward p q)).isZero then Geometric.isBelow (gridPlace p) (gridPlace q)
      else .ok false) = _
    rw [greater_int, hisZero]
    by_cases hpos : 0 < leftward p q <;> simp [hpos, hloop]

/-- The first part of two keys decides, unless it is the same. -/
theorem exceeds_cons_iff {α : Type*} [Preorder α] {x y : α} {a b : KeyPart}
    (hequal : a.equal b ↔ x = y) (hgreater : a.greater b ↔ y < x) (as bs : List KeyPart) :
    KeyPart.exceeds (a :: as) (b :: bs) ↔ y < x ∨ y = x ∧ KeyPart.exceeds as bs := by
  rw [KeyPart.exceeds]
  by_cases hxy : x = y
  · simp [hequal.mpr hxy, hxy]
  · rw [if_neg (mt hequal.mp hxy), hgreater]
    simp [Ne.symm hxy]

theorem equal_number_iff (a b : Int) :
    (KeyPart.number (.int a)).equal (.number (.int b)) ↔ a = b := by
  simp [KeyPart.equal, Number.equal]

theorem greater_number_iff (a b : Int) :
    (KeyPart.number (.int a)).greater (.number (.int b)) ↔ b < a := by
  simp [KeyPart.greater, greater_int]

theorem equal_flag_iff (a b : Bool) : (KeyPart.flag a).equal (.flag b) ↔ a = b := by
  simp [KeyPart.equal]

theorem greater_flag_iff (a b : Bool) : (KeyPart.flag a).greater (.flag b) ↔ b < a := by
  simp [KeyPart.greater, Bool.lt_iff, and_comm]

theorem equal_text_iff (a b : String) : (KeyPart.text a).equal (.text b) ↔ a = b := by
  simp [KeyPart.equal]

theorem greater_text_iff (a b : String) : (KeyPart.text a).greater (.text b) ↔ b < a := by
  simp [KeyPart.greater]

/-- Keys on a grid are compared like the entries of a dictionary. -/
theorem exceeds_parts (k k' : GridKey) : KeyPart.exceeds k.parts k'.parts ↔ k' < k := by
  rw [GridKey.parts, GridKey.parts,
    exceeds_cons_iff (equal_number_iff _ _) (greater_number_iff _ _),
    exceeds_cons_iff (equal_number_iff _ _) (greater_number_iff _ _),
    exceeds_cons_iff (equal_flag_iff _ _) (greater_flag_iff _ _),
    exceeds_cons_iff (equal_text_iff _ _) (greater_text_iff _ _)]
  simp only [KeyPart.exceeds, Bool.false_eq_true, and_false, or_false, Prod.Lex.lt_iff]

/-! ### Winners -/

section Winner

variable {r : Ranking} {positions : Table Position} {key : Edge → GridKey}

/-- No edge has a greater key than the leader. -/
theorem exists_leader (best : Edge) {rest : List Edge}
    (hrest : ∀ e ∈ rest, r.keyAt positions e = .ok (key e).parts) :
    ∃ w ∈ best :: rest, r.leader positions best (key best).parts rest = .ok w ∧
      ∀ e ∈ best :: rest, key e ≤ key w := by
  induction rest generalizing best with
  | nil => exact ⟨best, List.mem_cons_self, rfl, by simp⟩
  | cons e rest ih =>
    obtain ⟨hkey, hrest⟩ := List.forall_mem_cons.mp hrest
    have hleader : r.leader positions best (key best).parts (e :: rest) =
        if KeyPart.exceeds (key e).parts (key best).parts then
          r.leader positions e (key e).parts rest
        else r.leader positions best (key best).parts rest := by
      rw [Ranking.leader, hkey]
      rfl
    rw [hleader]
    split
    · -- the next edge takes the lead
      rename_i hexceeds
      obtain ⟨w, hw, hresult, hmax⟩ := ih e hrest
      refine ⟨w, List.mem_cons_of_mem _ hw, hresult, ?_⟩
      have hbest : key best ≤ key w :=
        ((exceeds_parts _ _).mp hexceeds).le.trans (hmax e List.mem_cons_self)
      exact List.forall_mem_cons.mpr ⟨hbest, hmax⟩
    · -- the leader stays
      rename_i hnot
      obtain ⟨w, hw, hresult, hmax⟩ := ih best hrest
      obtain ⟨hbest, hmax⟩ := List.forall_mem_cons.mp hmax
      have he : key e ≤ key w := (not_lt.mp (mt (exceeds_parts _ _).mpr hnot)).trans hbest
      refine ⟨w, ?_, hresult,
        List.forall_mem_cons.mpr ⟨hbest, List.forall_mem_cons.mpr ⟨he, hmax⟩⟩⟩
      rcases List.mem_cons.mp hw with rfl | hw
      · exact List.mem_cons_self
      · exact List.mem_cons_of_mem _ (List.mem_cons_of_mem _ hw)

theorem exists_winner? (hne : cycle ≠ [])
    (hcycle : ∀ e ∈ cycle, r.keyAt positions e = .ok (key e).parts) :
    ∃ w ∈ cycle, r.winner? positions cycle = .ok (some w) ∧ ∀ e ∈ cycle, key e ≤ key w := by
  obtain ⟨first, rest, rfl⟩ := List.exists_cons_of_ne_nil hne
  obtain ⟨hkey, hrest⟩ := List.forall_mem_cons.mp hcycle
  obtain ⟨w, hw, hleader, hmax⟩ := exists_leader first hrest
  refine ⟨w, hw, ?_, hmax⟩
  rw [Ranking.winner?, hkey]
  show (r.leader positions first _ rest >>= fun w => .ok (some w)) = _
  rw [hleader]
  rfl

end Winner

/-- On a grid every cycle has a winner, and it runs backward if it is a loop or
the cycle is not at one place. -/
theorem exists_geometric_winner {positions : Table Position} (h : IsCycle edges cycle)
    (place : String → Int × Int)
    (hgrid : ∀ e ∈ cycle, positions.placeOf e.source = gridPlace (place e.source)) :
    ∃ w ∈ cycle, Ranking.geometric.winner? positions cycle = .ok (some w) ∧
      ∃ b, Ranking.geometric.isBackward w (positions.placeOf w.source)
          (positions.placeOf w.target) = .ok b ∧
        (b = true ↔ w.isSelfLoop ∨ ¬ ∃ p, ∀ e ∈ cycle, place e.source = p) := by
  have htarget : ∀ e ∈ cycle, positions.placeOf e.target = gridPlace (place e.target) := by
    intro e he
    obtain ⟨e', he', hnext⟩ := h.exists_source_eq he
    rw [← hnext]
    exact hgrid e' he'
  have hkeys : ∀ e ∈ cycle, Ranking.geometric.keyAt positions e =
      .ok (gridKey e (place e.source) (place e.target)).parts := by
    intro e he
    have hkey := sortKey_gridPlace e (place e.source) (place e.target)
    rwa [← hgrid e he, ← htarget e he] at hkey
  obtain ⟨w, hw, hwinner, hmax⟩ := exists_winner? h.ne_nil hkeys
  have hbackward := isBackward_gridPlace w (place w.source) (place w.target)
  rw [← hgrid w hw, ← htarget w hw] at hbackward
  refine ⟨w, hw, hwinner, _, hbackward, ?_⟩
  rw [← exists_leftward_pos_iff h place, Bool.or_eq_true, decide_eq_true_iff]
  refine or_congr_right ⟨fun hpos => ⟨w, hw, hpos⟩, ?_⟩
  rintro ⟨e, he, hpos⟩
  exact Int.lt_of_lt_of_le hpos (Prod.Lex.monotone_fst _ _ (hmax e he))

end GrammarDiagram
