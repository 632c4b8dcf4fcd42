/-
GrammarDiagram/Proofs/Search.lean

What the depth-first search finds.

Everything that it finds is a cycle (`isCycle_of_mem_find`).  It does not find
every cycle: each edge is looked at once and closes one cycle at most.  But
every cycle has an edge that closes a cycle which is found
(`exists_closing_edge`).

`Move` lists what one step can do, and both results are invariants of moves,
which hold of the whole search by `ofGraph_invariant`.
`Sound` says that the path is one, so that the edges behind an id on it form a
cycle with the edge that leads back there.  `Thorough` says that an edge that
was looked at closes a cycle or leads to an id that is done with before its
source is.  When the search is over, an edge of the second kind leads down the
list of the ids that are done with, and no cycle is made of such edges only.
-/
import GrammarDiagram.Cycle.Search
import Mathlib.Data.List.Chain
import Mathlib.Logic.Relation

namespace GrammarDiagram

/-! ### Cycles -/

/-- A cycle of edges that enters no id twice. -/
structure IsCycle (edges cycle : List Edge) : Prop where
  ne_nil : cycle ≠ []
  mem : ∀ e ∈ cycle, e ∈ edges
  chain : cycle.IsChain fun e e' => e.target = e'.source
  closed : ∀ first ∈ cycle.head?, ∀ last ∈ cycle.getLast?, last.target = first.source
  simple : (cycle.map Edge.source).Nodup

/-- Some edge leads from one id to the other. -/
def Arc (edges : List Edge) (x y : String) : Prop := ∃ e ∈ edges, e.source = x ∧ e.target = y

theorem Arc.of_mem {edges : List Edge} {e : Edge} (he : e ∈ edges) : Arc edges e.source e.target :=
  ⟨e, he, rfl, rfl⟩

/-- Edges one after the other lead from the source of the first to the target of
the last. -/
theorem transGen_arc_of_isChain {edges : List Edge} {first last : Edge} {chain : List Edge}
    (hchain : (first :: chain).IsChain fun e e' => e.target = e'.source)
    (hlast : (first :: chain).getLast? = some last) (hmem : ∀ e ∈ first :: chain, e ∈ edges) :
    Relation.TransGen (Arc edges) first.source last.target := by
  rw [List.forall_mem_cons] at hmem
  induction chain generalizing first with
  | nil =>
    cases hlast
    exact .single (.of_mem hmem.1)
  | cons second chain ih =>
    rw [List.isChain_cons_cons] at hchain
    rw [List.getLast?_cons_cons] at hlast
    have hrest := ih hchain.2 hlast (List.forall_mem_cons.mp hmem.2)
    rw [← hchain.1] at hrest
    exact .head (.of_mem hmem.1) hrest

/-- A cycle leads from where its last edge ends back to there. -/
theorem IsCycle.transGen {edges cycle rest : List Edge} (h : IsCycle edges cycle) {last : Edge}
    (hlast : cycle.getLast? = some last) (hrest : ∀ e ∈ cycle, e ∈ rest) :
    Relation.TransGen (Arc rest) last.target last.target := by
  rcases cycle with - | ⟨first, chain⟩
  · cases hlast
  · have hloop := transGen_arc_of_isChain h.chain hlast hrest
    rwa [← h.closed first rfl last hlast] at hloop

theorem IsCycle.exists_last {edges cycle : List Edge} (h : IsCycle edges cycle) :
    ∃ last ∈ cycle, cycle.getLast? = some last :=
  ⟨cycle.getLast h.ne_nil, List.getLast_mem h.ne_nil, List.getLast?_eq_some_getLast h.ne_nil⟩

namespace Cycle

/-! ### Moves -/

/-- What a step of the search can do: leave the last id of the path, or look at
an edge that leaves it, which closes a cycle, leads to an id that is done with,
or is followed. -/
inductive Move : Search → Search → Prop
  | leave {id via below unexplored visited cycles} :
      Move ⟨⟨id, via, []⟩ :: below, unexplored, visited, cycles⟩
        ⟨below, unexplored, id :: visited, cycles⟩
  | close {id via e rest below unexplored visited cycles} :
      e.target ∈ id :: below.map Frame.id →
      Move ⟨⟨id, via, e :: rest⟩ :: below, unexplored, visited, cycles⟩
        ⟨⟨id, via, rest⟩ :: below, unexplored, visited,
          cycles ++ [Search.closedBy (⟨id, via, rest⟩ :: below) e]⟩
  | skip {id via e rest below unexplored visited cycles} :
      e.target ∈ visited →
      Move ⟨⟨id, via, e :: rest⟩ :: below, unexplored, visited, cycles⟩
        ⟨⟨id, via, rest⟩ :: below, unexplored, visited, cycles⟩
  | follow {id via e rest below unexplored visited cycles} :
      e.target ∉ id :: below.map Frame.id → e.target ∉ visited →
      Move ⟨⟨id, via, e :: rest⟩ :: below, unexplored, visited, cycles⟩
        (Search.enter ⟨⟨id, via, rest⟩ :: below, unexplored, visited, cycles⟩ e.target (some e))

theorem move_step {s : Search} (h : s.stack ≠ []) : Move s s.step := by
  obtain ⟨stack, unexplored, visited, cycles⟩ := s
  rcases stack with - | ⟨⟨id, via, pending⟩, below⟩
  · exact absurd rfl h
  · rcases pending with - | ⟨e, rest⟩
    · exact .leave
    · simp only [Search.step, Search.examine, Search.path, List.map_cons, List.contains_iff_mem]
      split
      · rename_i hpath
        exact .close hpath
      · rename_i hpath
        split
        · rename_i hvisited
          exact .skip hvisited
        · rename_i hvisited
          exact .follow hpath hvisited

/-- What moves keep, runs keep. -/
theorem run_invariant {motive : Search → Prop}
    (hmove : ∀ s s', motive s → Move s s' → motive s') (s : Search) (h : motive s) :
    motive s.run := by
  fun_induction Search.run s with
  | case1 s hnil => exact h
  | case2 s hne _ ih => exact ih (hmove _ _ h (move_step hne))

/-- A run ends without a path. -/
@[simp] theorem stack_run (s : Search) : s.run.stack = [] := by
  fun_induction Search.run s with
  | case1 s hnil => exact hnil
  | case2 s hne _ ih => exact ih

/-- Between two starts nothing is on the path. -/
theorem stack_searchFrom {s : Search} (h : s.stack = []) (id : String) :
    (s.searchFrom id).stack = [] := by
  unfold Search.searchFrom
  split
  · exact h
  · exact stack_run _

/-- What starts and moves keep, the whole search has in the end. -/
theorem ofGraph_invariant {motive : Search → Prop} {nodes : List Node} {edges : List Edge}
    (hinit : motive { unexplored := edges })
    (hstart : ∀ s, ∀ n ∈ nodes, motive s → s.stack = [] → n.id ∉ s.visited →
      motive (s.enter n.id none))
    (hmove : ∀ s s', motive s → Move s s' → motive s') :
    motive (Search.ofGraph nodes edges) ∧ (Search.ofGraph nodes edges).stack = [] := by
  refine List.foldlRecOn nodes _ (motive := fun s => motive s ∧ s.stack = []) ⟨hinit, rfl⟩ ?_
  rintro s ⟨h, hstack⟩ n hn
  refine ⟨?_, stack_searchFrom hstack n.id⟩
  unfold Search.searchFrom
  split
  · exact h
  · rename_i hvisited
    rw [List.contains_iff_mem] at hvisited
    exact run_invariant hmove _ (hstart s n hn h hstack hvisited)

/-! ### Everything found is a cycle -/

/-- An id fits on a path: as its first id, or through an edge from the last one. -/
def Attached (edges : List Edge) (id : String) (via : Option Edge) : List Frame → Prop
  | [] => via = none
  | f :: _ => ∃ e ∈ edges, via = some e ∧ e.source = f.id ∧ e.target = id

/-- A stack of frames is a path. -/
def IsPath (edges : List Edge) : List Frame → Prop
  | [] => True
  | f :: below => Attached edges f.id f.via below ∧ IsPath edges below

/-- The frames are those of a path that enters no id twice, edges wait where they
belong, and what was found are cycles. -/
structure Sound (edges : List Edge) (s : Search) : Prop where
  isPath : IsPath edges s.stack
  nodup : s.path.Nodup
  pending : ∀ f ∈ s.stack, ∀ e ∈ f.pending, e ∈ edges ∧ e.source = f.id
  unexplored : ∀ e ∈ s.unexplored, e ∈ edges
  cycles : ∀ c ∈ s.cycles, IsCycle edges c

variable {edges : List Edge}

/-- Edges one after the other, from an id to the end of the last edge. -/
structure Trail (edges : List Edge) (start : String) (last : Edge) (trail : List Edge) : Prop where
  mem : ∀ e ∈ trail, e ∈ edges
  chain : trail.IsChain fun e e' => e.target = e'.source
  head : ∀ first ∈ trail.head?, first.source = start
  last : trail.getLast? = some last
  simple : (trail.map Edge.source).Nodup

theorem Trail.single {e : Edge} (he : e ∈ edges) : Trail edges e.source e [e] where
  mem := by simpa using he
  chain := .singleton e
  head := by simp
  last := rfl
  simple := by simp

theorem Trail.cons {start : String} {e last : Edge} {trail : List Edge}
    (h : Trail edges start last trail) (he : e ∈ edges) (htarget : e.target = start)
    (hnew : e.source ∉ trail.map Edge.source) : Trail edges e.source last (e :: trail) where
  mem := List.forall_mem_cons.mpr ⟨he, h.mem⟩
  chain := by
    rw [List.isChain_cons]
    exact ⟨fun first hfirst => htarget.trans (h.head first hfirst).symm, h.chain⟩
  head := by simp
  last := by rw [List.getLast?_cons, h.last]; rfl
  simple := List.nodup_cons.mpr ⟨hnew, h.simple⟩

theorem Trail.isCycle {last : Edge} {trail : List Edge}
    (h : Trail edges last.target last trail) : IsCycle edges trail where
  ne_nil := by
    rintro rfl
    cases h.last
  mem := h.mem
  chain := h.chain
  closed := by
    intro first hfirst last' hlast'
    have hsame : last = last' := Option.some.inj (h.last.symm.trans hlast')
    rw [h.head first hfirst, hsame]
  simple := h.simple

/-- Back to an id on the path and from there along the path: a trail that begins
at the end of the path becomes a cycle. -/
theorem Trail.isCycle_of_isPath {last : Edge} (f : Frame) (below : List Frame)
    (hpath : IsPath edges (f :: below)) (hnodup : ((f :: below).map Frame.id).Nodup)
    (hback : last.target ∈ (f :: below).map Frame.id) {trail : List Edge}
    (htrail : Trail edges f.id last trail)
    (hnew : ∀ e ∈ trail, e.source ∉ below.map Frame.id) :
    IsCycle edges ((((f :: below).takeWhile fun g => g.id != last.target).filterMap
      Frame.via).reverse ++ trail) := by
  -- the trail grows downwards along the stack until it reaches the id
  induction below generalizing f trail with
  | nil =>
    have hid : last.target = f.id := by simpa using hback
    rw [List.takeWhile_cons_of_neg (by simp [hid])]
    rw [← hid] at htrail
    exact htrail.isCycle
  | cons g below ih =>
    by_cases hid : f.id = last.target
    · rw [List.takeWhile_cons_of_neg (by simp [hid])]
      rw [hid] at htrail
      exact htrail.isCycle
    · obtain ⟨⟨e, he, hvia, hsource, htarget⟩, hbelow⟩ := hpath
      rw [List.map_cons, List.nodup_cons] at hnodup
      have hback' : last.target ∈ (g :: below).map Frame.id := by
        rw [List.map_cons, List.mem_cons] at hback
        exact hback.resolve_left fun h => hid h.symm
      have hfree : e.source ∉ trail.map Edge.source := by
        rw [hsource]
        intro hmem
        obtain ⟨e', he', hsame⟩ := List.mem_map.mp hmem
        exact hnew e' he' (by simp [hsame])
      have hgrown : Trail edges g.id last (e :: trail) := hsource ▸ htrail.cons he htarget hfree
      have hnew' : ∀ e' ∈ e :: trail, e'.source ∉ below.map Frame.id := by
        rw [List.forall_mem_cons, hsource]
        refine ⟨(List.nodup_cons.mp hnodup.2).1, fun e' he' hmem => ?_⟩
        exact hnew e' he' (List.mem_cons_of_mem _ hmem)
      have hcycle := ih g hbelow hnodup.2 hback' hgrown hnew'
      rw [List.takeWhile_cons_of_pos (by simpa using hid), List.filterMap_cons, hvia]
      simpa using hcycle

namespace Sound

variable {s : Search} {id : String} {via : Option Edge} {e : Edge} {rest : List Edge}
  {below : List Frame} {unexplored : List Edge} {visited : List String}
  {cycles : List (List Edge)}

theorem isCycle_closedBy
    (h : Sound edges ⟨⟨id, via, rest⟩ :: below, unexplored, visited, cycles⟩) (he : e ∈ edges)
    (hsource : e.source = id) (htarget : e.target ∈ id :: below.map Frame.id) :
    IsCycle edges (Search.closedBy (⟨id, via, rest⟩ :: below) e) := by
  have hnodup : (id :: below.map Frame.id).Nodup := h.nodup
  refine Trail.isCycle_of_isPath _ below h.isPath hnodup htarget (hsource ▸ Trail.single he) ?_
  rw [List.forall_mem_singleton, hsource]
  exact (List.nodup_cons.mp hnodup).1

/-- Looking at an edge takes it from the frame on top. -/
theorem look (h : Sound edges ⟨⟨id, via, e :: rest⟩ :: below, unexplored, visited, cycles⟩) :
    (e ∈ edges ∧ e.source = id) ∧
      Sound edges ⟨⟨id, via, rest⟩ :: below, unexplored, visited, cycles⟩ := by
  obtain ⟨htop, hbelow⟩ := List.forall_mem_cons.mp h.pending
  obtain ⟨he, hrest⟩ := List.forall_mem_cons.mp htop
  exact ⟨he, h.isPath, h.nodup, List.forall_mem_cons.mpr ⟨hrest, hbelow⟩, h.unexplored, h.cycles⟩

theorem enter (h : Sound edges s) (hid : id ∉ s.path) (hvia : Attached edges id via s.stack) :
    Sound edges (s.enter id via) where
  isPath := ⟨hvia, h.isPath⟩
  nodup := List.nodup_cons.mpr ⟨hid, h.nodup⟩
  pending := by
    refine List.forall_mem_cons.mpr ⟨fun e he => ?_, h.pending⟩
    obtain ⟨hmem, hsource⟩ := List.mem_filter.mp he
    exact ⟨h.unexplored e hmem, eq_of_beq hsource⟩
  unexplored := fun e he => h.unexplored e (List.mem_of_mem_filter he)
  cycles := h.cycles

/-- Moves keep the search sound. -/
theorem move {s s' : Search} (h : Sound edges s) (hmove : Move s s') : Sound edges s' := by
  cases hmove with
  | leave =>
    exact ⟨h.isPath.2, (List.nodup_cons.mp h.nodup).2, (List.forall_mem_cons.mp h.pending).2,
      h.unexplored, h.cycles⟩
  | close htarget =>
    obtain ⟨⟨he, hsource⟩, hlook⟩ := h.look
    have hcycle := hlook.isCycle_closedBy he hsource htarget
    refine ⟨hlook.isPath, hlook.nodup, hlook.pending, hlook.unexplored, ?_⟩
    rw [List.forall_mem_append]
    exact ⟨hlook.cycles, List.forall_mem_singleton.mpr hcycle⟩
  | skip => exact h.look.2
  | follow hpath =>
    obtain ⟨⟨he, hsource⟩, hlook⟩ := h.look
    exact hlook.enter hpath ⟨_, he, rfl, hsource, rfl⟩

theorem init (edges : List Edge) : Sound edges { unexplored := edges } :=
  ⟨trivial, List.nodup_nil, by simp, fun _ he => he, by simp⟩

theorem start (h : Sound edges s) (hstack : s.stack = []) (id : String) :
    Sound edges (s.enter id none) := by
  refine h.enter ?_ ?_
  · rw [Search.path, hstack]
    exact List.not_mem_nil
  · rw [hstack]
    rfl

end Sound

/-! ### Every cycle has a closing edge -/

/-- An edge is the last one of a cycle that was found. -/
def Closes (cycles : List (List Edge)) (e : Edge) : Prop := ∃ c ∈ cycles, c.getLast? = some e

/-- Of the ids that are done with, the last one first, each has only edges that
close cycles or lead to ids done with before. -/
def Settled (edges : List Edge) (cycles : List (List Edge)) : List String → Prop
  | [] => True
  | x :: before =>
    (∀ e ∈ edges, e.source = x → Closes cycles e ∨ e.target ∈ before) ∧
      Settled edges cycles before

/-- Of the ids on a path, each has only edges that are pending, close cycles, or
lead to ids that are done with or to the next id. -/
def Examined (edges : List Edge) (cycles : List (List Edge)) (visited : List String) :
    Option String → List Frame → Prop
  | _, [] => True
  | next, f :: below =>
    (∀ e ∈ edges, e.source = f.id →
      e ∈ f.pending ∨ Closes cycles e ∨ e.target ∈ visited ∨ next = some e.target) ∧
      Examined edges cycles visited (some f.id) below

/-- No edge is forgotten, where `next` is the id that is about to be entered. -/
structure Thorough (edges : List Edge) (next : Option String) (s : Search) : Prop where
  waiting : ∀ e ∈ edges, e.source ∈ s.path ∨ e.source ∈ s.visited ∨ e ∈ s.unexplored
  examined : Examined edges s.cycles s.visited next s.stack
  settled : Settled edges s.cycles s.visited

section Mono

variable {cycles cycles' : List (List Edge)} (hcycles : ∀ e, Closes cycles e → Closes cycles' e)
include hcycles

theorem Settled.mono {visited : List String} (h : Settled edges cycles visited) :
    Settled edges cycles' visited := by
  induction visited with
  | nil => trivial
  | cons x before ih =>
    refine ⟨fun e he hsource => ?_, ih h.2⟩
    exact (h.1 e he hsource).imp_left (hcycles e)

theorem Examined.mono {visited visited' : List String} {next next' : Option String}
    {stack : List Frame} (hvisited : ∀ x ∈ visited, x ∈ visited')
    (hnext : ∀ x, next = some x → x ∈ visited' ∨ next' = some x)
    (h : Examined edges cycles visited next stack) :
    Examined edges cycles' visited' next' stack := by
  induction stack generalizing next next' with
  | nil => trivial
  | cons f below ih =>
    refine ⟨fun e he hsource => ?_, ih (fun x hx => .inr hx) h.2⟩
    rcases h.1 e he hsource with hpending | hcloses | hdone | habove
    · exact .inl hpending
    · exact .inr (.inl (hcycles e hcloses))
    · exact .inr (.inr (.inl (hvisited _ hdone)))
    · exact .inr (.inr (hnext _ habove))

end Mono

namespace Thorough

variable {s : Search} {id : String} {via : Option Edge} {e : Edge} {rest : List Edge}
  {below : List Frame} {unexplored : List Edge} {visited : List String}
  {cycles : List (List Edge)}

theorem found {next : Option String} {stack : List Frame}
    (h : Thorough edges next ⟨stack, unexplored, visited, cycles⟩) (c : List Edge) :
    Thorough edges next ⟨stack, unexplored, visited, cycles ++ [c]⟩ := by
  have hcycles : ∀ e, Closes cycles e → Closes (cycles ++ [c]) e := by
    rintro e ⟨c', hc', hlast⟩
    exact ⟨c', List.mem_append_left _ hc', hlast⟩
  exact ⟨h.waiting, h.examined.mono hcycles (fun _ hx => hx) fun _ hx => .inr hx,
    h.settled.mono hcycles⟩

/-- An edge may be taken from the frame on top once it is known where it leads. -/
theorem look {next : Option String}
    (h : Thorough edges none ⟨⟨id, via, e :: rest⟩ :: below, unexplored, visited, cycles⟩)
    (he : Closes cycles e ∨ e.target ∈ visited ∨ next = some e.target) :
    Thorough edges next ⟨⟨id, via, rest⟩ :: below, unexplored, visited, cycles⟩ := by
  obtain ⟨hwaiting, ⟨htop, hbelow⟩, hsettled⟩ := h
  refine ⟨hwaiting, ⟨fun e' he' hsource => ?_, hbelow⟩, hsettled⟩
  rcases htop e' he' hsource with hpending | hcloses | hdone | habove
  · rcases List.mem_cons.mp hpending with rfl | hpending
    · exact .inr he
    · exact .inl hpending
  · exact .inr (.inl hcloses)
  · exact .inr (.inr (.inl hdone))
  · cases habove

/-- All edges of an id that is entered for the first time are pending. -/
theorem enter (h : Thorough edges (some id) s) (hpath : id ∉ s.path) (hvisited : id ∉ s.visited) :
    Thorough edges none (s.enter id via) where
  waiting := by
    intro e he
    by_cases hsource : e.source = id
    · exact .inl (hsource ▸ List.mem_cons_self)
    · rcases h.waiting e he with hon | hdone | hwait
      · exact .inl (List.mem_cons_of_mem _ hon)
      · exact .inr (.inl hdone)
      · exact .inr (.inr (List.mem_filter.mpr ⟨hwait, by simpa using hsource⟩))
  examined := by
    refine ⟨fun e he (hsource : e.source = id) => .inl ?_, h.examined⟩
    -- no edge of the id can have been taken out before
    have hwait : e ∈ s.unexplored := by
      rcases h.waiting e he with hon | hdone | hwait
      · exact absurd (hsource ▸ hon) hpath
      · exact absurd (hsource ▸ hdone) hvisited
      · exact hwait
    exact List.mem_filter.mpr ⟨hwait, by simpa using hsource⟩
  settled := h.settled

/-- Moves keep the search thorough. -/
theorem move {s s' : Search} (h : Thorough edges none s) (hmove : Move s s') :
    Thorough edges none s' := by
  cases hmove with
  | leave =>
    rename_i id via below unexplored visited cycles
    obtain ⟨hwaiting, ⟨htop, hbelow⟩, hsettled⟩ := h
    -- the id that is left is done with now, and it has no pending edge
    refine ⟨fun e he => ?_, ?_, fun e he hsource => ?_, hsettled⟩
    · rcases hwaiting e he with hon | hdone | hwait
      · rcases List.mem_cons.mp hon with hsource | hon
        · exact .inr (.inl (hsource ▸ List.mem_cons_self))
        · exact .inl hon
      · exact .inr (.inl (List.mem_cons_of_mem _ hdone))
      · exact .inr (.inr hwait)
    · refine hbelow.mono (fun _ h => h) (fun x => List.mem_cons_of_mem _) fun x hx => .inl ?_
      cases hx
      exact List.mem_cons_self
    · rcases htop e he hsource with hpending | hcloses | hdone | habove
      · cases hpending
      · exact .inl hcloses
      · exact .inr hdone
      · cases habove
  | close htarget =>
    refine (h.found _).look (.inl ⟨_, List.mem_append_right _ List.mem_cons_self, ?_⟩)
    rw [Search.closedBy, List.getLast?_concat]
  | skip htarget => exact h.look (.inr (.inl htarget))
  | follow hpath hvisited => exact (h.look (.inr (.inr rfl))).enter hpath hvisited

theorem start (h : Thorough edges none s) (hstack : s.stack = []) (hvisited : id ∉ s.visited) :
    Thorough edges none (s.enter id none) := by
  refine enter ⟨h.waiting, ?_, h.settled⟩ ?_ hvisited
  · rw [hstack]
    trivial
  · rw [Search.path, hstack]
    exact List.not_mem_nil

end Thorough

/-- Ids on the path and ids that are done with stay so. -/
theorem mem_of_move {s s' : Search} {x : String} (h : x ∈ s.path ∨ x ∈ s.visited)
    (hmove : Move s s') : x ∈ s'.path ∨ x ∈ s'.visited := by
  cases hmove with
  | leave =>
    rcases h with hon | hdone
    · rcases List.mem_cons.mp hon with rfl | hon
      · exact .inr List.mem_cons_self
      · exact .inl hon
    · exact .inr (List.mem_cons_of_mem _ hdone)
  | close => exact h
  | skip => exact h
  | follow => exact h.imp_left (List.mem_cons_of_mem _)

theorem mem_visited_run {s : Search} {x : String} (h : x ∈ s.path ∨ x ∈ s.visited) :
    x ∈ s.run.visited := by
  have hrun := run_invariant (fun _ _ => mem_of_move) s h
  rw [Search.path, stack_run] at hrun
  exact hrun.resolve_left List.not_mem_nil

/-! ### The whole search -/

theorem sound_ofGraph (nodes : List Node) (edges : List Edge) :
    Sound edges (Search.ofGraph nodes edges) :=
  (ofGraph_invariant (.init edges) (fun _ n _ h hstack _ => h.start hstack n.id)
    fun _ _ => Sound.move).1

theorem thorough_ofGraph (nodes : List Node) (edges : List Edge) :
    Thorough edges none (Search.ofGraph nodes edges) := by
  refine (ofGraph_invariant ?_ (fun _ _ _ h hstack hvisited => h.start hstack hvisited)
    fun _ _ => Thorough.move).1
  exact ⟨fun _ he => .inr (.inr he), trivial, trivial⟩

theorem mem_visited_searchFrom {s : Search} {x id : String} (h : x = id ∨ x ∈ s.visited) :
    x ∈ (s.searchFrom id).visited := by
  unfold Search.searchFrom
  split
  · rename_i hvisited
    rcases h with rfl | h
    · exact List.contains_iff_mem.mp hvisited
    · exact h
  · refine mem_visited_run (h.imp_left ?_)
    rintro rfl
    exact List.mem_cons_self

/-- The search is done with the ids of all nodes in the end. -/
theorem mem_visited_ofGraph {nodes : List Node} {n : Node} (hn : n ∈ nodes) (edges : List Edge) :
    n.id ∈ (Search.ofGraph nodes edges).visited := by
  have hfold : ∀ (rest : List Node) (s : Search), n ∈ rest ∨ n.id ∈ s.visited →
      n.id ∈ (rest.foldl (fun s n => s.searchFrom n.id) s).visited := by
    intro rest
    induction rest with
    | nil => exact fun s h => h.resolve_left List.not_mem_nil
    | cons m rest ih =>
      intro s h
      refine ih _ ?_
      rcases h with hmem | hdone
      · rcases List.mem_cons.mp hmem with rfl | hrest
        · exact .inr (mem_visited_searchFrom (.inl rfl))
        · exact .inl hrest
      · exact .inr (mem_visited_searchFrom (.inr hdone))
  exact hfold nodes _ (.inl hn)

theorem isCycle_of_mem_find {nodes : List Node} {edges cycle : List Edge}
    (h : cycle ∈ find nodes edges) : IsCycle edges cycle :=
  (sound_ofGraph nodes edges).cycles cycle h

theorem Settled.target_mem {cycles : List (List Edge)} {visited : List String}
    (h : Settled edges cycles visited) {e : Edge} (he : e ∈ edges) (hsource : e.source ∈ visited)
    (hopen : ¬ Closes cycles e) : e.target ∈ visited := by
  induction visited with
  | nil => cases hsource
  | cons x before ih =>
    rcases List.mem_cons.mp hsource with hx | hbefore
    · exact List.mem_cons_of_mem _ ((h.1 e he hx).resolve_left hopen)
    · exact List.mem_cons_of_mem _ (ih h.2 hbefore)

/-- Edges that lead down a settled list do not lead back. -/
theorem Settled.not_transGen {cycles : List (List Edge)} {visited : List String}
    (h : Settled edges cycles visited) {rest : List Edge}
    (hrest : ∀ e ∈ rest, e ∈ edges ∧ ¬ Closes cycles e) {x : String} (hx : x ∈ visited) :
    ¬ Relation.TransGen (Arc rest) x x := by
  induction visited with
  | nil => cases hx
  | cons v before ih =>
    have hstep : ∀ {y z}, y ∈ v :: before → Arc rest y z → z ∈ before := by
      rintro _ _ hy ⟨e, he, rfl, rfl⟩
      obtain ⟨hmem, hopen⟩ := hrest e he
      rcases List.mem_cons.mp hy with hv | hbefore
      · exact (h.1 e hmem hv).resolve_left hopen
      · exact h.2.target_mem hmem hbefore hopen
    -- whatever is led to lies below the first id
    have hbelow : ∀ {y}, Relation.TransGen (Arc rest) x y → y ∈ before := by
      intro y hpath
      induction hpath with
      | single harc => exact hstep hx harc
      | tail _ harc hy => exact hstep (List.mem_cons_of_mem _ hy) harc
    exact fun hloop => ih h.2 (hbelow hloop) hloop

/-- Every cycle has an edge that closes a cycle which is found. -/
theorem exists_closing_edge {nodes : List Node} {edges cycle : List Edge}
    (hsources : ∀ e ∈ edges, e.source ∈ nodes.map Node.id) (hcycle : IsCycle edges cycle) :
    ∃ found ∈ find nodes edges, ∃ e ∈ cycle, found.getLast? = some e := by
  by_contra hnone
  push Not at hnone
  obtain ⟨last, hmem, hlast⟩ := hcycle.exists_last
  have hopen : ∀ e ∈ cycle, e ∈ edges ∧ ¬ Closes (find nodes edges) e :=
    fun e he => ⟨hcycle.mem e he, fun ⟨found, hfound, hcloses⟩ => hnone found hfound e he hcloses⟩
  have hsettled := (thorough_ofGraph nodes edges).settled
  obtain ⟨n, hn, hid⟩ := List.mem_map.mp (hsources last (hcycle.mem last hmem))
  have hvisited : last.target ∈ (Search.ofGraph nodes edges).visited :=
    hsettled.target_mem (hcycle.mem last hmem) (hid ▸ mem_visited_ofGraph hn edges)
      (hopen last hmem).2
  exact hsettled.not_transGen hopen hvisited (hcycle.transGen hlast fun _ he => he)

end Cycle

end GrammarDiagram
