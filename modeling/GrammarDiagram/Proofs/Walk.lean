/-
GrammarDiagram/Proofs/Walk.lean

The language of a diagram, read off its drawing.

A sentence of a diagram is a walk along its edges from the start to a finish,
and every node on the way contributes a word of its pattern.  Synthesis turns
exactly these walks into derivations (`language_synthesize`).  The rule of a
node and the node match step by step: the successors of the rule are the names
of the nodes that follow (`mem_successors_iff`), so that walks are built from
derivations and derivations from walks, one node at a time.
-/
import GrammarDiagram.Proofs.Synthesis

namespace GrammarDiagram

/-! ### Walks -/

/-- Some edge leads from one node to the other. -/
def Linked (edges : List Edge) (m n : Node) : Prop :=
  ∃ e ∈ edges, e.source = m.id ∧ e.target = n.id

/-- A walk along the edges that reaches a finish, `stop`, after other nodes. -/
structure Walk (nodes : List Node) (edges : List Edge) (path : List Node) (stop : Node) :
    Prop where
  mem : ∀ n ∈ path, n ∈ nodes
  not_finish : ∀ n ∈ path, n.kind ≠ .finish
  stop_mem : stop ∈ nodes
  stop_kind : stop.kind = .finish
  chain : (path ++ [stop]).IsChain (Linked edges)

/-- The words along a path: one of every pattern in turn. -/
def wordsAlong {α : Type*} (I : String → Language α) (path : List Node) : Language α :=
  (path.map fun n => I n.pattern).prod

theorem wordsAlong_nil {α : Type*} (I : String → Language α) : wordsAlong I [] = 1 := rfl

theorem wordsAlong_cons {α : Type*} (I : String → Language α) (n : Node) (path : List Node) :
    wordsAlong I (n :: path) = I n.pattern * wordsAlong I path := by
  simp [wordsAlong]

/-- The words along the walks from the start to a finish. -/
def walkLanguage {α : Type*} (nodes : List Node) (edges : List Edge) (I : String → Language α) :
    Language α :=
  {w | ∃ start path stop, start.kind = .start ∧ Walk nodes edges (start :: path) stop ∧
    w ∈ wordsAlong I (start :: path)}

/-- A diagram with distinct ids and one start, whose edges run between its nodes
and whose nodes are all wired in. -/
structure WellDrawn (nodes : List Node) (edges : List Edge) : Prop where
  distinct : (nodes.map Node.id).Nodup
  start : ∃! n, n ∈ nodes ∧ n.kind = .start
  ends : ∀ e ∈ edges, e.source ∈ nodes.map Node.id ∧ e.target ∈ nodes.map Node.id
  wired : (Report.ofGraph nodes edges).isValid

namespace Walk

variable {nodes : List Node} {edges : List Edge} {m n stop : Node} {path : List Node}

theorem single (hn : n ∈ nodes) (hkind : n.kind ≠ .finish) (hstop : stop ∈ nodes)
    (hfinish : stop.kind = .finish) (hlink : Linked edges n stop) :
    Walk nodes edges [n] stop where
  mem := by simpa using hn
  not_finish := by simpa using hkind
  stop_mem := hstop
  stop_kind := hfinish
  chain := by simpa using hlink

theorem cons (hn : n ∈ nodes) (hkind : n.kind ≠ .finish) (hlink : Linked edges n m)
    (h : Walk nodes edges (m :: path) stop) : Walk nodes edges (n :: m :: path) stop where
  mem := List.forall_mem_cons.mpr ⟨hn, h.mem⟩
  not_finish := List.forall_mem_cons.mpr ⟨hkind, h.not_finish⟩
  stop_mem := h.stop_mem
  stop_kind := h.stop_kind
  chain := List.isChain_cons_cons.mpr ⟨hlink, h.chain⟩

theorem tail (h : Walk nodes edges (n :: m :: path) stop) :
    Linked edges n m ∧ Walk nodes edges (m :: path) stop := by
  obtain ⟨hlink, hchain⟩ := List.isChain_cons_cons.mp h.chain
  exact ⟨hlink, fun k hk => h.mem k (List.mem_cons_of_mem _ hk),
    fun k hk => h.not_finish k (List.mem_cons_of_mem _ hk), h.stop_mem, h.stop_kind, hchain⟩

end Walk

theorem isWired_of_isValid {nodes : List Node} {edges : List Edge} {n : Node}
    (hvalid : (Report.ofGraph nodes edges).isValid) (hn : n ∈ nodes) : n.isWired edges := by
  by_contra hnot
  have hmem : n ∈ nodes.filter fun n => !n.isWired edges :=
    List.mem_filter.mpr ⟨hn, by simpa using hnot⟩
  have hempty : nodes.filter (fun n => !n.isWired edges) = [] := by
    simpa [Report.isValid, Report.ofGraph] using hvalid
  rw [hempty] at hmem
  cases hmem

/-- In a wired diagram something follows every node but a finish. -/
theorem exists_edge_of_isValid {nodes : List Node} {edges : List Edge} {n : Node}
    (hvalid : (Report.ofGraph nodes edges).isValid) (hn : n ∈ nodes) (hkind : n.kind ≠ .finish) :
    ∃ e ∈ edges, e.source = n.id := by
  have hwired := isWired_of_isValid hvalid hn
  have hout : hasOutgoing edges n.id := by
    unfold Node.isWired at hwired
    split at hwired
    · exact hwired
    · contradiction
    · exact (Bool.and_eq_true_iff.mp hwired).2
  simpa [hasOutgoing] using hout

/-! ### Nodes and rules -/

namespace RuleSet

variable {nodes : List Node} {edges : List Edge} {names : Table String} {m n : Node}
  {x t : String}

section Match

variable (hd : WellDrawn nodes edges) (hnames : Naming nodes names)
include hd hnames

/-- Of the nodes other than finishes no two have one name. -/
theorem eq_of_get? (hm : m ∈ nodes) (hn : n ∈ nodes) (hkind : n.kind ≠ .finish)
    (hmx : names.get? m.id = some x) (hnx : names.get? n.id = some x) : m = n := by
  have hfm := hnames.fits_of_get? hm hmx
  have hfn := hnames.fits_of_get? hn hnx
  by_cases hroot : x = Name.root
  · -- the root's name is shared by all starts, of which there is one
    exact hd.start.unique ⟨hm, hfm.eq_root_iff.mp hroot⟩ ⟨hn, hfn.eq_root_iff.mp hroot⟩
  · have hempty : x ≠ "" := fun h => hkind (hfn.eq_empty_iff.mp h)
    exact List.inj_on_of_nodup_map hd.distinct hm hn (hnames.injective hmx hnx hroot hempty)

theorem patternOf_eq (hn : n ∈ nodes) (hkind : n.kind ≠ .finish)
    (hx : names.get? n.id = some x) : (assemble names nodes edges).patternOf x = n.pattern :=
  patternOf_assemble hn hkind hx fun _ hm _ hmx => eq_of_get? hd hnames hm hn hkind hmx hx

/-- The successors of the rule of a node are the names of the nodes linked to it. -/
theorem mem_successors_iff (hn : n ∈ nodes) (hkind : n.kind ≠ .finish)
    (hx : names.get? n.id = some x) :
    t ∈ (assemble names nodes edges).successors x ↔
      ∃ m ∈ nodes, Linked edges n m ∧ names.get? m.id = some t := by
  rw [mem_successors_assemble_iff]
  constructor
  · rintro ⟨e, he, hsource, htarget⟩
    obtain ⟨n', hn', hid'⟩ := hnames.domain hsource
    obtain ⟨m, hm, hid⟩ := hnames.domain htarget
    rw [← hid'] at hsource
    rw [← hid] at htarget
    have hsame : n' = n := eq_of_get? hd hnames hn' hn hkind hsource hx
    exact ⟨m, hm, ⟨e, he, by rw [← hid', hsame], hid.symm⟩, htarget⟩
  · rintro ⟨m, hm, ⟨e, he, hsource, htarget⟩, ht⟩
    exact ⟨e, he, by rw [hsource, hx], by rw [htarget, ht]⟩

/-- Something follows every rule. -/
theorem successors_ne_nil (hn : n ∈ nodes) (hkind : n.kind ≠ .finish)
    (hx : names.get? n.id = some x) : (assemble names nodes edges).successors x ≠ [] := by
  obtain ⟨e, he, hsource⟩ := exists_edge_of_isValid hd.wired hn hkind
  obtain ⟨m, hm, htarget⟩ := List.mem_map.mp (hd.ends e he).2
  obtain ⟨t, ht, -⟩ := hnames.fits hm
  exact List.ne_nil_of_mem
    ((mem_successors_iff hd hnames hn hkind hx).mpr ⟨m, hm, ⟨e, he, hsource, htarget.symm⟩, ht⟩)

omit hd in
/-- The nodes with rules are those other than finishes. -/
theorem hasRule_iff_not_finish (hm : m ∈ nodes) (ht : names.get? m.id = some t) :
    (assemble names nodes edges).hasRule t ↔ m.kind ≠ .finish := by
  rw [hasRule_assemble_iff]
  constructor
  · rintro ⟨n, hn, hkind, hnt⟩ hfinish
    have hempty : t = "" := (hnames.fits_of_get? hm ht).eq_empty_iff.mpr hfinish
    exact hkind ((hnames.fits_of_get? hn hnt).eq_empty_iff.mp hempty)
  · intro hkind
    exact ⟨m, hm, hkind, ht⟩

variable {α : Type*} {I : String → Language α} {w : List α}

/-- Every derivation follows a walk. -/
theorem exists_walk_of_generates (h : (assemble names nodes edges).Generates I x w)
    (hn : n ∈ nodes) (hkind : n.kind ≠ .finish) (hx : names.get? n.id = some x) :
    ∃ path stop, Walk nodes edges (n :: path) stop ∧ w ∈ wordsAlong I (n :: path) := by
  revert n
  refine Generates.least (L := fun x w => ∀ {n : Node}, n ∈ nodes → n.kind ≠ .finish →
    names.get? n.id = some x →
    ∃ path stop, Walk nodes edges (n :: path) stop ∧ w ∈ wordsAlong I (n :: path)) ?_ h
  intro x u v _ hu hv n hn hkind hx
  rw [patternOf_eq hd hnames hn hkind hx] at hu
  have hlinked : ∀ {t}, t ∈ (assemble names nodes edges).successors x →
      ∃ m ∈ nodes, Linked edges n m ∧ names.get? m.id = some t :=
    (mem_successors_iff hd hnames hn hkind hx).mp
  rcases hv with ⟨rfl, hnil | hend⟩ | ⟨t, ht, hrule, hgen⟩ | ⟨t, ht, hne, hrule, -⟩
  · exact absurd hnil (successors_ne_nil hd hnames hn hkind hx)
  · -- the derivation ends, and the edge leads to a finish
    obtain ⟨stop, hstop, hlink, hempty⟩ := hlinked hend
    have hfinish : stop.kind = .finish := (hnames.fits_of_get? hstop hempty).eq_empty_iff.mp rfl
    refine ⟨[], stop, .single hn hkind hstop hfinish hlink, ?_⟩
    rw [wordsAlong_cons, wordsAlong_nil]
    exact Language.append_mem_mul hu Language.nil_mem_one
  · -- the derivation goes on with the rule of the next node
    obtain ⟨m, hm, hlink, hmt⟩ := hlinked ht
    have hkind' : m.kind ≠ .finish := (hasRule_iff_not_finish hnames hm hmt).mp hrule
    obtain ⟨path, stop, hwalk, hv⟩ := hgen hm hkind' hmt
    refine ⟨m :: path, stop, .cons hn hkind hlink hwalk, ?_⟩
    rw [wordsAlong_cons]
    exact Language.append_mem_mul hu hv
  · -- there are no successors other than rules and the end
    obtain ⟨m, hm, -, hmt⟩ := hlinked ht
    have hkind' : m.kind ≠ .finish :=
      fun h => hne ((hnames.fits_of_get? hm hmt).eq_empty_iff.mpr h)
    exact absurd ((hasRule_iff_not_finish hnames hm hmt).mpr hkind') hrule

/-- Every walk can be derived. -/
theorem generates_of_walk {path : List Node} {stop : Node}
    (hwalk : Walk nodes edges (n :: path) stop) (hw : w ∈ wordsAlong I (n :: path))
    (hx : names.get? n.id = some x) : (assemble names nodes edges).Generates I x w := by
  induction path generalizing n x w with
  | nil =>
    -- the finish is next, and its name is the empty successor
    have hn := hwalk.mem n List.mem_cons_self
    have hkind := hwalk.not_finish n List.mem_cons_self
    have hrule : (assemble names nodes edges).hasRule x :=
      (hasRule_iff_not_finish hnames hn hx).mpr hkind
    obtain ⟨t, ht, hfits⟩ := hnames.fits hwalk.stop_mem
    have hempty : t = "" := hfits.eq_empty_iff.mpr hwalk.stop_kind
    have hlink : Linked edges n stop := by simpa using hwalk.chain
    rw [wordsAlong_cons, wordsAlong_nil, mul_one, ← patternOf_eq hd hnames hn hkind hx] at hw
    refine .stop hrule hw (.inr ?_)
    rw [mem_successors_iff hd hnames hn hkind hx]
    exact ⟨stop, hwalk.stop_mem, hlink, hempty ▸ ht⟩
  | cons m path ih =>
    have hn := hwalk.mem n List.mem_cons_self
    have hkind := hwalk.not_finish n List.mem_cons_self
    have hrule : (assemble names nodes edges).hasRule x :=
      (hasRule_iff_not_finish hnames hn hx).mpr hkind
    obtain ⟨hlink, htail⟩ := hwalk.tail
    have hm := htail.mem m List.mem_cons_self
    have hkind' := htail.not_finish m List.mem_cons_self
    obtain ⟨t, ht, -⟩ := hnames.fits hm
    rw [wordsAlong_cons, ← patternOf_eq hd hnames hn hkind hx] at hw
    obtain ⟨u, hu, v, hv, rfl⟩ := Language.mem_mul.mp hw
    refine .rule hrule hu ?_ ((hasRule_iff_not_finish hnames hm ht).mpr hkind') (ih htail hv ht)
    rw [mem_successors_iff hd hnames hn hkind hx]
    exact ⟨m, hm, hlink, ht⟩

end Match

/-! ### The language of a diagram -/

/-- The rule set of a well drawn diagram generates the words along its walks. -/
theorem language_synthesize {α : Type*} {I : String → Language α}
    (hd : WellDrawn nodes edges) :
    ((∃ rs, (synthesize nodes edges).result = .ok rs) ↔
        ∀ n ∈ nodes, n.isNamed → ∃ s, n.name = .text s) ∧
      ∀ rs, (synthesize nodes edges).result = .ok rs →
        rs.language I Name.root = walkLanguage nodes edges I := by
  refine ⟨?_, fun rs hrs => ?_⟩
  · rw [exists_synthesize_iff hd.distinct]
    -- no edge is left out
    refine ⟨Legible.name, fun hname => ⟨hname, fun e he hloose => ?_⟩⟩
    obtain ⟨hsource, htarget⟩ := hd.ends e he
    exact absurd hloose (not_or.mpr ⟨not_not.mpr hsource, not_not.mpr htarget⟩)
  · obtain ⟨names, hassign, -, rfl⟩ := synthesize_eq_ok_iff.mp hrs
    have hnames := naming_of_assignNames hd.distinct hassign
    ext w
    constructor
    · intro hw
      obtain ⟨start, ⟨hmem, hkind⟩, -⟩ := hd.start
      obtain ⟨x, hx, hfits⟩ := hnames.fits hmem
      have hroot : x = Name.root := hfits.eq_root_iff.mpr hkind
      have hopen : start.kind ≠ .finish := by rw [hkind]; decide
      obtain ⟨path, stop, hwalk, hw⟩ :=
        exists_walk_of_generates hd hnames hw hmem hopen (hroot ▸ hx)
      exact ⟨start, path, stop, hkind, hwalk, hw⟩
    · rintro ⟨start, path, stop, hkind, hwalk, hw⟩
      obtain ⟨x, hx, hfits⟩ := hnames.fits (hwalk.mem start List.mem_cons_self)
      have hroot : x = Name.root := hfits.eq_root_iff.mpr hkind
      exact generates_of_walk hd hnames hwalk hw (hroot ▸ hx)

/-- Words, one after the other, with two ways to finish; the diagram can also be
walked back to its start, and on from a finish. -/
def repeatNodes : List Node := [
  { id := "s", kind := .start },
  { id := "a", kind := .letter, name := .text "word" },
  { id := "r", kind := .router },
  { id := "e", kind := .finish },
  { id := "f", kind := .finish }]

/-- The edges of `repeatNodes`. -/
def repeatEdges : List Edge := [
  { source := "s", target := "a" },
  { source := "a", target := "a" },
  { source := "a", target := "r" },
  { source := "r", target := "s" },
  { source := "r", target := "e" },
  { source := "e", target := "a" },
  { source := "a", target := "f" }]

/-- The interpretation under which a pattern stands for itself. -/
def verbatim (pattern : String) : Language Char := {pattern.toList}

theorem language_synthesize_repeat :
    WellDrawn repeatNodes repeatEdges ∧
      ∃ rs, (synthesize repeatNodes repeatEdges).result = .ok rs ∧
        rs.language verbatim Name.root = walkLanguage repeatNodes repeatEdges verbatim ∧
        "[a-zA-Z][a-zA-Z]".toList ∈ rs.language verbatim Name.root := by
  have hd : WellDrawn repeatNodes repeatEdges := by
    refine ⟨by decide, ⟨{ id := "s", kind := .start }, ?_, ?_⟩, ?_, by decide⟩
    · simp [repeatNodes]
    · simp [repeatNodes]
    · simp [repeatNodes, repeatEdges]
  obtain ⟨hexists, hlang⟩ := language_synthesize (I := verbatim) hd
  obtain ⟨rs, hrs⟩ := hexists.mpr (by
    simp [repeatNodes, Node.isNamed, Kind.isSentinel, Value.isPresent])
  refine ⟨hd, rs, hrs, hlang rs hrs, ?_⟩
  rw [hlang rs hrs]
  refine ⟨{ id := "s", kind := .start }, [{ id := "a", kind := .letter, name := .text "word" },
    { id := "a", kind := .letter, name := .text "word" }], { id := "f", kind := .finish }, rfl,
    ⟨?_, ?_, ?_, rfl, ?_⟩, ?_⟩
  · simp [repeatNodes]
  · simp
  · simp [repeatNodes]
  · simp [Linked, repeatEdges]
  · simp only [wordsAlong_cons, wordsAlong_nil, mul_one]
    exact ⟨_, rfl, _, ⟨_, rfl, _, rfl, rfl⟩, by decide⟩

end RuleSet

end GrammarDiagram
