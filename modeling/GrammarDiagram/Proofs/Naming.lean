/-
GrammarDiagram/Proofs/Naming.lean

The names that a diagram gives to its ids.

Both passes only ever give names that are free, so two ids share a name only if
it is the root's or the empty one.  The first pass keeps this for the chosen
names (`Claims.Sound`), the second one extends it to all names (`Names`).  Both
write over what they wrote before, so the last node with an id names it
(`get?_nameNodes_of_lastNode?`), and for a diagram with distinct ids the kind of
a node is read off its name (`Naming.fits`).  Naming fails only where a user's
name is not a text (`exists_assignNames_iff`).
-/
import GrammarDiagram.Proofs.FreeName
import GrammarDiagram.Proofs.Identifier
import GrammarDiagram.Proofs.Traced

namespace GrammarDiagram

/-- A key has the value that was put last, or it is another key and has the value
it had. -/
theorem Table.get?_put_eq_some_iff {α : Type*} {t : Table α} {k k' : String} {v x : α} :
    (t.put k v).get? k' = some x ↔ (k' = k ∧ x = v) ∨ (k' ≠ k ∧ t.get? k' = some x) := by
  rw [Table.get?_put]
  by_cases hk : k' = k
  · simp [hk, eq_comm]
  · simp [hk]

/-! ### The last node with an id -/

/-- The last node with this id. -/
def lastNode? (nodes : List Node) (id : String) : Option Node :=
  nodes.reverse.find? fun n => n.id = id

theorem lastNode?_cons (n : Node) (rest : List Node) (id : String) :
    lastNode? (n :: rest) id = (lastNode? rest id).or (if n.id = id then some n else none) := by
  rw [lastNode?, List.reverse_cons, List.find?_append, lastNode?]
  by_cases hid : n.id = id <;> simp [hid]

theorem lastNode?_eq_none_iff {nodes : List Node} {id : String} :
    lastNode? nodes id = none ↔ id ∉ nodes.map Node.id := by
  simp [lastNode?]

theorem id_of_lastNode? {nodes : List Node} {n : Node} {id : String}
    (h : lastNode? nodes id = some n) : n.id = id := by
  simpa using List.find?_some h

theorem lastNode?_of_mem {nodes : List Node} {n : Node} (hids : (nodes.map Node.id).Nodup)
    (hn : n ∈ nodes) :
    lastNode? nodes n.id = some n := by
  rcases hlast : lastNode? nodes n.id with - | m
  · exact absurd (List.mem_map_of_mem hn) (lastNode?_eq_none_iff.mp hlast)
  · have hm : m ∈ nodes := List.mem_reverse.mp (List.mem_of_find?_eq_some hlast)
    rw [List.inj_on_of_nodup_map hids hm hn (id_of_lastNode? hlast)]

theorem Kind.ne_of_isSentinel_eq_false {kind : Kind} (h : kind.isSentinel = false) :
    kind ≠ .start ∧ kind ≠ .finish := by
  constructor
  · rintro rfl
    cases h
  · rintro rfl
    cases h

theorem Node.ne_empty_of_isNamed {n : Node} {s : String} (hn : n.isNamed)
    (hs : n.name = .text s) : s ≠ "" := by
  rintro rfl
  simp [Node.isNamed, hs, Value.isPresent] at hn

namespace RuleSet

/-! ### Names that users choose -/

/-- Chosen names are taken identifiers other than the root, and pairwise
different. -/
structure Claims.Sound (claims : Claims) : Prop where
  root_mem : Name.root ∈ claims.taken
  mem : ∀ {id name}, claims.chosen.get? id = some name → name ∈ claims.taken
  ne_root : ∀ {id name}, claims.chosen.get? id = some name → name ≠ Name.root
  isIdentifier : ∀ {id name}, claims.chosen.get? id = some name → Name.IsIdentifier name
  injective : ∀ {i j name}, claims.chosen.get? i = some name →
    claims.chosen.get? j = some name → i = j

theorem Claims.sound_empty : Claims.Sound {} where
  root_mem := List.mem_singleton.mpr rfl
  mem := fun h => by cases h
  ne_root := fun h => by cases h
  isIdentifier := fun h => by cases h
  injective := fun h => by cases h

/-- Claiming fails at a name that is not a text, and otherwise claims a free
identifier or nothing. -/
theorem Claims.claim_eq_ok_iff {claims claims' : Claims} {n : Node} :
    claims.claim n = .ok claims' ↔
      (n.isNamed = false ∧ claims' = claims) ∨
      (∃ s, n.isNamed ∧ n.name = .text s ∧ claims' =
        ⟨Name.unique (Name.normalize s) claims.taken :: claims.taken,
          claims.chosen.put n.id (Name.unique (Name.normalize s) claims.taken)⟩) := by
  unfold Claims.claim
  by_cases hn : n.isNamed
  · rw [if_pos hn]
    split
    · -- a text is made unique and claimed
      rename_i s hs
      constructor
      · intro h
        cases h
        exact .inr ⟨s, hn, hs, rfl⟩
      · rintro (⟨h, -⟩ | ⟨s', -, hs', rfl⟩)
        · rw [hn] at h
          cases h
        · rw [hs] at hs'
          cases hs'
          rfl
    · -- anything else is a fault
      rename_i hnot
      constructor
      · intro h
        cases h
      · rintro (⟨h, -⟩ | ⟨s, -, hs, -⟩)
        · rw [hn] at h
          cases h
        · exact absurd hs (hnot s)
  · rw [if_neg hn]
    simp only [Bool.not_eq_true] at hn
    constructor
    · intro h
      cases h
      exact .inl ⟨hn, rfl⟩
    · rintro (⟨-, rfl⟩ | ⟨s, h, -, -⟩)
      · rfl
      · rw [hn] at h
        cases h

theorem Claims.Sound.claim {claims claims' : Claims} {n : Node} (hc : claims.Sound)
    (h : claims.claim n = .ok claims') : claims'.Sound := by
  rcases claim_eq_ok_iff.mp h with ⟨-, rfl⟩ | ⟨s, hn, hs, rfl⟩
  · exact hc
  · set name := Name.unique (Name.normalize s) claims.taken with hname
    have hfree : name ∉ claims.taken := Name.unique_not_mem _ _
    have hid : Name.IsIdentifier name :=
      Name.isIdentifier_unique
        (Name.isIdentifier_normalize (Node.ne_empty_of_isNamed hn hs)) _
    refine ⟨List.mem_cons_of_mem _ hc.root_mem, ?_, ?_, ?_, ?_⟩
    · intro id x hx
      rcases Table.get?_put_eq_some_iff.mp hx with ⟨-, rfl⟩ | ⟨-, hx⟩
      · exact List.mem_cons_self
      · exact List.mem_cons_of_mem _ (hc.mem hx)
    · intro id x hx
      rcases Table.get?_put_eq_some_iff.mp hx with ⟨-, rfl⟩ | ⟨-, hx⟩
      · rintro h
        exact hfree (h ▸ hc.root_mem)
      · exact hc.ne_root hx
    · intro id x hx
      rcases Table.get?_put_eq_some_iff.mp hx with ⟨-, rfl⟩ | ⟨-, hx⟩
      · exact hid
      · exact hc.isIdentifier hx
    · -- the new name was free, so no other id has it
      intro i j x hi hj
      rcases Table.get?_put_eq_some_iff.mp hi with ⟨rfl, rfl⟩ | ⟨-, hi⟩
      · rcases Table.get?_put_eq_some_iff.mp hj with ⟨rfl, -⟩ | ⟨-, hj⟩
        · rfl
        · exact absurd (hc.mem hj) hfree
      · rcases Table.get?_put_eq_some_iff.mp hj with ⟨rfl, rfl⟩ | ⟨-, hj⟩
        · exact absurd (hc.mem hi) hfree
        · exact hc.injective hi hj

theorem claims_sound {nodes : List Node} {claims : Claims} (h : claimNames nodes = .ok claims) :
    claims.Sound :=
  Fault.foldlM_eq_ok_induction (motive := fun _ claims => claims.Sound)
    (fun _ _ _ _ hc hstep => hc.claim hstep) nodes [] Claims.sound_empty h

/-- Names can be claimed if every user's name is a text. -/
theorem exists_claimNames_iff {nodes : List Node} :
    (∃ claims, claimNames nodes = .ok claims) ↔
      ∀ n ∈ nodes, n.isNamed → ∃ s, n.name = .text s := by
  have key : ∀ (claims : Claims), (∃ claims', nodes.foldlM Claims.claim claims = .ok claims') ↔
      ∀ n ∈ nodes, n.isNamed → ∃ s, n.name = .text s := by
    induction nodes with
    | nil => exact fun claims => ⟨fun _ n hn => absurd hn List.not_mem_nil, fun _ => ⟨claims, rfl⟩⟩
    | cons n rest ih =>
      intro claims
      rw [List.foldlM_cons]
      constructor
      · rintro ⟨claims', h⟩
        obtain ⟨mid, hmid, h⟩ := Fault.bind_eq_ok_iff.mp h
        intro m hm hnamed
        rcases List.mem_cons.mp hm with rfl | hm
        · rcases Claims.claim_eq_ok_iff.mp hmid with ⟨hnot, -⟩ | ⟨s, -, hs, -⟩
          · rw [hnot] at hnamed
            cases hnamed
          · exact ⟨s, hs⟩
        · exact (ih mid).mp ⟨claims', h⟩ m hm hnamed
      · intro h
        have hmid : ∃ mid, claims.claim n = .ok mid := by
          by_cases hnamed : n.isNamed
          · obtain ⟨s, hs⟩ := h n List.mem_cons_self hnamed
            exact ⟨_, Claims.claim_eq_ok_iff.mpr (.inr ⟨s, hnamed, hs, rfl⟩)⟩
          · exact ⟨_, Claims.claim_eq_ok_iff.mpr (.inl ⟨by simpa using hnamed, rfl⟩)⟩
        obtain ⟨mid, hmid⟩ := hmid
        obtain ⟨claims', h'⟩ := (ih mid).mpr fun m hm => h m (List.mem_cons_of_mem _ hm)
        exact ⟨claims', Fault.bind_eq_ok_iff.mpr ⟨mid, hmid, h'⟩⟩
  exact key {}

/-! ### Names of all nodes -/

/-- What the name of a node says about its kind: the start is the root, the
finish has no name, and the others have identifiers of their own. -/
def Fits : Kind → String → Prop
  | .start, name => name = Name.root
  | .finish, name => name = ""
  | _, name => name ≠ Name.root ∧ Name.IsIdentifier name

theorem fits_iff {kind : Kind} {name : String} (hs : kind ≠ .start) (hf : kind ≠ .finish) :
    Fits kind name ↔ name ≠ Name.root ∧ Name.IsIdentifier name := by
  cases kind with
  | start => exact absurd rfl hs
  | finish => exact absurd rfl hf
  | _ => exact Iff.rfl

theorem Fits.eq_root_iff {kind : Kind} {name : String} (h : Fits kind name) :
    name = Name.root ↔ kind = .start := by
  by_cases hs : kind = .start
  · subst hs
    exact iff_of_true h rfl
  · refine iff_of_false ?_ hs
    by_cases hf : kind = .finish
    · subst hf
      have hempty : name = "" := h
      rw [hempty]
      decide
    · exact ((fits_iff hs hf).mp h).1

theorem Fits.eq_empty_iff {kind : Kind} {name : String} (h : Fits kind name) :
    name = "" ↔ kind = .finish := by
  by_cases hf : kind = .finish
  · subst hf
    exact iff_of_true h rfl
  · refine iff_of_false ?_ hf
    by_cases hs : kind = .start
    · subst hs
      have hroot : name = Name.root := h
      rw [hroot]
      decide
    · exact ((fits_iff hs hf).mp h).2.1

/-- Naming one node: the name it gets, and the names that are taken then. -/
inductive Names.Step (claims : Claims) (taken : List String) (n : Node) :
    String → List String → Prop
  | start : n.kind = .start → Step claims taken n Name.root taken
  | finish : n.kind = .finish → Step claims taken n "" taken
  | chosen {name} : n.kind ≠ .start → n.kind ≠ .finish → claims.chosen.get? n.id = some name →
      Step claims taken n name taken
  | default (index : Nat) : n.kind ≠ .start → n.kind ≠ .finish →
      Step claims taken n (Name.unique (defaultName index) taken)
        (Name.unique (defaultName index) taken :: taken)

/-- The name that a node gets at this place, and the names that are taken then. -/
def assigned (chosen : Table String) (index : Nat) (taken : List String) (n : Node) :
    String × List String :=
  match n.kind, chosen.get? n.id with
  | .start, _ => (Name.root, taken)
  | .finish, _ => ("", taken)
  | _, some name => (name, taken)
  | _, none =>
    (Name.unique (defaultName index) taken, Name.unique (defaultName index) taken :: taken)

theorem nameNodes_eq_assigned (chosen : Table String) (index : Nat) (taken : List String)
    (names : Table String) (n : Node) (rest : List Node) :
    nameNodes chosen index taken names (n :: rest) =
      nameNodes chosen (index + 1) (assigned chosen index taken n).2
        (names.put n.id (assigned chosen index taken n).1) rest := by
  rcases hk : n.kind <;> rcases hc : chosen.get? n.id <;> simp only [nameNodes, assigned, hk, hc]

theorem Names.step_assigned (claims : Claims) (index : Nat) (taken : List String) (n : Node) :
    Names.Step claims taken n (assigned claims.chosen index taken n).1
      (assigned claims.chosen index taken n).2 := by
  unfold assigned
  split
  · exact .start ‹_›
  · exact .finish ‹_›
  · rename_i hc hs hf
    exact .chosen hs hf hc
  · rename_i hc hs hf
    exact .default index hs hf

theorem nameNodes_cons (claims : Claims) (index : Nat) (taken : List String)
    (names : Table String) (n : Node) (rest : List Node) :
    ∃ name taken', Names.Step claims taken n name taken' ∧
      nameNodes claims.chosen index taken names (n :: rest) =
        nameNodes claims.chosen (index + 1) taken' (names.put n.id name) rest :=
  ⟨_, _, Names.step_assigned claims index taken n,
    nameNodes_eq_assigned claims.chosen index taken names n rest⟩

/-- Names of nodes are the root's, empty, or taken identifiers; those not chosen
differ from all that are; and only the root's name and the empty one are shared. -/
structure Names (claims : Claims) (taken : List String) (names : Table String) : Prop where
  subset : ∀ {x}, x ∈ claims.taken → x ∈ taken
  origin : ∀ {id x}, names.get? id = some x → x ≠ Name.root → x ≠ "" →
    x ∈ taken ∧ Name.IsIdentifier x ∧
      (claims.chosen.get? id = some x ∨ ∀ j, claims.chosen.get? j ≠ some x)
  injective : ∀ {i j x}, names.get? i = some x → names.get? j = some x → x ≠ Name.root →
    x ≠ "" → i = j

variable {claims : Claims} {taken taken' : List String} {names : Table String} {n : Node}

theorem Names.empty (claims : Claims) : Names claims claims.taken ∅ where
  subset := id
  origin := fun h => by cases h
  injective := fun h => by cases h

/-- The facts about a name that is given, whichever way it is found. -/
theorem Names.Step.spec (hc : claims.Sound) (hn : Names claims taken names) {name : String}
    (h : Names.Step claims taken n name taken') :
    Fits n.kind name ∧ (∀ {x}, x ∈ taken → x ∈ taken') ∧
      (name ≠ Name.root → name ≠ "" → name ∈ taken' ∧ Name.IsIdentifier name ∧
        (claims.chosen.get? n.id = some name ∨ name ∉ taken)) := by
  cases h with
  | start hk =>
    refine ⟨by rw [hk]; rfl, id, fun h => absurd rfl h⟩
  | finish hk =>
    refine ⟨by rw [hk]; rfl, id, fun _ h => absurd rfl h⟩
  | chosen hs hf hget =>
    have hid := hc.isIdentifier hget
    exact ⟨(fits_iff hs hf).mpr ⟨hc.ne_root hget, hid⟩, id,
      fun _ _ => ⟨hn.subset (hc.mem hget), hid, .inl hget⟩⟩
  | default index hs hf =>
    have hfree := Name.unique_not_mem (defaultName index) taken
    have hid : Name.IsIdentifier (Name.unique (defaultName index) taken) :=
      Name.isIdentifier_unique
        (Name.isIdentifier_numbered (List.all_eq_true.mp (by decide)) index) taken
    have hroot : Name.unique (defaultName index) taken ≠ Name.root :=
      fun h => hfree (h ▸ hn.subset hc.root_mem)
    exact ⟨(fits_iff hs hf).mpr ⟨hroot, hid⟩, List.mem_cons_of_mem _,
      fun _ _ => ⟨List.mem_cons_self, hid, .inr hfree⟩⟩

theorem Names.put (hc : claims.Sound) (hn : Names claims taken names) {name : String}
    (h : Names.Step claims taken n name taken') :
    Names claims taken' (names.put n.id name) := by
  obtain ⟨-, hgrow, hname⟩ := h.spec hc hn
  -- another id cannot have the name: it would have chosen it too, or it would be taken
  have hother : ∀ {id}, id ≠ n.id → names.get? id = some name → name ≠ Name.root →
      name ≠ "" → False := by
    intro id hid hx hr he
    obtain ⟨htaken, -, horigin⟩ := hn.origin hx hr he
    obtain ⟨-, -, hchosen | hfree⟩ := hname hr he
    · rcases horigin with h | h
      · exact hid (hc.injective h hchosen)
      · exact h _ hchosen
    · exact hfree htaken
  refine ⟨fun hx => hgrow (hn.subset hx), ?_, ?_⟩
  · intro id x hx hr he
    rcases Table.get?_put_eq_some_iff.mp hx with ⟨rfl, rfl⟩ | ⟨-, hx⟩
    · obtain ⟨hmem, hid, hor⟩ := hname hr he
      -- chosen names are taken from the beginning, so a free one was not chosen
      refine ⟨hmem, hid, hor.imp_right fun hfree j hj => ?_⟩
      exact hfree (hn.subset (hc.mem hj))
    · obtain ⟨hmem, hid, hor⟩ := hn.origin hx hr he
      exact ⟨hgrow hmem, hid, hor⟩
  · intro i j x hi hj hr he
    rcases Table.get?_put_eq_some_iff.mp hi with ⟨rfl, rfl⟩ | ⟨hne, hi'⟩
    · rcases Table.get?_put_eq_some_iff.mp hj with ⟨rfl, -⟩ | ⟨hne, hj'⟩
      · rfl
      · exact (hother hne hj' hr he).elim
    · rcases Table.get?_put_eq_some_iff.mp hj with ⟨rfl, rfl⟩ | ⟨-, hj'⟩
      · exact (hother hne hi' hr he).elim
      · exact hn.injective hi' hj' hr he

theorem Names.nameNodes (hc : claims.Sound) (nodes : List Node) (index : Nat)
    (hn : Names claims taken names) :
    ∃ taken', Names claims taken' (nameNodes claims.chosen index taken names nodes) := by
  induction nodes generalizing index taken names with
  | nil => exact ⟨taken, hn⟩
  | cons n rest ih =>
    obtain ⟨name, taken', hstep, heq⟩ := nameNodes_cons claims index taken names n rest
    rw [heq]
    exact ih (index + 1) (hn.put hc hstep)

/-- Naming does not touch ids that do not occur. -/
theorem get?_nameNodes_of_not_mem (nodes : List Node) (index : Nat) {id : String}
    (hid : id ∉ nodes.map Node.id) :
    (nameNodes claims.chosen index taken names nodes).get? id = names.get? id := by
  induction nodes generalizing index taken names with
  | nil => rfl
  | cons n rest ih =>
    obtain ⟨name, taken', -, heq⟩ := nameNodes_cons claims index taken names n rest
    rw [List.map_cons, List.mem_cons, not_or] at hid
    rw [heq, ih (index + 1) hid.2, Table.get?_put, if_neg hid.1]

/-- The last node with an id names it, after names that were given before. -/
theorem get?_nameNodes_of_lastNode? {nodes : List Node} {id : String} (hc : claims.Sound)
    (index : Nat) (hnames : Names claims taken names)
    (hlast : lastNode? nodes id = some n) :
    ∃ index' taken' names', Names claims taken' names' ∧
      (nameNodes claims.chosen index taken names nodes).get? id =
        some (assigned claims.chosen index' taken' n).1 := by
  induction nodes generalizing index taken names with
  | nil => cases hlast
  | cons m rest ih =>
    rw [nameNodes_eq_assigned]
    have hput := hnames.put hc (Names.step_assigned claims index taken m)
    rw [lastNode?_cons] at hlast
    rcases hrest : lastNode? rest id with - | m'
    · -- no other node has the id, so it keeps the name it gets here
      rw [hrest, Option.none_or] at hlast
      obtain ⟨rfl, rfl⟩ : m.id = id ∧ m = n := by simpa using hlast
      refine ⟨index, taken, names, hnames, ?_⟩
      rw [get?_nameNodes_of_not_mem rest _ (lastNode?_eq_none_iff.mp hrest), Table.get?_put,
        if_pos rfl]
    · rw [hrest, Option.some_or] at hlast
      exact ih (index + 1) hput (hrest.trans hlast)

/-- With distinct ids every node has a name that fits its kind. -/
theorem fits_nameNodes (hc : claims.Sound) (nodes : List Node) (index : Nat)
    (hn : Names claims taken names) (hids : (nodes.map Node.id).Nodup) {m : Node}
    (hm : m ∈ nodes) :
    ∃ x, (nameNodes claims.chosen index taken names nodes).get? m.id = some x ∧
      Fits m.kind x := by
  obtain ⟨index', taken', names', hn', hget⟩ :=
    get?_nameNodes_of_lastNode? hc index hn (lastNode?_of_mem hids hm)
  exact ⟨_, hget, ((Names.step_assigned claims index' taken' m).spec hc hn').1⟩

/-! ### The naming of a diagram -/

/-- A naming of the ids of a diagram. -/
structure Naming (nodes : List Node) (names : Table String) : Prop where
  fits : ∀ {n}, n ∈ nodes → ∃ x, names.get? n.id = some x ∧ Fits n.kind x
  domain : ∀ {id x}, names.get? id = some x → ∃ n ∈ nodes, n.id = id
  injective : ∀ {i j x}, names.get? i = some x → names.get? j = some x → x ≠ Name.root →
    x ≠ "" → i = j

theorem naming_of_assignNames {nodes : List Node} {names : Table String}
    (hids : (nodes.map Node.id).Nodup) (h : assignNames nodes = .ok names) :
    Naming nodes names := by
  obtain ⟨claims, hclaims, h⟩ := Fault.bind_eq_ok_iff.mp h
  cases h
  have hc := claims_sound hclaims
  obtain ⟨taken', hnames⟩ := Names.nameNodes hc nodes 0 (Names.empty claims)
  refine ⟨fun hn => fits_nameNodes hc nodes 0 (Names.empty claims) hids hn, ?_,
    hnames.injective⟩
  intro id x hx
  by_cases hid : id ∈ nodes.map Node.id
  · obtain ⟨n, hn, rfl⟩ := List.mem_map.mp hid
    exact ⟨n, hn, rfl⟩
  · rw [get?_nameNodes_of_not_mem nodes 0 hid] at hx
    cases hx

namespace Naming

variable {nodes : List Node} (hn : Naming nodes names)
include hn

/-- The ids without a name are those without a node. -/
theorem get?_eq_none_iff {id : String} : names.get? id = none ↔ id ∉ nodes.map Node.id := by
  constructor
  · intro hnone hid
    obtain ⟨n, hmem, rfl⟩ := List.mem_map.mp hid
    obtain ⟨x, hx, -⟩ := hn.fits hmem
    rw [hnone] at hx
    cases hx
  · intro hid
    rcases hget : names.get? id with - | x
    · rfl
    · obtain ⟨n, hmem, rfl⟩ := hn.domain hget
      exact absurd (List.mem_map_of_mem hmem) hid

theorem fits_of_get? {n : Node} {x : String} (hmem : n ∈ nodes) (hx : names.get? n.id = some x) :
    Fits n.kind x := by
  obtain ⟨y, hy, hfits⟩ := hn.fits hmem
  rw [hx] at hy
  cases hy
  exact hfits

/-- Names are identifiers, apart from the empty one. -/
theorem isIdentifier_of_get? {id x : String} (hx : names.get? id = some x) (hne : x ≠ "") :
    Name.IsIdentifier x := by
  obtain ⟨n, hmem, rfl⟩ := hn.domain hx
  have hfits := hn.fits_of_get? hmem hx
  by_cases hs : n.kind = .start
  · rw [hfits.eq_root_iff.mpr hs]
    exact Name.isIdentifier_root
  · have hf : n.kind ≠ .finish := fun h => hne (hfits.eq_empty_iff.mpr h)
    exact ((fits_iff hs hf).mp hfits).2

end Naming

/-- Naming succeeds if every user's name is a text. -/
theorem exists_assignNames_iff {nodes : List Node} :
    (∃ names, assignNames nodes = .ok names) ↔
      ∀ n ∈ nodes, n.isNamed → ∃ s, n.name = .text s := by
  rw [← exists_claimNames_iff]
  constructor
  · rintro ⟨names, h⟩
    obtain ⟨claims, hclaims, -⟩ := Fault.bind_eq_ok_iff.mp h
    exact ⟨claims, hclaims⟩
  · rintro ⟨claims, h⟩
    exact ⟨_, Fault.bind_eq_ok_iff.mpr ⟨claims, h, rfl⟩⟩

end RuleSet

end GrammarDiagram
