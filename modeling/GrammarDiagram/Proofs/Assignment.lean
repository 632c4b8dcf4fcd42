/-
GrammarDiagram/Proofs/Assignment.lean

What a diagram calls its ids, whichever nodes it has.

Ids may repeat, and then the last node with an id decides how the id is called:
the root for a start, nothing for a finish, and else a word that no other id has.
`Assignment` collects this.

A chosen name depends on the other chosen names and on nothing else, since the
first pass skips all other nodes (`claimNames_filter`).  So the nodes that users
have named keep their names when the others go.
-/
import GrammarDiagram.Proofs.Naming

namespace GrammarDiagram

/-! ### Words -/

namespace Name

/-- A small letter or an underscore, followed by small letters, digits and
underscores. -/
def IsWord (name : String) : Prop :=
  ∃ c rest, name.toList = c :: rest ∧ (c.isLower ∨ c = '_') ∧
    ∀ d ∈ rest, d.isLower ∨ d.isDigit ∨ d = '_'

variable {name : String}

theorem isSlugChar_iff {c : Char} : Text.isSlugChar c ↔ c.isLower ∨ c.isDigit ∨ c = '_' := by
  simp [Text.isSlugChar, or_assoc]

theorem isDigit_eq_false {c : Char} (h : c.isLower ∨ c = '_') : c.isDigit = false := by
  rcases h with h | rfl
  · have hlow := ((isLower_iff c).mp h).1
    have ha : 'a'.toNat = 97 := rfl
    rw [Bool.eq_false_iff]
    intro hdigit
    have hhigh : c.toNat ≤ 57 := of_decide_eq_true (Bool.and_eq_true_iff.mp hdigit).2
    omega
  · rfl

/-- Words are the identifiers that do not start with a digit. -/
theorem isWord_iff : IsWord name ↔ IsIdentifier name ∧ startsWithDigit name = false := by
  rcases hname : name.toList with - | ⟨c, rest⟩
  · have hempty : name = "" := String.toList_eq_nil_iff.mp hname
    simp [IsWord, IsIdentifier, hempty]
  · have hne : name ≠ "" := by
      rintro rfl
      cases hname
    simp only [IsWord, IsIdentifier, startsWithDigit, hname, List.forall_mem_cons,
      isSlugChar_iff]
    constructor
    · rintro ⟨c', rest', heq, hc, hrest⟩
      cases heq
      exact ⟨⟨hne, hc.imp_right .inr, hrest⟩, isDigit_eq_false hc⟩
    · rintro ⟨⟨-, hc, hrest⟩, hdigit⟩
      rw [hdigit] at hc
      exact ⟨c, rest, rfl, by simpa using hc, hrest⟩

theorem startsWithDigit_append (hname : name ≠ "") (t : String) :
    startsWithDigit (name ++ t) = startsWithDigit name := by
  rcases hlist : name.toList with - | ⟨c, rest⟩
  · exact absurd (String.toList_eq_nil_iff.mp hlist) hname
  · simp [startsWithDigit, String.toList_append, hlist]

theorem isWord_normalize {s : String} (hs : s ≠ "") : IsWord (normalize s) := by
  refine isWord_iff.mpr ⟨isIdentifier_normalize hs, ?_⟩
  unfold normalize
  by_cases hdigit : startsWithDigit (Text.slug s)
  · simp only [hdigit, if_true]
    rw [startsWithDigit_append (by decide)]
    rfl
  · simp [hdigit]

/-- A counter at the end of a word leaves it one. -/
theorem IsWord.numbered (h : IsWord name) (k : Nat) : IsWord (numbered name k) := by
  obtain ⟨hid, hdigit⟩ := isWord_iff.mp h
  refine isWord_iff.mpr ⟨isIdentifier_numbered hid.2 k, ?_⟩
  rw [Name.numbered, startsWithDigit_append hid.1, hdigit]

theorem IsWord.unique (h : IsWord name) (taken : List String) : IsWord (unique name taken) := by
  unfold Name.unique
  split
  · exact h.numbered _
  · exact h

end Name

namespace RuleSet

theorem isWord_defaultName (index : Nat) : Name.IsWord (defaultName index) := by
  have hstem : Name.IsWord "_rule" := Name.isWord_iff.mpr (by decide)
  exact hstem.numbered index

/-! ### Chosen names -/

variable {nodes : List Node} {claims : Claims} {n : Node} {id : String}

theorem isWord_of_chosen (h : claimNames nodes = .ok claims) {x : String}
    (hx : claims.chosen.get? id = some x) : Name.IsWord x := by
  refine Fault.foldlM_eq_ok_induction
    (motive := fun _ claims => ∀ id x, claims.chosen.get? id = some x → Name.IsWord x)
    ?_ nodes [] ?_ h id x hx
  · intro done claims n claims' hc hstep id x hx
    rcases Claims.claim_eq_ok_iff.mp hstep with ⟨-, rfl⟩ | ⟨s, hn, hs, rfl⟩
    · exact hc id x hx
    · rcases Table.get?_put_eq_some_iff.mp hx with ⟨-, rfl⟩ | ⟨-, hx⟩
      · exact (Name.isWord_normalize (Node.ne_empty_of_isNamed hn hs)).unique _
      · exact hc id x hx
  · intro id x hx
    cases hx

/-- Every id of a node that a user has named has a chosen name. -/
theorem exists_chosen (h : claimNames nodes = .ok claims) (hn : n ∈ nodes) (hnamed : n.isNamed) :
    ∃ x, claims.chosen.get? n.id = some x := by
  refine Fault.foldlM_eq_ok_induction
    (motive := fun done claims => ∀ n ∈ done, n.isNamed → ∃ x, claims.chosen.get? n.id = some x)
    ?_ nodes [] ?_ h n hn hnamed
  · intro done claims m claims' hc hstep n hn hnamed
    rcases Claims.claim_eq_ok_iff.mp hstep with ⟨hm, rfl⟩ | ⟨s, hm, hs, rfl⟩
    · rcases List.mem_append.mp hn with hn | hn
      · exact hc n hn hnamed
      · rw [List.mem_singleton.mp hn, hm] at hnamed
        cases hnamed
    · rw [Table.get?_put]
      split
      · exact ⟨_, rfl⟩
      · rename_i hne
        rcases List.mem_append.mp hn with hn | hn
        · exact hc n hn hnamed
        · exact absurd (congrArg Node.id (List.mem_singleton.mp hn)) hne
  · intro n hn
    cases hn

/-- Only the nodes that users have named take part in the first pass. -/
theorem claimNames_filter (nodes : List Node) :
    claimNames (nodes.filter Node.isNamed) = claimNames nodes := by
  have key : ∀ claims : Claims,
      (nodes.filter Node.isNamed).foldlM Claims.claim claims =
        nodes.foldlM Claims.claim claims := by
    induction nodes with
    | nil => exact fun _ => rfl
    | cons n rest ih =>
      intro claims
      by_cases hn : n.isNamed
      · rw [List.filter_cons_of_pos hn, List.foldlM_cons, List.foldlM_cons]
        exact congrArg _ (funext ih)
      · have hskip : claims.claim n = .ok claims := if_neg hn
        rw [List.filter_cons_of_neg hn, List.foldlM_cons, hskip]
        exact ih claims
  exact key {}

/-! ### The assignment of names to ids -/

theorem assigned_of_chosen {index : Nat} {taken : List String} {x : String}
    (hs : n.kind.isSentinel = false) (hx : claims.chosen.get? n.id = some x) :
    (assigned claims.chosen index taken n).1 = x := by
  obtain ⟨hstart, hfinish⟩ := Kind.ne_of_isSentinel_eq_false hs
  unfold assigned
  split
  · exact absurd ‹_› hstart
  · exact absurd ‹_› hfinish
  · rename_i hname _ _
    exact Option.some.inj (hname.symm.trans hx)
  · rename_i hnone _ _
    rw [hx] at hnone
    cases hnone

/-- How a diagram calls its ids: each of them, after the last node that has it, and
no two alike unless they are called root or nothing. -/
structure Assignment (nodes : List Node) (names : Table String) : Prop where
  mem_keys_iff : ∀ id, id ∈ names.keys ↔ id ∈ nodes.map Node.id
  root_iff : ∀ {id n}, lastNode? nodes id = some n →
    (names.get? id = some Name.root ↔ n.kind = .start)
  empty_iff : ∀ {id n}, lastNode? nodes id = some n →
    (names.get? id = some "" ↔ n.kind = .finish)
  isWord : ∀ {id x}, names.get? id = some x → x ≠ Name.root → x ≠ "" → Name.IsWord x
  injective : ∀ {i j x}, names.get? i = some x → names.get? j = some x → x ≠ Name.root →
    x ≠ "" → i = j

/-- A name that is given is a word, unless it is the root's or empty. -/
theorem Names.Step.isWord {taken taken' : List String} {name : String}
    (hclaims : claimNames nodes = .ok claims) (h : Names.Step claims taken n name taken')
    (hroot : name ≠ Name.root) (hempty : name ≠ "") : Name.IsWord name := by
  cases h with
  | start => exact absurd rfl hroot
  | finish => exact absurd rfl hempty
  | chosen hs hf hx => exact isWord_of_chosen hclaims hx
  | default index hs hf => exact (isWord_defaultName index).unique taken

/-- The name of an id fits the last node with it. -/
theorem exists_name_of_lastNode? (hclaims : claimNames nodes = .ok claims)
    (hlast : lastNode? nodes id = some n) :
    ∃ x, (nameNodes claims.chosen 0 claims.taken ∅ nodes).get? id = some x ∧ Fits n.kind x ∧
      (x ≠ Name.root → x ≠ "" → Name.IsWord x) := by
  have hc := claims_sound hclaims
  obtain ⟨index', taken', names', hnames', hget⟩ :=
    get?_nameNodes_of_lastNode? hc 0 (Names.empty claims) hlast
  have hgiven := Names.step_assigned claims index' taken' n
  exact ⟨_, hget, (hgiven.spec hc hnames').1, hgiven.isWord hclaims⟩

/-- The names that the second pass gives are an assignment. -/
theorem assignment_nameNodes (hclaims : claimNames nodes = .ok claims) :
    Assignment nodes (nameNodes claims.chosen 0 claims.taken ∅ nodes) := by
  obtain ⟨taken', hnames⟩ :=
    (Names.empty claims).nameNodes (claims_sound hclaims) nodes 0
  have hnone : ∀ {id}, lastNode? nodes id = none →
      (nameNodes claims.chosen 0 claims.taken ∅ nodes).get? id = none :=
    fun h => get?_nameNodes_of_not_mem nodes 0 (lastNode?_eq_none_iff.mp h)
  refine ⟨?_, ?_, ?_, ?_, hnames.injective⟩
  · intro id
    rw [← Table.contains_iff_mem_keys, Table.contains, ← not_iff_not,
      ← lastNode?_eq_none_iff]
    rcases hlast : lastNode? nodes id with - | n
    · simp [hnone hlast]
    · obtain ⟨x, hx, -⟩ := exists_name_of_lastNode? hclaims hlast
      simp [hx]
  · intro id n hlast
    obtain ⟨x, hx, hfits, -⟩ := exists_name_of_lastNode? hclaims hlast
    rw [hx, Option.some.injEq, hfits.eq_root_iff]
  · intro id n hlast
    obtain ⟨x, hx, hfits, -⟩ := exists_name_of_lastNode? hclaims hlast
    rw [hx, Option.some.injEq, hfits.eq_empty_iff]
  · intro id y hy hroot hne
    rcases hlast : lastNode? nodes id with - | n
    · rw [hnone hlast] at hy
      cases hy
    · obtain ⟨x, hx, -, hword⟩ := exists_name_of_lastNode? hclaims hlast
      obtain rfl : x = y := Option.some.inj (hx.symm.trans hy)
      exact hword hroot hne

/-- With distinct ids, a node that a user has named is called what the first pass
says. -/
theorem get?_nameNodes_of_isNamed (hids : (nodes.map Node.id).Nodup)
    (hclaims : claimNames nodes = .ok claims) (hn : n ∈ nodes) (hnamed : n.isNamed) :
    (nameNodes claims.chosen 0 claims.taken ∅ nodes).get? n.id = claims.chosen.get? n.id := by
  obtain ⟨x, hx⟩ := exists_chosen hclaims hn hnamed
  obtain ⟨index', taken', names', -, hget⟩ := get?_nameNodes_of_lastNode?
    (claims_sound hclaims) 0 (Names.empty claims) (lastNode?_of_mem hids hn)
  have hkind : n.kind.isSentinel = false := by simpa using (Bool.and_eq_true_iff.mp hnamed).2
  rw [hget, hx, assigned_of_chosen hkind hx]

/-- If what users write is text, every id of a diagram is called what the last node
with it is called, and no two ids are called alike unless they are called root or
nothing.  With distinct ids, nodes that users have not named may go without
changing what the others are called. -/
theorem exists_assignment (htexts : ∀ n ∈ nodes, n.isNamed → ∃ s, n.name = .text s) :
    ∃ names, assignNames nodes = .ok names ∧ Assignment nodes names ∧
      ((nodes.map Node.id).Nodup →
        ∀ keep : Node → Bool, (∀ n ∈ nodes, n.isNamed → keep n) →
          ∃ names', assignNames (nodes.filter keep) = .ok names' ∧
            ∀ n ∈ nodes, n.isNamed → names'.get? n.id = names.get? n.id) := by
  obtain ⟨claims, hclaims⟩ := exists_claimNames_iff.mpr htexts
  refine ⟨_, Fault.bind_eq_ok_iff.mpr ⟨claims, hclaims, rfl⟩, assignment_nameNodes hclaims, ?_⟩
  intro hids keep hkeep
  -- the first pass sees the same nodes as before
  have hsame : (nodes.filter keep).filter Node.isNamed = nodes.filter Node.isNamed := by
    rw [List.filter_filter]
    refine List.filter_congr fun n hn => ?_
    have himp := hkeep n hn
    cases hnamed : n.isNamed
    · rfl
    · simp [himp hnamed]
  have hrest : claimNames (nodes.filter keep) = .ok claims := by
    rw [← claimNames_filter, hsame, claimNames_filter, hclaims]
  refine ⟨_, Fault.bind_eq_ok_iff.mpr ⟨claims, hrest, rfl⟩, fun n hn hnamed => ?_⟩
  have hids' : ((nodes.filter keep).map Node.id).Nodup :=
    hids.sublist (List.filter_sublist.map Node.id)
  have hn' : n ∈ nodes.filter keep := List.mem_filter.mpr ⟨hn, hkeep n hn hnamed⟩
  rw [get?_nameNodes_of_isNamed hids' hrest hn' hnamed,
    get?_nameNodes_of_isNamed hids hclaims hn hnamed]

/-- A diagram whose users have chosen one name twice, and a generated one at that. -/
def homonyms : List Node := [
  { id := "s", kind := .start },
  { id := "a", kind := .letter, name := .text "_rule3" },
  { id := "b", kind := .digit, name := .text "_Rule3" },
  { id := "c", kind := .router },
  { id := "e", kind := .finish }]

/-- All three are called differently, and the digit is called the same without the
nodes that have no chosen name. -/
theorem exists_assignment_homonyms :
    (∀ n ∈ homonyms, n.isNamed → ∃ s, n.name = .text s) ∧ (homonyms.map Node.id).Nodup ∧
      ∃ names names', assignNames homonyms = .ok names ∧ Assignment homonyms names ∧
        names.get? "a" = some "_rule3" ∧ names.get? "b" = some "_rule31" ∧
        names.get? "c" = some "_rule32" ∧
        assignNames (homonyms.filter Node.isNamed) = .ok names' ∧
        names'.get? "b" = some "_rule31" := by
  have htexts : ∀ n ∈ homonyms, n.isNamed → ∃ s, n.name = .text s := by
    simp [homonyms, Node.isNamed, Value.isPresent]
  have hids : (homonyms.map Node.id).Nodup := by decide
  have heval : ∃ names, assignNames homonyms = .ok names ∧
      decide (names.get? "a" = some "_rule3" ∧ names.get? "b" = some "_rule31" ∧
        names.get? "c" = some "_rule32") :=
    Fault.exists_ok_of_any (by decide +kernel)
  obtain ⟨names, hnames, hassignment, hkept⟩ := exists_assignment htexts
  obtain ⟨evaluated, hevaluated, hget⟩ := heval
  obtain rfl : names = evaluated := Except.ok.inj (hnames.symm.trans hevaluated)
  obtain ⟨ha, hb, hc⟩ := of_decide_eq_true hget
  obtain ⟨names', hnames', hsame⟩ := hkept hids Node.isNamed fun _ _ h => h
  have hb' := hsame { id := "b", kind := .digit, name := .text "_Rule3" }
    (by simp [homonyms]) (by decide)
  exact ⟨htexts, hids, names, names', hnames, hassignment, ha, hb, hc, hnames', hb'.trans hb⟩

end RuleSet

end GrammarDiagram
