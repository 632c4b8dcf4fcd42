/-
GrammarDiagram/Proofs/Atom.lean

Atoms: the patterns that stand among alternatives without parentheses.

An atom is a quoted literal or a bracket expression: contents between delimiters,
where a backslash takes the character behind it along.  `Atom` is the grammar and
`isAtom` the test, which also lets one line feed follow (`isAtom_iff_bare`).

The first closing character that no backslash takes along is the end of the atom
(`closesAtom_append`).  So an atom with anything else behind it is no atom, be it
another atom or an operator, and goes into parentheses (`not_bare_append`).
-/
import GrammarDiagram.RuleSet.Pattern
import Mathlib.Data.List.Basic

namespace GrammarDiagram.Pattern

/-! ### Contents and their end -/

/-- What stands between delimiters: characters other than the closing one and the
backslash, and backslashes with a character other than a line feed behind them. -/
inductive Contents (closing : Char) : List Char → Prop
  | nil : Contents closing []
  | plain {c cs} : c ≠ closing → c ≠ '\\' → Contents closing cs → Contents closing (c :: cs)
  | escaped {c cs} : c ≠ '\n' → Contents closing cs → Contents closing ('\\' :: c :: cs)

theorem closesAtom_cons {closing c : Char} {cs : List Char} (hne : c ≠ closing) (hback : c ≠ '\\')
    (hcs : cs ≠ []) : closesAtom closing (c :: cs) = closesAtom closing cs := by
  obtain ⟨d, rest, rfl⟩ := List.exists_cons_of_ne_nil hcs
  rw [closesAtom, if_neg (by simpa using hne), if_neg (by simpa using hback)]

/-- Behind contents the closing character ends the atom, and the text too up to a
line feed. -/
theorem closesAtom_append {closing : Char} {cs : List Char} (h : Contents closing cs)
    (hclosing : '\\' ≠ closing) (tail : List Char) :
    closesAtom closing (cs ++ closing :: tail) ↔ tail = [] ∨ tail = ['\n'] := by
  induction h with
  | nil => rcases tail with - | ⟨d, rest⟩ <;> simp [closesAtom]
  | plain hne hback _ ih => rwa [List.cons_append, closesAtom_cons hne hback (by simp)]
  | escaped hc _ ih =>
    rw [List.cons_append, List.cons_append, closesAtom, if_neg (by simpa using hclosing),
      if_pos (beq_self_eq_true _), Bool.and_eq_true, and_iff_right (by simpa using hc)]
    exact ih

/-- The test goes through contents up to a closing character. -/
theorem exists_contents_of_closesAtom {closing : Char} {cs : List Char}
    (h : closesAtom closing cs) :
    ∃ front tail, Contents closing front ∧ cs = front ++ closing :: tail := by
  fun_induction closesAtom closing cs with
  | case1 => cases h
  | case2 c =>
    rw [beq_iff_eq] at h
    exact ⟨[], [], .nil, by rw [h]; rfl⟩
  | case3 c d rest hc =>
    rw [beq_iff_eq] at hc
    exact ⟨[], d :: rest, .nil, by rw [hc]; rfl⟩
  | case4 c d rest hc hback ih =>
    rw [Bool.and_eq_true, bne_iff_ne] at h
    obtain ⟨front, tail, hfront, rfl⟩ := ih h.2
    rw [beq_iff_eq] at hback
    exact ⟨'\\' :: d :: front, tail, .escaped h.1 hfront, by rw [hback]; rfl⟩
  | case5 c d rest hc hback ih =>
    obtain ⟨front, tail, hfront, hrest⟩ := ih h
    rw [beq_iff_eq] at hc hback
    exact ⟨c :: front, tail, .plain hc hback hfront, by rw [hrest]; rfl⟩

/-! ### Atoms -/

/-- The delimiters of literals and of bracket expressions. -/
inductive Delimits : Char → Char → Prop
  | quotes : Delimits '"' '"'
  | brackets : Delimits '[' ']'

theorem Delimits.backslash_ne {opening closing : Char} (h : Delimits opening closing) :
    '\\' ≠ closing := by
  cases h <;> decide

/-- One quoted literal or one bracket expression. -/
inductive Atom : String → Prop
  | enclosed {opening closing : Char} {cs : List Char} : Delimits opening closing →
      Contents closing cs → Atom (String.ofList (opening :: (cs ++ [closing])))

theorem isAtom_cons {opening closing : Char} (h : Delimits opening closing) (rest : List Char) :
    isAtom (opening :: rest) = closesAtom closing rest := by
  cases h <;> rfl

theorem exists_delimits_of_isAtom {cs : List Char} (h : isAtom cs) :
    ∃ opening closing rest, Delimits opening closing ∧ cs = opening :: rest ∧
      closesAtom closing rest := by
  unfold isAtom at h
  split at h
  · exact ⟨_, _, _, .quotes, rfl, h⟩
  · exact ⟨_, _, _, .brackets, rfl, h⟩
  · cases h

/-- An atom is closed where it ends. -/
theorem Atom.isAtom_append {a : String} (ha : Atom a) (t : String) :
    isAtom (a ++ t).toList ↔ t = "" ∨ t = "\n" := by
  obtain ⟨hdelimits, hcs⟩ := ha
  rw [String.toList_append, String.toList_ofList, List.cons_append, List.append_assoc,
    isAtom_cons hdelimits, List.singleton_append, closesAtom_append hcs hdelimits.backslash_ne,
    ← String.toList_inj, ← String.toList_inj]
  rfl

/-- An atom, with a line feed behind it or without. -/
def Bare (p : String) : Prop := ∃ a, Atom a ∧ (p = a ∨ p = a ++ "\n")

theorem Atom.bare {a : String} (ha : Atom a) : Bare a := ⟨a, ha, .inl rfl⟩

theorem isAtom_iff_bare {p : String} : isAtom p.toList ↔ Bare p := by
  constructor
  · intro h
    obtain ⟨opening, closing, rest, hdelimits, hp, hrest⟩ := exists_delimits_of_isAtom h
    obtain ⟨front, tail, hfront, rfl⟩ := exists_contents_of_closesAtom hrest
    have ha : Atom (String.ofList (opening :: (front ++ [closing]))) := .enclosed hdelimits hfront
    have hsplit : p = String.ofList (opening :: (front ++ [closing])) ++ String.ofList tail := by
      rw [← String.ofList_append, ← String.toList_inj, hp, String.toList_ofList]
      simp
    -- the test says what may be left
    rw [hsplit, ha.isAtom_append] at h
    refine ⟨_, ha, ?_⟩
    rcases h with h | h
    · rw [h, String.append_empty] at hsplit
      exact .inl hsplit
    · rw [h] at hsplit
      exact .inr hsplit
  · rintro ⟨a, ha, rfl | rfl⟩
    · rw [← String.append_empty (s := p)]
      exact (ha.isAtom_append "").mpr (.inl rfl)
    · exact (ha.isAtom_append "\n").mpr (.inr rfl)

/-! ### Parentheses -/

theorem fragment_of_not_bare {p : String} (h : ¬ Bare p) : fragment p = "(" ++ p ++ ")" := by
  rw [fragment, if_neg (isAtom_iff_bare.not.mpr h)]

theorem fragment_eq_self_iff {p : String} : fragment p = p ↔ Bare p := by
  constructor
  · intro h
    by_contra hnot
    -- parentheses make a text longer
    have hlength := congrArg String.length h
    rw [fragment_of_not_bare hnot, String.length_append, String.length_append] at hlength
    have hone : "(".length = 1 := rfl
    omega
  · intro h
    rw [fragment, if_pos (isAtom_iff_bare.mpr h)]

theorem not_bare_append {p t : String} (hp : Bare p) (hempty : t ≠ "") (hfeed : t ≠ "\n") :
    ¬ Bare (p ++ t) := by
  rw [← isAtom_iff_bare]
  obtain ⟨a, ha, rfl | rfl⟩ := hp
  · rw [ha.isAtom_append]
    exact not_or.mpr ⟨hempty, hfeed⟩
  · -- the line feed is no longer the last character
    rw [String.append_assoc, ha.isAtom_append]
    rintro (h | h)
    · exact hempty (String.append_eq_empty_iff.mp h).2
    · apply hempty
      rw [← String.toList_inj] at h ⊢
      simpa using h

/-- So many atoms one behind the other, with or without a space between two. -/
inductive Row : Nat → String → Prop
  | last {a} : Bare a → Row 1 a
  | glued {n a t} : Bare a → Row n t → Row (n + 1) (a ++ t)
  | spaced {n a t} : Bare a → Row n t → Row (n + 1) (a ++ (" " ++ t))

/-- What starts with an atom is neither nothing nor a line feed. -/
theorem Bare.append_ne {a : String} (ha : Bare a) (t : String) : a ++ t ≠ "" ∧ a ++ t ≠ "\n" := by
  obtain ⟨opening, closing, rest, hdelimits, hlist, -⟩ :=
    exists_delimits_of_isAtom (isAtom_iff_bare.mpr ha)
  simp only [← String.toList_inj, String.toList_append, hlist, ne_eq]
  constructor
  · intro h
    cases h
  · intro h
    rw [(List.cons.inj h).1] at hdelimits
    cases hdelimits

theorem Row.ne {n : Nat} {t : String} (h : Row n t) : t ≠ "" ∧ t ≠ "\n" := by
  cases h with
  | last ha => simpa using ha.append_ne ""
  | glued ha _ => exact ha.append_ne _
  | spaced ha _ => exact ha.append_ne _

theorem Row.not_bare {n : Nat} {t : String} (h : Row n t) (hn : 2 ≤ n) : ¬ Bare t := by
  cases h with
  | last => omega
  | glued ha ht => exact not_bare_append ha ht.ne.1 ht.ne.2
  | @spaced _ _ t ha _ =>
    refine not_bare_append ha ?_ ?_
    · intro h
      exact absurd (String.append_eq_empty_iff.mp h).1 (by decide)
    · intro h
      rw [← String.toList_inj, String.toList_append] at h
      cases h

/-- A pattern stands for itself if it is one atom, which a line feed may follow, and
goes into parentheses in every other case: also where anything else follows an atom,
and where there are two atoms or more. -/
theorem fragment_recognises_atoms (p : String) :
    (fragment p = p ↔ Bare p) ∧
    (¬ Bare p → fragment p = "(" ++ p ++ ")") ∧
    (∀ a t, Bare a → t ≠ "" → t ≠ "\n" → p = a ++ t → fragment p = "(" ++ p ++ ")") ∧
    (∀ n, 2 ≤ n → Row n p → fragment p = "(" ++ p ++ ")") := by
  refine ⟨fragment_eq_self_iff, fragment_of_not_bare, ?_, ?_⟩
  · rintro a t ha hempty hfeed rfl
    exact fragment_of_not_bare (not_bare_append ha hempty hfeed)
  · intro n hn hrow
    exact fragment_of_not_bare (hrow.not_bare hn)

/-- A literal that ends with a backslash and a bracket expression with both closing
characters: each stands for itself, and the two need parentheses, as does the first
with a star. -/
theorem fragment_recognises_atoms_adjacent :
    fragment "\"a\\\\\"" = "\"a\\\\\"" ∧ fragment "[\\]\"]" = "[\\]\"]" ∧
      fragment "\"a\\\\\"*" = "(\"a\\\\\"*)" ∧
      fragment "\"a\\\\\" [\\]\"]" = "(\"a\\\\\" [\\]\"])" := by
  have hliteral : Bare "\"a\\\\\"" := isAtom_iff_bare.mp (by decide)
  have hset : Bare "[\\]\"]" := isAtom_iff_bare.mp (by decide)
  obtain ⟨-, -, hstar, -⟩ := fragment_recognises_atoms "\"a\\\\\"*"
  obtain ⟨-, -, -, htwo⟩ := fragment_recognises_atoms "\"a\\\\\" [\\]\"]"
  exact ⟨(fragment_recognises_atoms _).1.mpr hliteral, (fragment_recognises_atoms _).1.mpr hset,
    hstar "\"a\\\\\"" "*" hliteral (by decide) (by decide) (by decide),
    htwo 2 (by decide) (.spaced hliteral (.last hset))⟩

end GrammarDiagram.Pattern
