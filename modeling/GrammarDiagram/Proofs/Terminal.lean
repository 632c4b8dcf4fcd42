/-
GrammarDiagram/Proofs/Terminal.lean

Texts that are printed as they are.

Printing leaves control sequences out.  So a text is printed as it is exactly if no
control sequence occurs in it (`plain_eq_self_iff`): leaving one out makes the text
shorter, and a text without any is kept character by character.

Control sequences start with the escape character, which is no character of names
and is not written between them.  Hence a grammar has it only if the pattern of a
node has it (`lacks_grammar`).
-/
import GrammarDiagram.Proofs.Closure
import GrammarDiagram.Text.Terminal

namespace GrammarDiagram

/-! ### Control sequences -/

namespace Text

/-- The escape character, an opening bracket, parameters and a letter. -/
def IsControl (cs : List Char) : Prop :=
  ∃ params letter, cs = '\x1b' :: '[' :: (params ++ [letter]) ∧
    (∀ c ∈ params, isParameterChar c) ∧ letter.isAlpha

/-- A control sequence occurs in a text. -/
def HasControl (s : String) : Prop := ∃ cs, IsControl cs ∧ cs <:+: s.toList

theorem not_isParameterChar_of_isAlpha {c : Char} (h : c.isAlpha) :
    isParameterChar c = false := by
  have hrange : 0x41 ≤ c.toNat := by
    rcases Bool.or_eq_true_iff.mp h with hupper | hlower
    · exact UInt32.le_iff_toNat_le.mp (of_decide_eq_true hupper).1
    · have hlow := of_decide_eq_true (Bool.and_eq_true_iff.mp hlower).1
      exact Nat.le_trans (by decide) (UInt32.le_iff_toNat_le.mp hlow)
  -- digits, the semicolon and the question mark come before the letters
  rw [Bool.eq_false_iff]
  intro hparam
  simp only [isParameterChar, Char.isDigit, Bool.or_eq_true, Bool.and_eq_true, decide_eq_true_eq,
    beq_iff_eq, UInt32.le_iff_toNat_le] at hparam
  rcases hparam with (⟨-, hhigh⟩ | rfl) | rfl
  · exact absurd (Nat.le_trans hrange hhigh) (by decide)
  · exact absurd hrange (by decide)
  · exact absurd hrange (by decide)

/-- What follows a control sequence behind its bracket. -/
theorem afterControl?_eq_some_iff {cs rest : List Char} :
    afterControl? cs = some rest ↔
      ∃ params letter, cs = params ++ letter :: rest ∧ (∀ c ∈ params, isParameterChar c) ∧
        letter.isAlpha := by
  induction cs with
  | nil => simp [afterControl?]
  | cons c cs ih =>
    unfold afterControl?
    split
    · rename_i hparam
      rw [ih]
      constructor
      · rintro ⟨params, letter, rfl, hparams, hletter⟩
        exact ⟨c :: params, letter, rfl, List.forall_mem_cons.mpr ⟨hparam, hparams⟩, hletter⟩
      · rintro ⟨- | ⟨p, params⟩, letter, heq, hparams, hletter⟩
        · -- a letter is no parameter
          obtain ⟨rfl, rfl⟩ := List.cons.inj heq
          rw [not_isParameterChar_of_isAlpha hletter] at hparam
          cases hparam
        · obtain ⟨rfl, rfl⟩ := List.cons.inj heq
          exact ⟨params, letter, rfl, (List.forall_mem_cons.mp hparams).2, hletter⟩
    · rename_i hparam
      have hfirst : ∀ {params : List Char} {letter : Char}, c :: cs = params ++ letter :: rest →
          (∀ d ∈ params, isParameterChar d) → letter = c ∧ cs = rest := by
        rintro (- | ⟨p, params⟩) letter heq hparams
        · obtain ⟨rfl, rfl⟩ := List.cons.inj heq
          exact ⟨rfl, rfl⟩
        · obtain ⟨rfl, -⟩ := List.cons.inj heq
          exact absurd (hparams c List.mem_cons_self) hparam
      split
      · rename_i halpha
        constructor
        · intro h
          cases h
          exact ⟨[], c, rfl, fun d hd => absurd hd List.not_mem_nil, halpha⟩
        · rintro ⟨params, letter, heq, hparams, -⟩
          rw [(hfirst heq hparams).2]
      · rename_i halpha
        constructor
        · intro h
          cases h
        · rintro ⟨params, letter, heq, hparams, hletter⟩
          rw [(hfirst heq hparams).1] at hletter
          exact absurd hletter halpha

/-- A control sequence stands at the start of a text. -/
theorem exists_control_prefix_iff {c d : Char} {rest : List Char} :
    (∃ cs, IsControl cs ∧ cs <+: c :: d :: rest) ↔
      (c = '\x1b' ∧ d = '[') ∧ ∃ after, afterControl? rest = some after := by
  simp only [afterControl?_eq_some_iff]
  constructor
  · rintro ⟨_, ⟨params, letter, rfl, hparams, hletter⟩, after, heq⟩
    simp only [List.cons_append, List.append_assoc, List.nil_append, List.cons.injEq] at heq
    obtain ⟨hc, hd, hrest⟩ := heq
    exact ⟨⟨hc.symm, hd.symm⟩, after, params, letter, hrest.symm, hparams, hletter⟩
  · rintro ⟨⟨rfl, rfl⟩, after, params, letter, rfl, hparams, hletter⟩
    exact ⟨_, ⟨params, letter, rfl, hparams, hletter⟩, after, by simp⟩

/-- No control sequence is shorter than three characters. -/
theorem IsControl.exists_eq {cs : List Char} (h : IsControl cs) :
    ∃ c rest, cs = '\x1b' :: '[' :: c :: rest := by
  obtain ⟨- | ⟨p, params⟩, letter, rfl, -, -⟩ := h
  · exact ⟨letter, [], rfl⟩
  · exact ⟨p, params ++ [letter], rfl⟩

theorem length_withoutControls_le (cs : List Char) : (withoutControls cs).length ≤ cs.length := by
  fun_induction withoutControls cs with
  | case1 => exact Nat.le_refl _
  | case2 c => exact Nat.le_refl _
  | case3 c d rest hstart after h hlt ih =>
    simp only [List.length_cons]
    omega
  | case4 c d rest hstart h ih => exact Nat.succ_le_succ ih
  | case5 c d rest hstart ih => exact Nat.succ_le_succ ih

/-- Characters stay as they are exactly if no control sequence occurs. -/
theorem withoutControls_eq_self_iff (cs : List Char) :
    withoutControls cs = cs ↔ ¬ ∃ control, IsControl control ∧ control <:+: cs := by
  -- behind a character that opens no sequence the question is that of the rest
  have hskip : ∀ {c d : Char} {rest : List Char},
      ¬ (∃ control, IsControl control ∧ control <+: c :: d :: rest) →
      (withoutControls (d :: rest) = d :: rest ↔
        ¬ ∃ control, IsControl control ∧ control <:+: d :: rest) →
      (c :: withoutControls (d :: rest) = c :: d :: rest ↔
        ¬ ∃ control, IsControl control ∧ control <:+: c :: d :: rest) := by
    intro c d rest hno ih
    have hcases : ∀ control, control <:+: c :: d :: rest ↔
        control <+: c :: d :: rest ∨ control <:+: d :: rest := fun _ => List.infix_cons_iff
    rw [List.cons_inj_right, ih]
    simp only [hcases, and_or_left, exists_or, hno, false_or]
  have hshort : ∀ {cs : List Char}, cs.length < 3 →
      ¬ ∃ control, IsControl control ∧ control <:+: cs := by
    rintro cs hlen ⟨control, hcontrol, hoccurs⟩
    obtain ⟨c, rest, rfl⟩ := hcontrol.exists_eq
    have := hoccurs.length_le
    simp only [List.length_cons] at this
    omega
  fun_induction withoutControls cs with
  | case1 => exact iff_of_true rfl (hshort (by decide))
  | case2 c => exact iff_of_true rfl (hshort (by simp))
  | case3 c d rest hstart after h hlt ih =>
    -- the text gets shorter here
    have hle := length_withoutControls_le after
    have hne : withoutControls after ≠ c :: d :: rest := by
      intro heq
      rw [heq] at hle
      simp only [List.length_cons] at hle
      omega
    obtain ⟨control, hcontrol, hpre⟩ :=
      exists_control_prefix_iff.mpr ⟨by simpa using hstart, after, h⟩
    exact iff_of_false hne fun hnot => hnot ⟨control, hcontrol, hpre.isInfix⟩
  | case4 c d rest hstart h ih =>
    refine hskip (fun hpre => ?_) ih
    obtain ⟨-, after, hafter⟩ := exists_control_prefix_iff.mp hpre
    rw [h] at hafter
    cases hafter
  | case5 c d rest hstart ih =>
    refine hskip (fun hpre => hstart ?_) ih
    simpa using (exists_control_prefix_iff.mp hpre).1

/-- A text is printed as it is exactly if no control sequence occurs in it. -/
theorem plain_eq_self_iff (s : String) : plain s = s ↔ ¬ HasControl s := by
  rw [HasControl, ← withoutControls_eq_self_iff, plain, ← String.toList_inj, String.toList_ofList]

theorem not_hasControl {s : String} (h : Lacks '\x1b' s) : ¬ HasControl s := by
  rintro ⟨control, hcontrol, hoccurs⟩
  obtain ⟨c, rest, rfl⟩ := hcontrol.exists_eq
  exact h (hoccurs.subset List.mem_cons_self)

end Text

/-! ### Characters of a grammar -/

section Grammar

variable {c : Char} {nodes : List Node} {edges : List Edge} {names : Table String}

/-- Names are empty or identifiers, also if several nodes have one id. -/
theorem RuleSet.isIdentifier_of_assignNames (h : assignNames nodes = .ok names) {id x : String}
    (hx : names.get? id = some x) : x = "" ∨ Name.IsIdentifier x := by
  obtain ⟨claims, hclaims, h⟩ := Fault.bind_eq_ok_iff.mp h
  cases h
  obtain ⟨taken, hnames⟩ :=
    Names.nameNodes (claims_sound hclaims) nodes 0 (Names.empty claims)
  by_cases hroot : x = Name.root
  · rw [hroot]
    exact .inr Name.isIdentifier_root
  · by_cases hempty : x = ""
    · exact .inl hempty
    · exact .inr (hnames.origin hx hroot hempty).2.1

/-- The characters of a text of rules that are neither of bodies nor of names. -/
def lineMarks : List Char := marks ++ [':', '=', '"', '\n']

theorem RuleSet.lacks_render {rs : RuleSet} (hc : c ∉ lineMarks)
    (hslug : Text.isSlugChar c = false) (hnames : ∀ n, rs.hasRule n → Lacks c n)
    (hover : Over (Lacks c) (Lacks c) rs) : Lacks c rs.render := by
  have hmarks : c ∉ marks := fun h => hc (List.mem_append_left _ h)
  refine .intercalate (lacks_of_all hc (by decide)) fun l hl => ?_
  obtain ⟨n, b, rfl, hn, hb⟩ := exists_of_mem_lines hl
  have hname : Lacks c n := by
    rcases hn with rfl | ⟨hrule, -⟩
    · exact Name.isIdentifier_root.not_mem hslug
    · exact hnames n hrule
  have hbody : Lacks c b := by
    rcases hb with rfl | ⟨hrule, rfl⟩
    · exact lacks_of_all hc (by decide)
    · exact hover.lacks_body hmarks hrule
  exact (hname.append (lacks_of_all hc (by decide))).append hbody

/-- Apart from those of names and of the lines, a grammar has only characters of the
patterns. -/
theorem lacks_grammar {optimize : Bool} {compilation : Compilation} (hc : c ∉ lineMarks)
    (hslug : Text.isSlugChar c = false)
    (h : (compile optimize nodes edges).result = .ok compilation)
    (hpattern : ∀ n ∈ nodes, Lacks c n.pattern) : Lacks c compilation.grammar := by
  rw [grammar_of_compile h]
  obtain ⟨-, rs, hrs, rfl⟩ := compile_eq_ok_iff.mp h
  obtain ⟨names, hnames, -, rfl⟩ := RuleSet.synthesize_eq_ok_iff.mp hrs
  have hname : ∀ {id x}, names.get? id = some x → Lacks c x := by
    intro id x hx
    rcases RuleSet.isIdentifier_of_assignNames hnames hx with rfl | hid
    · exact List.not_mem_nil
    · exact hid.not_mem hslug
  have hrule : ∀ n, (RuleSet.assemble names nodes edges).hasRule n → Lacks c n := by
    intro n hn
    obtain ⟨m, -, -, hget⟩ := RuleSet.hasRule_assemble_iff.mp hn
    exact hname hget
  have hover : RuleSet.Over (Lacks c) (Lacks c) (RuleSet.assemble names nodes edges) :=
    RuleSet.over_assemble hname hpattern
  have hmarks : c ∉ marks := fun h => hc (List.mem_append_left _ h)
  have hstable := RuleSet.stable_lacks hmarks hslug
  cases optimize
  · exact RuleSet.lacks_render hc hslug hrule hover
  · refine RuleSet.lacks_render hc hslug (fun n hn => ?_) (hover.optimize hstable hrule)
    exact hrule n (RuleSet.hasRule_of_optimize hn)

end Grammar

end GrammarDiagram
