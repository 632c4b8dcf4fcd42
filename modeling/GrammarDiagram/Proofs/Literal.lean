/-
GrammarDiagram/Proofs/Literal.lean

A literal is escaped exactly once on its way from a document to a grammar.

Three readings of a quoted text have to agree.  It is written by one pass over the
characters, which comes to the same as replacing the five characters one after the
other, the backslash first (`escapeChars_eq_replaceAll`).  Reading it back from left
to right gives the text.  And the atom test finds that the quotes at its ends are
the only ones which are not escaped (`unescapedAt_append`, `fragment_quote`).
What the last two need of an escaped text is that it is `Enclosable`.

A document that holds the escaped form of a text therefore stands for a node with
the text itself (`ofValue_document`), whose pattern is the quoted text.
-/
import GrammarDiagram.Proofs.Closure
import GrammarDiagram.Proofs.Reader

namespace GrammarDiagram

open Gbnf

/-! ### Replacing characters one after the other -/

namespace Literal

/-- Write another text in the place of every occurrence of a character. -/
def replaceAll (c : Char) (new cs : List Char) : List Char :=
  cs.flatMap fun d => if d = c then new else [d]

theorem escapeLetter?_eq_none {c : Char} (hc : c ∉ ['\\', '"', '\n', '\r', '\t']) :
    escapeLetter? c = none := by
  unfold escapeLetter?
  split
  case h_6 => rfl
  all_goals simp at hc

/-- Nothing that an earlier replacement wrote is touched by a later one. -/
theorem escapeChars_eq_replaceAll (cs : List Char) :
    escapeChars cs = replaceAll '\t' ['\\', 't'] (replaceAll '\r' ['\\', 'r']
      (replaceAll '\n' ['\\', 'n'] (replaceAll '"' ['\\', '"']
        (replaceAll '\\' ['\\', '\\'] cs)))) := by
  simp only [replaceAll, escapeChars, List.flatMap_assoc]
  congr 1
  funext c
  by_cases hc : c ∈ ['\\', '"', '\n', '\r', '\t']
  · simp only [List.mem_cons, List.not_mem_nil, or_false] at hc
    rcases hc with rfl | rfl | rfl | rfl | rfl <;> rfl
  · rw [escapeChar, escapeLetter?_eq_none hc]
    simp only [List.mem_cons, List.not_mem_nil, or_false, not_or] at hc
    simp [hc]

/-! ### Between the quotes -/

/-- A text without its first and its last character. -/
def inner (s : String) : String := String.ofList s.toList.tail.dropLast

theorem inner_quote (t : String) : inner (quote t) = String.ofList (escapeChars t.toList) := by
  simp [inner]

theorem unescape_inner_quote (t : String) : unescape (inner (quote t)) = t := by
  rw [inner_quote, unescape, String.toList_ofList, unescapeChars_escapeChars,
    String.ofList_toList]

/-- The places of a character where it is not escaped, counted from `i`.  A backslash
escapes the character behind it. -/
def unescapedAt (mark : Char) (i : Nat) : List Char → List Nat
  | [] => []
  | [c] => if c = mark then [i] else []
  | c :: d :: rest =>
    if c = '\\' then unescapedAt mark (i + 2) rest
    else if c = mark then i :: unescapedAt mark (i + 1) (d :: rest)
    else unescapedAt mark (i + 1) (d :: rest)

theorem unescapedAt_cons {mark c : Char} (hc : c ≠ '\\') (i : Nat) (cs : List Char) :
    unescapedAt mark i (c :: cs) =
      (if c = mark then [i] else []) ++ unescapedAt mark (i + 1) cs := by
  rcases cs with - | ⟨d, rest⟩
  · simp [unescapedAt]
  · rw [unescapedAt, if_neg hc]
    split <;> rfl

/-- Up to the closing character it is always escaped. -/
theorem unescapedAt_append {mark : Char} {cs : List Char} (h : Enclosable mark cs) (i : Nat)
    (rest : List Char) :
    unescapedAt mark i (cs ++ rest) = unescapedAt mark (i + cs.length) rest := by
  induction h generalizing i with
  | nil => rfl
  | @plain c cs hne hback _ ih =>
    rw [List.cons_append, unescapedAt_cons hback, if_neg hne, List.nil_append, ih,
      List.length_cons, Nat.add_assoc, Nat.add_comm 1]
  | @escaped c cs _ ih =>
    rw [List.cons_append, List.cons_append, unescapedAt, if_pos rfl, ih]
    simp only [List.length_cons, Nat.add_assoc, Nat.add_comm 2]

theorem unescapedAt_quote (t : String) :
    unescapedAt '"' 0 (quote t).toList = [0, (quote t).length - 1] := by
  have hlength : (quote t).length - 1 = 0 + 1 + (escapeChars t.toList).length := by
    rw [← String.length_toList, toList_quote]
    simp [Nat.add_comm]
  rw [toList_quote, unescapedAt_cons (by decide), if_pos rfl,
    unescapedAt_append (enclosable_escapeChars t.toList), hlength]
  rfl

end Literal

/-! ### Atoms -/

namespace Pattern

theorem fragment_quote (t : String) : fragment (Literal.quote t) = Literal.quote t := by
  have hcontents : Contents '"' (Literal.escapeChars t.toList) :=
    (enclosable_escapeChars _).contents (not_mem_escapeChars List.mem_cons_self _)
  exact fragment_eq_self_iff.mpr (Atom.enclosed .quotes hcontents).bare

end Pattern

/-! ### Properties -/

namespace Properties

/-- The property that was put. -/
theorem find?_put_self (name : String) (v : Value) (ps : Properties) :
    (ps.put (.text name) v).find? name = some v := by
  induction ps with
  | nil => simp [put, find?, Value.same]
  | cons p rest ih =>
    by_cases hp : Value.same p.1 (.text name) <;> simp [put, find?, hp, ih]

/-- A property that is a text is itself, and the default where the text is empty. -/
theorem text_of_find? {ps : Properties} {name t : String} (h : ps.find? name = some (.text t)) :
    ps.text name "" = t := by
  rw [text, h]
  by_cases ht : t = "" <;> simp [Value.isPresent, ht]

end Properties

/-! ### Documents of literals -/

theorem Kind.ofTag_tag (k : Kind) : Kind.ofTag (.text k.tag) = .ok k := by
  cases k <;> with_unfolding_all rfl

/-- A document of a literal that can be read: an object with an id and the tag of
literals, with a place and data that are objects or absent, and with properties of
which one is this value. -/
structure LiteralDocument (value : String) where
  fields : List (String × Value)
  id : Value
  place : List (String × Value)
  data : List (String × Value)
  properties : Properties
  tag_eq : Value.findField "type" fields = some (.text Kind.literal.tag)
  id_eq : Value.findField "id" fields = some id
  place_eq : ((Value.findField "position" fields).getD .null).orEmpty = .object place
  data_eq : ((Value.findField "data" fields).getD .null).orEmpty = .object data
  properties_eq :
    Properties.ofValue ((Value.findField "properties" data).getD .null) = .ok properties
  value_eq : properties.find? "value" = some (.text value)

/-- The node that a document of a literal stands for: its value is unescaped, and all
else is as the document has it. -/
def LiteralDocument.node {value : String} (d : LiteralDocument value) : Node where
  id := d.id.display
  kind := .literal
  position := {
    x := (Value.findField "x" d.place).getD (.int 0)
    y := (Value.findField "y" d.place).getD (.int 0) }
  name := ((Value.findField "name" d.data).getD .null).orNull
  label := ((Value.findField "label" d.data).getD .null).orNull
  properties := d.properties.put (.text "value") (.text (Literal.unescape value))

theorem ofValue_document {value : String} (d : LiteralDocument value) :
    Node.ofValue (.object d.fields) = .ok d.node := by
  have htag : (Value.object d.fields).require "type" = .ok (.text Kind.literal.tag) := by
    simp only [Value.require, d.tag_eq]
  have hid : (Value.object d.fields).require "id" = .ok d.id := by
    simp only [Value.require, d.id_eq]
  have hstored : Node.storedProperties .literal d.properties = d.node.properties := by
    simp only [Node.storedProperties, d.value_eq, LiteralDocument.node]
  -- tag, place, data, properties and id are read in this order
  refine Fault.bind_eq_ok_iff.mpr ⟨_, htag, ?_⟩
  refine Fault.bind_eq_ok_iff.mpr ⟨_, Kind.ofTag_tag .literal, ?_⟩
  refine Fault.bind_eq_ok_iff.mpr ⟨_, rfl, ?_⟩
  refine Fault.bind_eq_ok_iff.mpr ⟨_, rfl, ?_⟩
  rw [d.place_eq, d.data_eq]
  refine Fault.bind_eq_ok_iff.mpr ⟨_, rfl, ?_⟩
  refine Fault.bind_eq_ok_iff.mpr ⟨_, d.properties_eq, ?_⟩
  refine Fault.bind_eq_ok_iff.mpr ⟨_, hid, ?_⟩
  rw [hstored]
  rfl

/-- A text is escaped once: as if the five characters were replaced one after the
other.  The quoted text holds no raw line break and no tab, only the quotes at its
ends are not escaped, and it is an atom.  Unescaping what is between the quotes gives
the text, and so a document that holds this is read as a literal of the text, with
the quoted text as its pattern. -/
theorem quote_escapes_once (t : String) :
    Literal.quote t = String.ofList ('"' :: (Literal.replaceAll '\t' ['\\', 't']
      (Literal.replaceAll '\r' ['\\', 'r'] (Literal.replaceAll '\n' ['\\', 'n']
        (Literal.replaceAll '"' ['\\', '"'] (Literal.replaceAll '\\' ['\\', '\\']
          t.toList)))) ++ ['"'])) ∧
    Literal.unescape (Literal.inner (Literal.quote t)) = t ∧
    (∀ d : LiteralDocument (Literal.inner (Literal.quote t)),
      ∃ n, Node.ofValue (.object d.fields) = .ok n ∧ n.kind = .literal ∧
        n.properties.find? "value" = some (.text t) ∧ n.pattern = Literal.quote t) ∧
    (∀ c ∈ ['\n', '\r', '\t'], c ∉ (Literal.quote t).toList) ∧
    Literal.unescapedAt '"' 0 (Literal.quote t).toList = [0, (Literal.quote t).length - 1] ∧
    Pattern.fragment (Literal.quote t) = Literal.quote t := by
  refine ⟨?_, Literal.unescape_inner_quote t, fun d => ?_, fun c hc => ?_,
    Literal.unescapedAt_quote t, Pattern.fragment_quote t⟩
  · rw [← Literal.escapeChars_eq_replaceAll]
    rfl
  · have hvalue : d.node.properties.find? "value" = some (.text t) := by
      rw [LiteralDocument.node, Properties.find?_put_self, Literal.unescape_inner_quote]
    refine ⟨d.node, ofValue_document d, rfl, hvalue, ?_⟩
    exact congrArg Literal.quote (Properties.text_of_find? hvalue)
  · have hnot := not_mem_escapeChars hc t.toList
    simp only [List.mem_cons, List.not_mem_nil, or_false] at hc
    rw [Literal.toList_quote]
    rcases hc with rfl | rfl | rfl <;> simpa using hnot

/-! ### Backslashes before what looks like an escape -/

/-- A backslash and the letter n, a backslash and a quote, and a line feed. -/
def trickyText : String := "\\n\\\"\n"

/-- A document with the escaped form, without a place, and with a number for its id. -/
def trickyDocument : LiteralDocument (Literal.inner (Literal.quote trickyText)) where
  fields := [
    ("id", .int 7),
    ("type", .text "stringNode"),
    ("data", .object [
      ("label", .text "tricky"),
      ("properties", .object [("value", .text (Literal.inner (Literal.quote trickyText)))])])]
  id := .int 7
  place := []
  data := [
    ("label", .text "tricky"),
    ("properties", .object [("value", .text (Literal.inner (Literal.quote trickyText)))])]
  properties := [(.text "value", .text (Literal.inner (Literal.quote trickyText)))]
  tag_eq := rfl
  id_eq := rfl
  place_eq := rfl
  data_eq := rfl
  properties_eq := rfl
  value_eq := by simp [Properties.find?, Value.same]

/-- The document is read as the text, and written with the same escapes again. -/
theorem quote_escapes_once_tricky :
    ∃ n, Node.ofValue (.object trickyDocument.fields) = .ok n ∧
      n.properties.find? "value" = some (.text trickyText) ∧
      n.pattern = "\"\\\\n\\\\\\\"\\n\"" := by
  obtain ⟨-, -, hdocument, -⟩ := quote_escapes_once trickyText
  obtain ⟨n, hn, -, hvalue, hpattern⟩ := hdocument trickyDocument
  have hquote : Literal.quote trickyText = "\"\\\\n\\\\\\\"\\n\"" := by decide
  exact ⟨n, hn, hvalue, hpattern.trans hquote⟩

end GrammarDiagram
