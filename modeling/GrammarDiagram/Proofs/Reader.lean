/-
GrammarDiagram/Proofs/Reader.lean

A reader of grammars.

A rule is a line: a name, the sign `::=` and alternatives, with bars between
them.  An alternative is a sequence, maybe an empty one, of names, quoted
literals, bracket expressions and groups of alternatives in parentheses, and each
of these may have a mark, `?` or `*`, behind it.

Reading takes two machines.  The first goes over the characters and cuts them into
tokens; it is between tokens, in a name, or inside quotes or brackets.  The second
goes over the tokens and keeps, for every open parenthesis, what was read before
it.  What the machines do with a text does not depend on what was read before it
(`Builds`), so texts can be put together from parts that are read one by one
(`Reads`).
-/
import GrammarDiagram.Proofs.Stripping
import GrammarDiagram.Proofs.Identifier

namespace GrammarDiagram.Gbnf

/-! ### Tokens -/

/-- What may stand behind an item. -/
inductive Mark where
  | optional
  | repeated
deriving DecidableEq, Repr

/-- The smallest parts of a grammar. -/
inductive Token where
  | name (s : String)
  | literal (s : String)
  | set (s : String)
  | bar
  | opening
  | closing
  | mark (m : Mark)
deriving DecidableEq, Repr

/-- Where the cutting of a text into tokens has come to. -/
inductive Mode where
  | between
  | name (cs : List Char)
  | inside (closing : Char) (escaped : Bool) (cs : List Char)

/-- What a character does between tokens. -/
def Mode.enter (c : Char) : Option (List Token × Mode) :=
  if Text.isSlugChar c then some ([], .name [c])
  else
    match c with
    | ' ' => some ([], .between)
    | '"' => some ([], .inside '"' false [])
    | '[' => some ([], .inside ']' false [])
    | '|' => some ([.bar], .between)
    | '(' => some ([.opening], .between)
    | ')' => some ([.closing], .between)
    | '?' => some ([.mark .optional], .between)
    | '*' => some ([.mark .repeated], .between)
    | _ => none

/-- What stands between quotes is a literal in its escaped form, what stands
between brackets a set of characters as it is written. -/
def enclosed (closing : Char) (cs : List Char) : Token :=
  if closing = '"' then .literal (Literal.unescape (String.ofList cs))
  else .set (String.ofList cs)

/-- What a character does: the tokens that it completes, and what comes then. -/
def Mode.step (m : Mode) (c : Char) : Option (List Token × Mode) :=
  match m with
  | .between => enter c
  | .name cs =>
    if Text.isSlugChar c then some ([], .name (cs ++ [c]))
    else (enter c).map fun r => (.name (String.ofList cs) :: r.1, r.2)
  | .inside closing true cs => some ([], .inside closing false (cs ++ [c]))
  | .inside closing false cs =>
    if c = closing then some ([enclosed closing cs], .between)
    else some ([], .inside closing (c == '\\') (cs ++ [c]))

/-- The tokens that the end of the text completes. -/
def Mode.finish : Mode → Option (List Token)
  | .between => some []
  | .name cs => some [.name (String.ofList cs)]
  | .inside _ _ _ => none

/-- The tokens of the rest of a text. -/
def scan (m : Mode) : List Char → Option (List Token)
  | [] => m.finish
  | c :: rest =>
    match m.step c with
    | some (ts, next) => (scan next rest).map (ts ++ ·)
    | none => none

/-- The tokens of a text. -/
def tokens (s : String) : Option (List Token) := scan .between s.toList

/-! ### Items -/

/-- What a sequence is made of. -/
inductive Item where
  | name (s : String)
  | literal (s : String)
  | set (s : String)
  | group (alternatives : List (List Item))
  | marked (item : Item) (mark : Mark)
deriving Repr

def Item.isMarked : Item → Bool
  | .marked _ _ => true
  | _ => false

/-- The alternatives that are read, and the one that is being read. -/
structure Frame where
  done : List (List Item) := []
  current : List Item := []

namespace Frame

def alternatives (f : Frame) : List (List Item) := f.done ++ [f.current]

/-- Go on with more items. -/
def append (f : Frame) (items : List Item) : Frame := { f with current := f.current ++ items }

/-- Put a mark on the last item. -/
def mark? (f : Frame) (m : Mark) : Option Frame :=
  match f.current.getLast? with
  | some item =>
    if item.isMarked then none
    else some { f with current := f.current.dropLast ++ [.marked item m] }
  | none => none

end Frame

/-- The alternatives that tokens make, behind what is read in the frame and with
what stood before the open parentheses. -/
def build (f : Frame) (outer : List Frame) : List Token → Option (List (List Item))
  | [] => if outer.isEmpty then some f.alternatives else none
  | .name s :: rest => build (f.append [.name s]) outer rest
  | .literal s :: rest => build (f.append [.literal s]) outer rest
  | .set s :: rest => build (f.append [.set s]) outer rest
  | .bar :: rest => build ⟨f.alternatives, []⟩ outer rest
  | .opening :: rest => build {} (f :: outer) rest
  | .closing :: rest =>
    match outer with
    | [] => none
    | g :: outer => build (g.append [.group f.alternatives]) outer rest
  | .mark m :: rest =>
    match f.mark? m with
    | some g => build g outer rest
    | none => none

/-- The alternatives that a text is read as. -/
def parse (s : String) : Option (List (List Item)) := (tokens s).bind (build {} [])

/-! ### Cutting parts of a text -/

theorem Mode.enter_of_isSlugChar {c : Char} (h : Text.isSlugChar c) :
    enter c = some ([], .name [c]) := by
  unfold enter
  rw [if_pos h]

/-- A text that is cut into tokens stays cut where no name goes on. -/
theorem scan_append {m : Mode} {p q : List Char} {ts : List Token} (hp : scan m p = some ts)
    (hq : ∀ c ∈ q.head?, Text.isSlugChar c = false) :
    scan m (p ++ q) = (scan .between q).map (ts ++ ·) := by
  induction p generalizing m ts with
  | nil =>
    cases m with
    | between =>
      cases hp
      simp
    | name cs =>
      -- the name ends where the rest starts
      cases hp
      rcases q with - | ⟨c, q⟩
      · rfl
      · have hc := hq c rfl
        rw [List.nil_append]
        simp only [scan, Mode.step, hc, Bool.false_eq_true, if_false]
        rcases Mode.enter c with - | ⟨us, next⟩
        · rfl
        · simp [Option.map_map, Function.comp_def]
    | inside closing escaped cs => cases hp
  | cons c p ih =>
    rw [List.cons_append]
    simp only [scan] at hp ⊢
    rcases hstep : m.step c with - | ⟨us, next⟩
    · rw [hstep] at hp
      cases hp
    · rw [hstep] at hp
      obtain ⟨vs, hvs, rfl⟩ := Option.map_eq_some_iff.mp hp
      simp only [ih hvs, Option.map_map, Function.comp_def, List.append_assoc]

/-- A character that stands for itself, or for nothing. -/
theorem scan_cons {c : Char} {ts : List Token} (h : Mode.enter c = some (ts, .between))
    (q : List Char) : scan .between (c :: q) = (scan .between q).map (ts ++ ·) := by
  simp only [scan, Mode.step, h]

/-- Parts of a text may have a sign or a blank between them. -/
theorem scan_append_cons {c : Char} {p q : List Char} {ts us vs : List Token}
    (hp : scan .between p = some ts) (hc : Mode.enter c = some (us, .between))
    (hq : scan .between q = some vs) : scan .between (p ++ c :: q) = some (ts ++ us ++ vs) := by
  have hslug : Text.isSlugChar c = false := by
    rcases hslug : Text.isSlugChar c with - | -
    · rfl
    · rw [Mode.enter_of_isSlugChar hslug] at hc
      cases hc
  rw [scan_append hp (by simpa using hslug), scan_cons hc, hq]
  simp

theorem scan_name (cs : List Char) {p : List Char} (h : ∀ c ∈ p, Text.isSlugChar c) :
    scan (.name cs) p = some [.name (String.ofList (cs ++ p))] := by
  induction p generalizing cs with
  | nil => rw [List.append_nil]; rfl
  | cons c p ih =>
    obtain ⟨hc, hp⟩ := List.forall_mem_cons.mp h
    simp only [scan, Mode.step, hc, if_true, ih _ hp]
    simp

/-- What may stand between delimiters: a backslash has a character behind it, and
the closing one stands behind a backslash only. -/
inductive Enclosable (closing : Char) : List Char → Prop
  | nil : Enclosable closing []
  | plain {c cs} : c ≠ closing → c ≠ '\\' → Enclosable closing cs → Enclosable closing (c :: cs)
  | escaped {c cs} : Enclosable closing cs → Enclosable closing ('\\' :: c :: cs)

theorem Enclosable.of_contents {closing : Char} {cs : List Char}
    (h : Pattern.Contents closing cs) : Enclosable closing cs := by
  induction h with
  | nil => exact .nil
  | plain hne hback _ ih => exact .plain hne hback ih
  | escaped _ _ ih => exact .escaped ih

/-- On one line there is no more to the contents of an atom. -/
theorem Enclosable.contents {closing : Char} {cs : List Char} (h : Enclosable closing cs)
    (hline : '\n' ∉ cs) : Pattern.Contents closing cs := by
  induction h with
  | nil => exact .nil
  | plain hne hback _ ih =>
    rw [List.mem_cons, not_or] at hline
    exact .plain hne hback (ih hline.2)
  | escaped _ ih =>
    simp only [List.mem_cons, not_or] at hline
    exact .escaped (Ne.symm hline.2.1) (ih hline.2.2)

theorem scan_inside {closing : Char} {cs : List Char} (h : Enclosable closing cs)
    (hclosing : '\\' ≠ closing) (front q : List Char) :
    scan (.inside closing false front) (cs ++ closing :: q) =
      (scan .between q).map (enclosed closing (front ++ cs) :: ·) := by
  induction h generalizing front with
  | nil => simp [scan, Mode.step]
  | @plain c cs hne hback _ ih =>
    simp only [List.cons_append, scan, Mode.step, if_neg hne, beq_eq_false_iff_ne.mpr hback, ih]
    simp [Function.comp_def]
  | @escaped c cs _ ih =>
    simp only [List.cons_append, scan, Mode.step, if_neg hclosing, beq_self_eq_true, ih]
    simp [Function.comp_def]

/-- A text between delimiters is one token. -/
theorem tokens_enclosed {s : String} {opening closing : Char} {cs : List Char}
    (hopening : Mode.enter opening = some ([], .inside closing false []))
    (hclosing : '\\' ≠ closing) (hcs : Enclosable closing cs)
    (hs : s.toList = opening :: (cs ++ [closing])) : tokens s = some [enclosed closing cs] := by
  have hinside := scan_inside hcs hclosing [] []
  simp only [tokens, hs, scan, Mode.step, hopening, hinside]
  rfl

/-! ### Building from parts -/

/-- The tokens make these items, whatever was read before them. -/
def Builds (ts : List Token) (items : List Item) : Prop :=
  ∀ f outer rest, build f outer (ts ++ rest) = build (f.append items) outer rest

namespace Builds

theorem nil : Builds [] [] := by
  intro f outer rest
  rw [Frame.append, List.append_nil, List.nil_append]

theorem append {ts us : List Token} {items more : List Item} (h : Builds ts items)
    (h' : Builds us more) : Builds (ts ++ us) (items ++ more) := by
  intro f outer rest
  rw [List.append_assoc, h, h', Frame.append, Frame.append, Frame.append, List.append_assoc]

theorem name (s : String) : Builds [.name s] [.name s] := fun _ _ _ => rfl

theorem literal (s : String) : Builds [.literal s] [.literal s] := fun _ _ _ => rfl

theorem set (s : String) : Builds [.set s] [.set s] := fun _ _ _ => rfl

/-- A mark belongs to the item before it. -/
theorem mark {ts : List Token} {item : Item} (h : Builds ts [item]) (hitem : item.isMarked = false)
    (m : Mark) : Builds (ts ++ [.mark m]) [.marked item m] := by
  intro f outer rest
  rw [List.append_assoc, h]
  simp [build, Frame.append, Frame.mark?, hitem]

/-- Alternatives up to the parenthesis that closes them. -/
theorem build_closing {tss : List (List Token)} {alternatives : List (List Item)}
    (h : List.Forall₂ Builds tss alternatives) (hne : tss ≠ []) (done : List (List Item))
    (g : Frame) (outer : List Frame) (rest : List Token) :
    build ⟨done, []⟩ (g :: outer) ([.bar].intercalate tss ++ .closing :: rest) =
      build (g.append [.group (done ++ alternatives)]) outer rest := by
  induction h generalizing done with
  | nil => exact absurd rfl hne
  | @cons ts items tss alternatives hts htss ih =>
    rcases htss with - | ⟨hus, huss⟩
    · rw [List.intercalate_singleton, hts]
      rfl
    · rw [List.intercalate_cons_cons, List.append_assoc, List.append_assoc, hts]
      refine (ih (List.cons_ne_nil _ _) (done ++ [items])).trans ?_
      rw [List.append_assoc, List.singleton_append]

/-- A group is read as the alternatives in it. -/
theorem group {tss : List (List Token)} {alternatives : List (List Item)}
    (h : List.Forall₂ Builds tss alternatives) (hne : tss ≠ []) :
    Builds (.opening :: ([.bar].intercalate tss ++ [.closing])) [.group alternatives] := by
  intro f outer rest
  have hclosing := build_closing h hne [] f outer rest
  rw [List.cons_append, List.append_assoc]
  exact hclosing

end Builds

/-! ### Reading from parts -/

/-- The text is read as these items, wherever it stands. -/
def Reads (s : String) (items : List Item) : Prop := ∃ ts, tokens s = some ts ∧ Builds ts items

namespace Reads

variable {s p q : String} {items more : List Item} {item : Item}

theorem parse_eq (h : Reads s items) : parse s = some [items] := by
  obtain ⟨ts, hts, hbuilds⟩ := h
  have hbuild := hbuilds {} [] []
  rw [List.append_nil] at hbuild
  rw [parse, hts]
  exact hbuild

theorem unique (h : Reads s items) (h' : Reads s more) : items = more := by
  have heq := h.parse_eq.symm.trans h'.parse_eq
  simpa using heq

theorem empty : Reads "" [] := ⟨[], rfl, .nil⟩

/-- Two texts with a space between them. -/
theorem spaced (hp : Reads p items) (hq : Reads q more) :
    Reads (Text.spaced p q) (items ++ more) := by
  unfold Text.spaced
  split
  · rename_i hempty
    rw [hempty] at hp
    rwa [hp.unique empty]
  · split
    · rename_i hempty
      rw [hempty] at hq
      rwa [hq.unique empty, List.append_nil]
    · obtain ⟨ts, hts, hbuilds⟩ := hp
      obtain ⟨us, hus, hbuilds'⟩ := hq
      refine ⟨ts ++ us, ?_, hbuilds.append hbuilds'⟩
      have hlist : (p ++ " " ++ q).toList = p.toList ++ ' ' :: q.toList := by simp
      rw [tokens, hlist, scan_append_cons hts rfl hus, List.append_nil]

theorem mark (h : Reads s [item]) (hitem : item.isMarked = false) :
    Reads (s ++ "?") [.marked item .optional] := by
  obtain ⟨ts, hts, hbuilds⟩ := h
  refine ⟨ts ++ [.mark .optional], ?_, hbuilds.mark hitem _⟩
  have hlist : (s ++ "?").toList = s.toList ++ '?' :: [] := by simp
  rw [tokens, hlist, scan_append_cons hts rfl rfl, List.append_nil]

theorem name {n : String} (h : Name.IsIdentifier n) : Reads n [.name n] := by
  refine ⟨[.name n], ?_, .name n⟩
  rcases hlist : n.toList with - | ⟨c, rest⟩
  · exact absurd (String.toList_inj.mp hlist) h.1
  · obtain ⟨hc, hrest⟩ := List.forall_mem_cons.mp (hlist ▸ h.2)
    have hscan := scan_name [c] hrest
    rw [List.singleton_append, ← hlist, String.ofList_toList] at hscan
    simp only [tokens, hlist, scan, Mode.step, Mode.enter_of_isSlugChar hc, hscan]
    rfl

/-- The tokens of texts with bars between them. -/
theorem tokens_intercalate {ps : List String} {tss : List (List Token)}
    (h : List.Forall₂ (fun p ts => tokens p = some ts) ps tss) (hne : ps ≠ []) :
    tokens (String.intercalate " | " ps) = some ([.bar].intercalate tss) := by
  induction h with
  | nil => exact absurd rfl hne
  | @cons p ts ps tss hts htss ih =>
    rcases htss with - | ⟨hus, huss⟩
    · rwa [String.intercalate_singleton, List.intercalate_singleton]
    · have hrest := ih (List.cons_ne_nil _ _)
      rw [String.intercalate_cons_cons, List.intercalate_cons_cons]
      generalize String.intercalate " | " _ = rest at hrest ⊢
      generalize [Token.bar].intercalate _ = us at hrest ⊢
      have hbar : scan .between ('|' :: ' ' :: rest.toList) = some (.bar :: us) := by
        rw [scan_cons (c := '|') rfl, scan_cons (c := ' ') rfl, show scan .between _ = _ from hrest]
        rfl
      have hlist : (p ++ " | " ++ rest).toList = p.toList ++ ' ' :: '|' :: ' ' :: rest.toList := by
        simp
      rw [tokens, hlist, scan_append_cons hts rfl hbar, List.append_nil, List.append_assoc]
      rfl

/-- Texts in parentheses, with bars between them. -/
theorem group {ps : List String} {alternatives : List (List Item)}
    (h : List.Forall₂ Reads ps alternatives) (hne : ps ≠ []) :
    Reads ("(" ++ String.intercalate " | " ps ++ ")") [.group alternatives] := by
  obtain ⟨tss, htokens, hbuilds⟩ : ∃ tss,
      List.Forall₂ (fun p ts => tokens p = some ts) ps tss ∧
        List.Forall₂ Builds tss alternatives := by
    clear hne
    induction h with
    | nil => exact ⟨[], .nil, .nil⟩
    | cons hreads _ ih =>
      obtain ⟨ts, hts, hbuilds⟩ := hreads
      obtain ⟨tss, htss, hbuilds'⟩ := ih
      exact ⟨ts :: tss, .cons hts htss, .cons hbuilds hbuilds'⟩
  have htss : tss ≠ [] := by
    rintro rfl
    cases htokens
    exact hne rfl
  refine ⟨_, ?_, Builds.group hbuilds htss⟩
  have hjoined := tokens_intercalate htokens hne
  generalize String.intercalate " | " ps = joined at hjoined ⊢
  have hlist : ("(" ++ joined ++ ")").toList = '(' :: (joined.toList ++ ')' :: []) := by simp
  rw [tokens, hlist, scan_cons (c := '(') rfl, scan_append_cons hjoined rfl rfl, List.append_nil]
  rfl

end Reads

/-! ### Literals and sets of characters -/

theorem unescapeChars_cons {c : Char} (hc : c ≠ '\\') (cs : List Char) :
    Literal.unescapeChars (c :: cs) = c :: Literal.unescapeChars cs := by
  rcases cs with - | ⟨d, rest⟩
  · rfl
  · rw [Literal.unescapeChars, if_neg hc]

/-- Unescaping undoes escaping. -/
theorem unescapeChars_escapeChars (cs : List Char) :
    Literal.unescapeChars (Literal.escapeChars cs) = cs := by
  induction cs with
  | nil => rfl
  | cons c cs ih =>
    rw [Literal.escapeChars, List.flatMap_cons, ← Literal.escapeChars]
    rcases hletter : Literal.escapeLetter? c with - | l
    · have hc : c ≠ '\\' := by
        rintro rfl
        cases hletter
      rw [Literal.escapeChar, hletter]
      show Literal.unescapeChars (c :: Literal.escapeChars cs) = c :: cs
      rw [unescapeChars_cons hc, ih]
    · have hback : Literal.unescapeLetter? l = some c := by
        unfold Literal.escapeLetter? at hletter
        split at hletter
        all_goals cases hletter
        all_goals rfl
      rw [Literal.escapeChar, hletter]
      simp [Literal.unescapeChars, hback, ih]

theorem enclosable_escapeChars (cs : List Char) : Enclosable '"' (Literal.escapeChars cs) := by
  induction cs with
  | nil => exact .nil
  | cons c cs ih =>
    rw [Literal.escapeChars, List.flatMap_cons, ← Literal.escapeChars, Literal.escapeChar]
    rcases hletter : Literal.escapeLetter? c with - | l
    · refine .plain ?_ ?_ ih
      · rintro rfl
        cases hletter
      · rintro rfl
        cases hletter
    · exact .escaped ih

namespace Reads

/-- A quoted text is read as the text. -/
theorem quote (s : String) : Reads (Literal.quote s) [.literal s] := by
  refine ⟨[.literal s], ?_, .literal s⟩
  have hunescape : Literal.unescape (String.ofList (Literal.escapeChars s.toList)) = s := by
    rw [Literal.unescape, String.toList_ofList, unescapeChars_escapeChars, String.ofList_toList]
  rw [tokens_enclosed rfl (by decide) (enclosable_escapeChars s.toList) (Literal.toList_quote s),
    enclosed, if_pos rfl, hunescape]

theorem set {s : String} {cs : List Char} (hcs : Enclosable ']' cs)
    (hs : s.toList = '[' :: (cs ++ [']'])) : Reads s [.set (String.ofList cs)] :=
  ⟨_, tokens_enclosed rfl (by decide) hcs hs, .set _⟩

end Reads

/-- An atom on one line is read as one item. -/
theorem exists_reads_of_isAtom {s : String} (h : Pattern.isAtom s.toList)
    (hline : '\n' ∉ s.toList) : ∃ item, item.isMarked = false ∧ Reads s [item] := by
  obtain ⟨a, ha, rfl | rfl⟩ := Pattern.isAtom_iff_bare.mp h
  · obtain ⟨hdelimits, hcs⟩ := ha
    have henclosable := Enclosable.of_contents hcs
    cases hdelimits with
    | quotes =>
      exact ⟨_, rfl, _, tokens_enclosed rfl (by decide) henclosable String.toList_ofList, .literal _⟩
    | brackets => exact ⟨_, rfl, .set henclosable String.toList_ofList⟩
  · exact absurd (by simp) hline

/-! ### Lines -/

/-- A line is read as a rule: a name, the sign and alternatives. -/
def readLine (l : List Char) : Option (String × List (List Item)) :=
  match l.takeWhile Text.isSlugChar, l.dropWhile Text.isSlugChar with
  | c :: cs, ' ' :: ':' :: ':' :: '=' :: ' ' :: rest =>
    (parse (String.ofList rest)).map fun alternatives => (String.ofList (c :: cs), alternatives)
  | _, _ => none

/-- A text is read line by line.  The empty text is one line, and not that of a
rule. -/
def readGrammar (text : String) : Option (List (String × List (List Item))) :=
  (text.toList.splitOn '\n').mapM readLine

theorem readLine_line {n b : String} {items : List Item} (hn : Name.IsIdentifier n)
    (h : Reads b items) :
    readLine (n.toList ++ ' ' :: ':' :: ':' :: '=' :: ' ' :: b.toList) = some (n, [items]) := by
  have htake : (n.toList ++ ' ' :: ':' :: ':' :: '=' :: ' ' :: b.toList).takeWhile
      Text.isSlugChar = n.toList := by
    rw [List.takeWhile_append_of_pos hn.2]
    simp [show Text.isSlugChar ' ' = false by decide]
  have hdrop : (n.toList ++ ' ' :: ':' :: ':' :: '=' :: ' ' :: b.toList).dropWhile
      Text.isSlugChar = ' ' :: ':' :: ':' :: '=' :: ' ' :: b.toList := by
    rw [List.dropWhile_append_of_pos hn.2]
    simp [show Text.isSlugChar ' ' = false by decide]
  rcases hlist : n.toList with - | ⟨c, cs⟩
  · exact absurd (String.toList_inj.mp hlist) hn.1
  · rw [← hlist, readLine, htake, hdrop, hlist]
    simp only [String.ofList_toList, h.parse_eq]
    rw [← hlist, String.ofList_toList]
    rfl

end GrammarDiagram.Gbnf
