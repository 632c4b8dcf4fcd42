/-
GrammarDiagram/Proofs/Mention.lean

Rules with one mention.

The counts of a rule set are the numbers of occurrences over all successor
lists (`get?_referenceCounts`), and nothing is counted twice
(`sum_referenceCounts`).  So a count of one together with the first mentioner
leaves no room for another mention: a candidate is mentioned by its mentioner,
once, and by no other name, and every rule of which this is true is a candidate
(`mem_candidates_iff`).  None of this asks for a rule set that makes sense: names
without a rule may have successors, and a rule may be its own successor.
-/
import GrammarDiagram.RuleSet.Reduction
import Mathlib.Algebra.GroupWithZero.Nat
import Mathlib.Data.List.Basic

namespace GrammarDiagram

/-! ### Entries of a table -/

namespace Table

variable {α : Type*}

theorem findEntry_eq_some_iff {k : String} {v : α} {es : List (String × α)}
    (hd : (es.map Prod.fst).Nodup) : findEntry k es = some v ↔ (k, v) ∈ es := by
  induction es with
  | nil => simp [findEntry]
  | cons e rest ih =>
    rw [List.map_cons, List.nodup_cons] at hd
    obtain ⟨hnot, hrest⟩ := hd
    by_cases hk : e.1 = k
    · -- the key stands in front, so it stands nowhere else
      have hout : (k, v) ∉ rest := by
        intro hmem
        apply hnot
        rw [hk]
        exact List.mem_map_of_mem hmem
      simp only [findEntry, hk, if_true, Option.some.injEq, List.mem_cons, hout, or_false]
      constructor
      · rintro rfl
        rw [← hk]
      · intro h
        rw [← h]
    · have hne : (k, v) ≠ e := by
        rintro rfl
        exact hk rfl
      simp only [findEntry, hk, if_false, List.mem_cons, hne, false_or]
      exact ih hrest

/-- The entries of a table are its keys with their values. -/
theorem mem_entries_iff {t : Table α} {k : String} {v : α} :
    (k, v) ∈ t.entries ↔ t.get? k = some v :=
  (findEntry_eq_some_iff t.distinct).symm

/-- Putting a number in the place of another changes the sum by the two. -/
theorem sum_putEntry (key : String) (value : Nat) (es : List (String × Nat)) :
    ((putEntry key value es).map Prod.snd).sum + (findEntry key es).getD 0 =
      (es.map Prod.snd).sum + value := by
  induction es with
  | nil => simp [putEntry, findEntry]
  | cons e rest ih =>
    by_cases hk : e.1 = key
    · simp only [putEntry, findEntry, hk, if_true, List.map_cons, List.sum_cons, Option.getD_some]
      omega
    · simp only [putEntry, findEntry, hk, if_false, List.map_cons, List.sum_cons]
      omega

end Table

namespace RuleSet

variable {rs : RuleSet}

theorem successors_of_mem_entries {e : String × List String} (h : e ∈ rs.adjacency.entries) :
    rs.successors e.1 = e.2 := by
  rw [successors, Table.mem_entries_iff.mp h]
  rfl

/-- A successor list with a member stands in the table. -/
theorem mem_entries_of_mem_successors {n t : String} (h : t ∈ rs.successors n) :
    (n, rs.successors n) ∈ rs.adjacency.entries := by
  rw [Table.mem_entries_iff]
  unfold successors at h ⊢
  rcases hn : rs.adjacency.get? n with - | targets
  · rw [hn] at h
    exact absurd h List.not_mem_nil
  · rfl

/-! ### Counting -/

theorem get?_foldl_countMention (counts : Table Nat) (names : List String) (n : String) :
    (names.foldl countMention counts).get? n =
      if n ∈ names then some ((counts.get? n).getD 0 + names.count n) else counts.get? n := by
  induction names generalizing counts with
  | nil => simp
  | cons a rest ih =>
    have hput : (countMention counts a).get? n =
        if n = a then some ((counts.get? a).getD 0 + 1) else counts.get? n :=
      Table.get?_put _ _ _ _
    rw [List.foldl_cons, ih, hput]
    by_cases ha : n = a
    · -- counted here, on top of what was counted before and what is still to come
      subst ha
      by_cases hr : n ∈ rest
      · simp [hr]
        omega
      · simp [hr, List.count_eq_zero_of_not_mem hr]
    · have ha' : ¬ a = n := fun h => ha h.symm
      by_cases hr : n ∈ rest <;> simp [hr, ha, ha']

/-- The successors of all names, one list behind the other. -/
def mentions (rs : RuleSet) : List String := rs.adjacency.entries.flatMap Prod.snd

theorem mem_mentions_iff {t : String} : t ∈ rs.mentions ↔ ∃ n, t ∈ rs.successors n := by
  constructor
  · intro h
    obtain ⟨e, he, ht⟩ := List.mem_flatMap.mp h
    refine ⟨e.1, ?_⟩
    rwa [successors_of_mem_entries he]
  · rintro ⟨n, ht⟩
    exact List.mem_flatMap.mpr ⟨_, mem_entries_of_mem_successors ht, ht⟩

/-- A name with successors, or that is a successor, is counted by its mentions. -/
theorem get?_referenceCounts (rs : RuleSet) (n : String) :
    rs.referenceCounts.get? n =
      if n ∈ rs.mentions ∨ rs.adjacency.contains n then some (rs.mentions.count n) else none := by
  have hzero : (rs.adjacency.mapValues fun _ => 0).get? n =
      if rs.adjacency.contains n then some 0 else none := by
    rw [Table.get?_mapValues, Table.contains]
    rcases rs.adjacency.get? n with - | targets <;> rfl
  rw [referenceCounts, get?_foldl_countMention, hzero]
  change (if n ∈ rs.mentions then _ else _) = _
  by_cases hm : n ∈ rs.mentions
  · have hor : n ∈ rs.mentions ∨ rs.adjacency.contains n = true := .inl hm
    rw [if_pos hm, if_pos hor]
    split <;> simp [mentions]
  · rw [if_neg hm]
    have hcount : rs.mentions.count n = 0 := List.count_eq_zero_of_not_mem hm
    simp [hm, hcount]

/-- The occurrences of a name, list by list. -/
theorem count_mentions (n : String) :
    rs.mentions.count n = (rs.adjacency.entries.map fun e => e.2.count n).sum :=
  List.count_flatMap

theorem get?_referenceCounts_eq_some_iff {n : String} {k : Nat} :
    rs.referenceCounts.get? n = some k ↔
      (n ∈ rs.adjacency.keys ∨ ∃ e ∈ rs.adjacency.entries, n ∈ e.2) ∧
        k = (rs.adjacency.entries.map fun e => e.2.count n).sum := by
  have hcounted : (n ∈ rs.mentions ∨ rs.adjacency.contains n) ↔
      (n ∈ rs.adjacency.keys ∨ ∃ e ∈ rs.adjacency.entries, n ∈ e.2) := by
    rw [Table.contains_iff_mem_keys, mentions, List.mem_flatMap, or_comm]
  rw [get?_referenceCounts, ← count_mentions, ← hcounted]
  split
  · rename_i hin
    rw [Option.some.injEq, eq_comm, and_iff_right hin]
  · rename_i hout
    exact iff_of_false nofun fun h => hout h.1

/-- One more mention is one more in the sum. -/
theorem sum_countMention (counts : Table Nat) (name : String) :
    ((countMention counts name).entries.map Prod.snd).sum =
      (counts.entries.map Prod.snd).sum + 1 := by
  have hput := Table.sum_putEntry name ((counts.get? name).getD 0 + 1) counts.entries
  change ((Table.putEntry name _ counts.entries).map Prod.snd).sum = _
  unfold Table.get? at hput ⊢
  omega

theorem sum_foldl_countMention (counts : Table Nat) (names : List String) :
    ((names.foldl countMention counts).entries.map Prod.snd).sum =
      (counts.entries.map Prod.snd).sum + names.length := by
  induction names generalizing counts with
  | nil => rfl
  | cons a rest ih =>
    rw [List.foldl_cons, ih, sum_countMention, List.length_cons]
    omega

/-- The counts start from zero, so their sum is the number of all mentions. -/
theorem sum_referenceCounts (rs : RuleSet) :
    (rs.referenceCounts.entries.map Prod.snd).sum =
      (rs.adjacency.entries.map fun e => e.2.length).sum := by
  have hzero : ((rs.adjacency.mapValues fun _ => 0).entries.map Prod.snd).sum = 0 := by
    simp [Table.mapValues, Function.comp_def]
  rw [referenceCounts, sum_foldl_countMention, hzero, Nat.zero_add, List.length_flatMap]

/-! ### Candidates -/

/-- `rs.SoleMention name mentioner`: the two are different rules, the first is
not the root, and it occurs once among the successors of the second and among
no others. -/
structure SoleMention (rs : RuleSet) (name mentioner : String) : Prop where
  hasRule : rs.hasRule name
  hasRule_mentioner : rs.hasRule mentioner
  ne_root : name ≠ Name.root
  ne_mentioner : name ≠ mentioner
  once : (rs.successors mentioner).count name = 1
  only : ∀ n, name ∈ rs.successors n → n = mentioner

theorem SoleMention.mem {name mentioner : String} (h : rs.SoleMention name mentioner) :
    name ∈ rs.successors mentioner := by
  apply List.one_le_count_iff.mp
  exact Nat.le_of_eq h.once.symm

/-- With one mention in all, the first mentioner is the only one. -/
theorem only_mentioner {name mentioner : String} (hcount : rs.mentions.count name = 1)
    (hm : rs.mentioner? name = some mentioner) :
    (rs.successors mentioner).count name = 1 ∧
      ∀ n, name ∈ rs.successors n → n = mentioner := by
  obtain ⟨e, he, rfl⟩ := Option.map_eq_some_iff.mp hm
  obtain ⟨hmem, front, back, hsplit, hfront⟩ := List.find?_eq_some_iff_append.mp he
  have hmem' : name ∈ e.2 := by simpa using hmem
  have hsucc : rs.successors e.1 = e.2 :=
    successors_of_mem_entries (List.mem_of_find?_eq_some he)
  -- the one occurrence is in `e`, so none is left for the entries behind it
  have hsum : (front.flatMap Prod.snd).count name + (e.2.count name +
      (back.flatMap Prod.snd).count name) = 1 := by
    rw [← hcount, mentions, hsplit]
    simp [List.flatMap_append, List.flatMap_cons, List.count_append]
  have hpos : 1 ≤ e.2.count name := List.one_le_count_iff.mpr hmem'
  have hback : (back.flatMap Prod.snd).count name = 0 := by omega
  refine ⟨by rw [hsucc]; omega, ?_⟩
  intro n hn
  have hentry := mem_entries_of_mem_successors hn
  rw [hsplit, List.mem_append, List.mem_cons] at hentry
  rcases hentry with h | h | h
  · have hno := hfront _ h
    simp [hn] at hno
  · rw [← h]
  · rw [List.count_eq_zero] at hback
    exact absurd (List.mem_flatMap.mpr ⟨_, h, hn⟩) hback

/-- A candidate is mentioned by its mentioner alone. -/
theorem soleMention_of_mem_candidates {c : String × String} (h : c ∈ rs.candidates) :
    rs.SoleMention c.1 c.2 := by
  obtain ⟨⟨name, count⟩, he, hc⟩ := List.mem_filterMap.mp h
  rw [Table.mem_entries_iff, get?_referenceCounts] at he
  simp only [candidate?] at hc
  split at hc
  · cases hc
  · rename_i hcond
    rcases hm : rs.mentioner? name with - | mentioner
    · rw [hm] at hc
      cases hc
    · simp only [hm] at hc
      split at hc
      · cases hc
      · rename_i hcond'
        cases hc
        -- neither of the two tests turned the candidate down
        simp only [Bool.or_eq_true, decide_eq_true_eq, Bool.not_eq_true', not_or] at hcond hcond'
        obtain ⟨⟨hroot, hone⟩, hrule⟩ := hcond
        obtain ⟨hself, hrule'⟩ := hcond'
        have hcount : rs.mentions.count name = 1 := by
          split at he
          · rw [Option.some.inj he]
            exact not_not.mp hone
          · cases he
        obtain ⟨honce, honly⟩ := only_mentioner hcount hm
        exact ⟨by simpa using hrule, by simpa using hrule', hroot, fun h => hself h.symm,
          honce, honly⟩

section SoleMention

variable {name mentioner : String} (h : rs.SoleMention name mentioner)
include h

/-- The entry of the mentioner, between entries without the name. -/
theorem SoleMention.exists_split :
    ∃ front back, rs.adjacency.entries =
        front ++ (mentioner, rs.successors mentioner) :: back ∧
      (∀ e ∈ front, name ∉ e.2) ∧ ∀ e ∈ back, name ∉ e.2 := by
  obtain ⟨front, back, hsplit⟩ := List.append_of_mem (mem_entries_of_mem_successors h.mem)
  have hdistinct := rs.adjacency.distinct
  rw [hsplit, List.map_append, List.map_cons] at hdistinct
  obtain ⟨-, hback, hcross⟩ := List.nodup_append.mp hdistinct
  -- an entry with the name would be another one of the mentioner
  have hkey : ∀ e ∈ rs.adjacency.entries, name ∈ e.2 → e.1 = mentioner := by
    intro e he hname
    refine h.only e.1 ?_
    rwa [successors_of_mem_entries he]
  refine ⟨front, back, hsplit, fun e he hname => ?_, fun e he hname => ?_⟩
  · have hmem : e ∈ rs.adjacency.entries := by
      rw [hsplit]
      exact List.mem_append_left _ he
    exact hcross _ (List.mem_map_of_mem he) mentioner List.mem_cons_self (hkey e hmem hname)
  · have hmem : e ∈ rs.adjacency.entries := by
      rw [hsplit]
      exact List.mem_append_right _ (List.mem_cons_of_mem _ he)
    have hin : e.1 ∈ back.map Prod.fst := List.mem_map_of_mem he
    rw [hkey e hmem hname] at hin
    exact (List.nodup_cons.mp hback).1 hin

theorem SoleMention.count_mentions : rs.mentions.count name = 1 := by
  obtain ⟨front, back, hsplit, hfront, hback⟩ := h.exists_split
  have hnone : ∀ es : List (String × List String), (∀ e ∈ es, name ∉ e.2) →
      (es.flatMap Prod.snd).count name = 0 := by
    intro es hes
    rw [List.count_eq_zero, List.mem_flatMap]
    rintro ⟨e, he, hname⟩
    exact hes e he hname
  rw [mentions, hsplit, List.flatMap_append, List.flatMap_cons, List.count_append,
    List.count_append, hnone front hfront, hnone back hback, h.once]

theorem SoleMention.mentioner?_eq : rs.mentioner? name = some mentioner := by
  obtain ⟨front, back, hsplit, hfront, -⟩ := h.exists_split
  have hfind : (rs.adjacency.entries.find? fun e => e.2.contains name) =
      some (mentioner, rs.successors mentioner) := by
    rw [List.find?_eq_some_iff_append]
    refine ⟨by simpa using h.mem, front, back, hsplit, fun e he => ?_⟩
    simpa using hfront e he
  rw [mentioner?, hfind]
  rfl

end SoleMention

/-- The candidates are the rules with one mention, each with its mentioner. -/
theorem mem_candidates_iff {c : String × String} :
    c ∈ rs.candidates ↔ rs.SoleMention c.1 c.2 := by
  refine ⟨soleMention_of_mem_candidates, fun h => ?_⟩
  have hentry : (c.1, 1) ∈ rs.referenceCounts.entries := by
    have hmem : c.1 ∈ rs.mentions := mem_mentions_iff.mpr ⟨c.2, h.mem⟩
    rw [Table.mem_entries_iff, get?_referenceCounts, if_pos (.inl hmem), h.count_mentions]
  refine List.mem_filterMap.mpr ⟨_, hentry, ?_⟩
  simp [candidate?, h.mentioner?_eq, h.ne_root, h.hasRule, h.hasRule_mentioner,
    h.ne_mentioner.symm]

/-- The other names, taken entry by entry. -/
theorem soleMention_iff {n m : String} :
    rs.SoleMention n m ↔
      n ≠ Name.root ∧ rs.hasRule n ∧ rs.hasRule m ∧ n ≠ m ∧ (rs.successors m).count n = 1 ∧
        ∀ e ∈ rs.adjacency.entries, e.1 ≠ m → n ∉ e.2 := by
  constructor
  · intro h
    refine ⟨h.ne_root, h.hasRule, h.hasRule_mentioner, h.ne_mentioner, h.once, ?_⟩
    intro e he hother hmem
    rw [← successors_of_mem_entries he] at hmem
    exact hother (h.only e.1 hmem)
  · rintro ⟨hroot, hn, hm, hne, honce, hothers⟩
    refine ⟨hn, hm, hroot, hne, honce, fun x hx => ?_⟩
    by_contra hother
    exact hothers _ (mem_entries_of_mem_successors hx) hother hx

theorem fst_of_candidate? {name : String} {count : Nat} {c : String × String}
    (h : rs.candidate? name count = some c) : c.1 = name := by
  unfold candidate? at h
  split at h
  · cases h
  · split at h
    · split at h
      · cases h
      · cases h
        rfl
    · cases h

/-- No rule is a candidate twice, since no name is counted twice. -/
theorem nodup_candidates (rs : RuleSet) : (rs.candidates.map Prod.fst).Nodup := by
  have hkeys : rs.referenceCounts.entries.Pairwise fun e f => e.1 ≠ f.1 :=
    List.pairwise_map.mp rs.referenceCounts.distinct
  refine List.pairwise_map.mpr (hkeys.filterMap _ ?_)
  intro e f hne c hc d hd
  rw [fst_of_candidate? hc, fst_of_candidate? hd]
  exact hne

/-- Names with successors and names among them are counted, each by its occurrences
in all lists, and the counts add up to the length of the lists.  The candidates are
the rules other than the root that occur once in the list of another rule, which is
their mentioner, and in no other list; and no rule is a candidate twice. -/
theorem candidates_uniquely_mentioned (rs : RuleSet) :
    (∀ n k, rs.referenceCounts.get? n = some k ↔
      (n ∈ rs.adjacency.keys ∨ ∃ e ∈ rs.adjacency.entries, n ∈ e.2) ∧
        k = (rs.adjacency.entries.map fun e => e.2.count n).sum) ∧
    (rs.referenceCounts.entries.map Prod.snd).sum =
      (rs.adjacency.entries.map fun e => e.2.length).sum ∧
    (∀ n m, (n, m) ∈ rs.candidates ↔
      n ≠ Name.root ∧ rs.hasRule n ∧ rs.hasRule m ∧ n ≠ m ∧ (rs.successors m).count n = 1 ∧
        ∀ e ∈ rs.adjacency.entries, e.1 ≠ m → n ∉ e.2) ∧
    (rs.candidates.map Prod.fst).Nodup :=
  ⟨fun _ _ => get?_referenceCounts_eq_some_iff, rs.sum_referenceCounts,
    fun _ _ => mem_candidates_iff.trans soleMention_iff, rs.nodup_candidates⟩

end RuleSet

end GrammarDiagram
