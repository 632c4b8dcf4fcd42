/-
GrammarDiagram/Table.lean

Tables: finite maps from texts that remember the order of insertion.

A table is a list of entries with pairwise different keys, and the type says
so.  A new key goes to the end; a key that is put again keeps its place and
changes its value.  `get?` is the view of a table as a map, `keys` the view of
its order, and the lemmas below say what each operation does to the two.
-/

namespace GrammarDiagram

universe u v

/-- A finite map from texts in order of insertion. -/
structure Table (α : Type u) where
  entries : List (String × α)
  distinct : (entries.map Prod.fst).Nodup

namespace Table

variable {α : Type u} {β : Type v}

/-! ### Entry lists -/

/-- The value of the first entry with this key. -/
def findEntry (key : String) : List (String × α) → Option α
  | [] => none
  | e :: rest => if e.1 = key then some e.2 else findEntry key rest

/-- Put an entry into a list: in the place of the entry with this key, or at
the end. -/
def putEntry (key : String) (value : α) : List (String × α) → List (String × α)
  | [] => [(key, value)]
  | e :: rest => if e.1 = key then (key, value) :: rest else e :: putEntry key value rest

theorem keys_putEntry (key : String) (value : α) (es : List (String × α)) :
    (putEntry key value es).map Prod.fst =
      if key ∈ es.map Prod.fst then es.map Prod.fst else es.map Prod.fst ++ [key] := by
  induction es with
  | nil => simp [putEntry]
  | cons e rest ih =>
    by_cases h : e.1 = key
    · simp [putEntry, h]
    · have h' : ¬ key = e.1 := fun e' => h e'.symm
      simp only [putEntry, h, if_false, List.map_cons, ih, List.mem_cons, h', false_or]
      split <;> simp

theorem findEntry_putEntry (key k : String) (value : α) (es : List (String × α)) :
    findEntry k (putEntry key value es) = if k = key then some value else findEntry k es := by
  induction es with
  | nil => simp only [putEntry, findEntry, eq_comm (a := key)]
  | cons e rest ih =>
    by_cases h : e.1 = key
    · by_cases hk : k = key
      · simp [putEntry, findEntry, h, hk]
      · have hk' : ¬ key = k := fun e' => hk e'.symm
        simp [putEntry, findEntry, h, hk, hk']
    · by_cases hk : e.1 = k
      · have hk' : ¬ k = key := hk ▸ h
        simp [putEntry, findEntry, hk, hk']
      · simp [putEntry, findEntry, h, hk, ih]

theorem findEntry_isSome_iff (k : String) (es : List (String × α)) :
    (findEntry k es).isSome ↔ k ∈ es.map Prod.fst := by
  induction es with
  | nil => simp [findEntry]
  | cons e rest ih =>
    by_cases h : e.1 = k
    · simp [findEntry, h]
    · have h' : ¬ k = e.1 := fun e' => h e'.symm
      simp only [findEntry, h, if_false, List.map_cons, List.mem_cons, h', false_or, ih]

theorem findEntry_filter_ne (key k : String) (es : List (String × α)) :
    findEntry k (es.filter fun e => e.1 != key) = if k = key then none else findEntry k es := by
  induction es with
  | nil => simp [findEntry]
  | cons e rest ih =>
    by_cases h : e.1 = key
    · subst h
      rw [List.filter_cons_of_neg (by simp), ih]
      by_cases hk : k = e.1
      · simp [hk]
      · simp [findEntry, hk, eq_comm]
    · rw [List.filter_cons_of_pos (by simpa using h)]
      by_cases hk : e.1 = k
      · have hk' : ¬ k = key := hk ▸ h
        simp [findEntry, hk, hk']
      · simp [findEntry, hk, ih]

theorem findEntry_map_snd (f : α → β) (k : String) (es : List (String × α)) :
    findEntry k (es.map fun e => (e.1, f e.2)) = (findEntry k es).map f := by
  induction es with
  | nil => rfl
  | cons e rest ih =>
    by_cases h : e.1 = k <;> simp [findEntry, h, ih]

/-! ### Views -/

/-- The keys in order of insertion. -/
def keys (t : Table α) : List String := t.entries.map Prod.fst

/-- The value under a key. -/
def get? (t : Table α) (key : String) : Option α := findEntry key t.entries

/-- Whether a key has a value. -/
def contains (t : Table α) (key : String) : Bool := (t.get? key).isSome

/-- The number of entries. -/
def size (t : Table α) : Nat := t.entries.length

theorem nodup_keys (t : Table α) : t.keys.Nodup := t.distinct

@[simp] theorem length_keys (t : Table α) : t.keys.length = t.size := by
  simp [keys, size]

/-! ### Operations -/

/-- The table without entries. -/
def empty : Table α := ⟨[], by simp⟩

instance : EmptyCollection (Table α) := ⟨empty⟩

instance : Inhabited (Table α) := ⟨empty⟩

/-- Put a value under a key; a key that is there keeps its place. -/
def put (t : Table α) (key : String) (value : α) : Table α where
  entries := putEntry key value t.entries
  distinct := by
    rw [keys_putEntry]
    split
    · exact t.distinct
    · rename_i h
      rw [List.nodup_append]
      refine ⟨t.distinct, by simp, ?_⟩
      intro a ha b hb
      simp only [List.mem_singleton] at hb
      subst hb
      exact fun e => h (e ▸ ha)

/-- Take out a key. -/
def erase (t : Table α) (key : String) : Table α where
  entries := t.entries.filter fun e => e.1 != key
  distinct := by
    have h : (t.entries.filter fun e => e.1 != key).map Prod.fst =
        (t.entries.map Prod.fst).filter fun k => k != key := by
      rw [List.filter_map]
      rfl
    rw [h]
    exact t.distinct.sublist List.filter_sublist

/-- Change every value. -/
def mapValues (f : α → β) (t : Table α) : Table β where
  entries := t.entries.map fun e => (e.1, f e.2)
  distinct := by
    have h : (t.entries.map fun e => (e.1, f e.2)).map Prod.fst = t.entries.map Prod.fst := by
      simp [List.map_map, Function.comp_def]
    rw [h]
    exact t.distinct

/-- The table of a list of entries: of entries with one key the last gives the
value and the first the place. -/
def ofList (es : List (String × α)) : Table α :=
  es.foldl (fun t e => t.put e.1 e.2) ∅

/-- Two tables are equal as maps: the order of the entries is ignored. -/
def sameMap [BEq α] (s t : Table α) : Bool :=
  s.size == t.size && s.entries.all fun e => t.get? e.1 == some e.2

/-! ### What the operations do to the views -/

@[simp] theorem get?_empty (k : String) : (∅ : Table α).get? k = none := rfl

@[simp] theorem keys_empty : (∅ : Table α).keys = [] := rfl

theorem get?_put (t : Table α) (key k : String) (value : α) :
    (t.put key value).get? k = if k = key then some value else t.get? k :=
  findEntry_putEntry key k value t.entries

theorem keys_put (t : Table α) (key : String) (value : α) :
    (t.put key value).keys = if key ∈ t.keys then t.keys else t.keys ++ [key] :=
  keys_putEntry key value t.entries

theorem get?_erase (t : Table α) (key k : String) :
    (t.erase key).get? k = if k = key then none else t.get? k :=
  findEntry_filter_ne key k t.entries

theorem keys_erase (t : Table α) (key : String) :
    (t.erase key).keys = t.keys.filter fun k => k != key := by
  simp only [keys, erase, List.filter_map]
  rfl

theorem get?_mapValues (f : α → β) (t : Table α) (k : String) :
    (t.mapValues f).get? k = (t.get? k).map f :=
  findEntry_map_snd f k t.entries

@[simp] theorem keys_mapValues (f : α → β) (t : Table α) : (t.mapValues f).keys = t.keys := by
  simp [keys, mapValues, List.map_map, Function.comp_def]

theorem contains_iff_mem_keys (t : Table α) (k : String) : t.contains k ↔ k ∈ t.keys :=
  findEntry_isSome_iff k t.entries

/-- Putting a value under a key that is there leaves the size. -/
theorem size_put_of_contains {t : Table α} {key : String} (value : α) (h : t.contains key) :
    (t.put key value).size = t.size := by
  rw [← length_keys, ← length_keys, keys_put, if_pos ((contains_iff_mem_keys t key).mp h)]

/-- Taking out a key that is there makes the table smaller. -/
theorem size_erase_lt {t : Table α} {key : String} (h : t.contains key) :
    (t.erase key).size < t.size := by
  rw [← length_keys, ← length_keys, keys_erase, List.length_filter_lt_length_iff_exists]
  exact ⟨key, (contains_iff_mem_keys t key).mp h, by simp⟩

end Table

end GrammarDiagram
