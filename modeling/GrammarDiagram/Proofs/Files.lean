/-
GrammarDiagram/Proofs/Files.lean

What is put into a file is what it holds.

Putting bytes replaces the item at the place of the path.  Folders stay folders, so
the path leads to the same place afterwards, and there the bytes are read back
(`bytesOf_put`); a device holds nothing and is left as it is.
-/
import GrammarDiagram.Command.Files

namespace GrammarDiagram.Command.Tree

variable {t t' : Tree} {place : List String} {path : String} {bytes : List UInt8}

/-- The tree with a file at a place, whatever stood there. -/
def stored (t : Tree) (place : List String) (bytes : List UInt8) : Tree :=
  { t with items := (t.items.filter fun i => i.1 != place) ++ [(place, .file bytes)] }

theorem find?_stored_self :
    (t.stored place bytes).items.find? (fun i => i.1 == place) = some (place, .file bytes) := by
  have hnone : (t.items.filter fun i => i.1 != place).find? (fun i => i.1 == place) = none := by
    refine List.find?_eq_none.mpr fun i hi => ?_
    simpa using (List.mem_filter.mp hi).2
  rw [stored, List.find?_append, hnone, Option.none_or]
  simp

theorem find?_stored_of_ne {other : List String} (h : other ≠ place) :
    (t.stored place bytes).items.find? (fun i => i.1 == other) =
      t.items.find? fun i => i.1 == other := by
  have hkept : (t.items.filter fun i => i.1 != place).find? (fun i => i.1 == other) =
      t.items.find? fun i => i.1 == other := by
    rw [List.find?_filter]
    congr 1
    funext i
    by_cases hi : i.1 = other
    · simp [hi, h]
    · simp [hi]
  have hplace : (place == other) = false := beq_false_of_ne fun heq => h heq.symm
  rw [stored, List.find?_append, hkept]
  simp [hplace]

theorem at?_stored_self : (t.stored place bytes).at? place = some (.file bytes) := by
  rw [at?, find?_stored_self]

/-- Whatever was above something still is. -/
theorem isAbove_stored {other : List String} (h : t.isAbove other) :
    (t.stored place bytes).isAbove other := by
  simp only [isAbove, Bool.or_eq_true] at h ⊢
  refine h.imp_right fun h => ?_
  obtain ⟨i, hi, habove⟩ := List.any_eq_true.mp h
  refine List.any_eq_true.mpr ?_
  by_cases hplace : i.1 = place
  · -- the item is replaced by one at the same place
    rw [hplace] at habove
    exact ⟨_, List.mem_append_right _ (List.mem_singleton_self _), habove⟩
  · exact ⟨i, List.mem_append_left _ (List.mem_filter.mpr ⟨hi, by simpa using hplace⟩), habove⟩

theorem at?_stored_of_folder {other : List String} (hother : t.at? other = some .folder)
    (hplace : t.at? place ≠ some .folder) :
    (t.stored place bytes).at? other = some .folder := by
  have hne : other ≠ place := fun h => hplace (h ▸ hother)
  rw [at?, find?_stored_of_ne hne]
  rw [at?] at hother
  split at hother
  · rename_i i hi
    simpa [hi] using hother
  · by_cases habove : t.isAbove other
    · simp [isAbove_stored habove]
    · simp [habove] at hother

/-- A path leads through folders, which stay. -/
theorem walk_stored (hplace : t.at? place ≠ some .folder) {start goal : List String}
    {parts : List String} (h : t.walk start parts = .ok goal) :
    (t.stored place bytes).walk start parts = .ok goal := by
  induction parts generalizing start with
  | nil => exact h
  | cons part rest ih =>
    rw [walk] at h ⊢
    split at h
    · cases h
    · rename_i hfolder
      simp only [at?_stored_of_folder hfolder hplace]
      split at h
      · rename_i hstay
        rw [if_pos hstay]
        exact ih h
      · rename_i hstay
        rw [if_neg hstay]
        split at h
        · rename_i hup
          rw [if_pos hup]
          exact ih h
        · rename_i hup
          rw [if_neg hup]
          split at h
          · cases h
          · rename_i hlong
            rw [if_neg hlong]
            exact ih h
    · cases h

theorem resolve_stored (hplace : t.at? place ≠ some .folder) {goal : List String}
    (h : t.resolve path = .ok goal) : (t.stored place bytes).resolve path = .ok goal := by
  unfold resolve at h ⊢
  split at h
  · cases h
  · split at h
    · cases h
    · split at h
      · cases h
      · simp_all only [if_false]
        exact walk_stored hplace h

theorem get_eq_ok {item : Item} (hplace : t.resolve path = .ok place)
    (hitem : t.at? place = some item) : t.get path = .ok item := by
  simp only [get, hplace, bind, Except.bind, hitem]
  rfl

/-- What putting does: nothing to a device, and else it replaces what is no folder. -/
theorem put_cases (h : t.put path bytes = .ok t') :
    ∃ place, t.resolve path = .ok place ∧
      ((∃ hasRoom, t.at? place = some (.device hasRoom)) ∧ t' = t ∨
        t.at? place ≠ some .folder ∧ t' = t.stored place bytes) := by
  unfold put at h
  rcases hplace : t.resolve path with f | place
  · rw [hplace] at h
    cases h
  · rw [hplace] at h
    refine ⟨place, rfl, ?_⟩
    simp only [bind, Except.bind] at h
    split at h
    · cases h
    · rename_i hasRoom hitem
      cases hasRoom
      · cases h
      · cases h
        exact .inl ⟨⟨true, hitem⟩, rfl⟩
    · rename_i hfolder _
      cases h
      exact .inr ⟨hfolder, rfl⟩

/-- Bytes that were put into a file are read back from it; only devices hold nothing. -/
theorem bytesOf_put (h : t.put path bytes = .ok t') :
    t'.bytesOf path = .ok bytes ∨ t' = t ∧ ∃ hasRoom, t.get path = .ok (.device hasRoom) := by
  obtain ⟨place, hplace, ⟨⟨hasRoom, hitem⟩, rfl⟩ | ⟨hitem, rfl⟩⟩ := put_cases h
  · exact .inr ⟨rfl, hasRoom, get_eq_ok hplace hitem⟩
  · left
    have hget : (t.stored place bytes).get path = .ok (.file bytes) :=
      get_eq_ok (resolve_stored hitem hplace) at?_stored_self
    rw [bytesOf, hget]
    rfl

end GrammarDiagram.Command.Tree
