/-
GrammarDiagram/Proofs/Traced.lean

Results of computations that may stop at a fault.

A computation in steps has a result exactly when every step has one.  The
lemmas say this for one step (`bind_eq_ok_iff`, `result_bind_eq_ok_iff`) and,
for a loop over a list, as a rule of induction (`foldlM_eq_ok_induction`): what
the first state has and every step keeps, the result has.  Two loops whose steps
do the same tell and yield the same (`foldlM_congr`).
-/
import GrammarDiagram.Event

namespace GrammarDiagram

universe u

/-! ### Faults -/

namespace Fault

variable {α β : Type u}

theorem bind_eq_ok_iff {x : Except Fault α} {f : α → Except Fault β} {b : β} :
    (x >>= f) = .ok b ↔ ∃ a, x = .ok a ∧ f a = .ok b := by
  rcases x with e | a
  · constructor
    · intro h
      cases h
    · rintro ⟨a, h, -⟩
      cases h
  · constructor
    · intro h
      exact ⟨a, rfl, h⟩
    · rintro ⟨a', h, hf⟩
      cases h
      exact hf

/-- What a loop keeps at every step, its result has. -/
theorem foldlM_eq_ok_induction {f : β → α → Except Fault β} {motive : List α → β → Prop}
    (step : ∀ done b a b', motive done b → f b a = .ok b' → motive (done ++ [a]) b') :
    ∀ (l done : List α) {b b' : β}, motive done b → l.foldlM f b = .ok b' →
      motive (done ++ l) b'
  | [], done, b, b', hb, h => by
    cases h
    rwa [List.append_nil]
  | a :: rest, done, b, b', hb, h => by
    rw [List.foldlM_cons, bind_eq_ok_iff] at h
    obtain ⟨b₁, h₁, h⟩ := h
    have hrest := foldlM_eq_ok_induction step rest (done ++ [a]) (step done b a b₁ hb h₁) h
    rwa [List.append_assoc] at hrest

/-- A loop in which no step stops does not stop. -/
theorem foldlM_eq_ok {f : β → α → Except Fault β} {g : β → α → β} {l : List α}
    (h : ∀ a ∈ l, ∀ b, f b a = .ok (g b a)) (b : β) :
    l.foldlM f b = .ok (l.foldl g b) := by
  induction l generalizing b with
  | nil => rfl
  | cons a rest ih =>
    rw [List.foldlM_cons, h a List.mem_cons_self]
    exact ih (fun a ha => h a (List.mem_cons_of_mem _ ha)) _

theorem mapM_eq_ok {f : α → Except Fault β} {g : α → β} {l : List α}
    (h : ∀ a ∈ l, f a = .ok (g a)) : l.mapM f = .ok (l.map g) := by
  induction l with
  | nil => rfl
  | cons a rest ih =>
    rw [List.mapM_cons, h a List.mem_cons_self, ih fun a ha => h a (List.mem_cons_of_mem _ ha)]
    rfl

/-- A search in which no test stops does not stop. -/
theorem findM?_eq_ok {α : Type} {f : α → Except Fault Bool} {p : α → Bool} {l : List α}
    (h : ∀ a ∈ l, f a = .ok (p a)) : l.findM? f = .ok (l.find? p) := by
  induction l with
  | nil => rfl
  | cons a rest ih =>
    have hrest := ih fun a ha => h a (List.mem_cons_of_mem _ ha)
    rw [List.findM?, h a List.mem_cons_self, List.find?_cons]
    rcases p a
    · exact hrest
    · rfl

/-- A result whose property is decided. -/
theorem exists_ok_of_any {x : Except Fault α} {p : α → Bool} (h : x.toOption.any p) :
    ∃ a, x = .ok a ∧ p a := by
  rcases x with e | a
  · cases h
  · exact ⟨a, rfl, h⟩

end Fault

/-! ### Traced computations -/

namespace Traced

variable {α β : Type}

@[simp] theorem result_tell (e : Event) : (tell e).result = .ok () := rfl

theorem result_bind (t : Traced α) (f : α → Traced β) :
    (t >>= f).result = t.result >>= fun a => (f a).result := by
  obtain ⟨events, result⟩ := t
  rcases result with e | a
  · rfl
  · rfl

theorem result_bind_eq_ok_iff {t : Traced α} {f : α → Traced β} {b : β} :
    (t >>= f).result = .ok b ↔ ∃ a, t.result = .ok a ∧ (f a).result = .ok b := by
  rw [result_bind]
  exact Fault.bind_eq_ok_iff

theorem result_foldlM (f : β → α → Traced β) (l : List α) (b : β) :
    (l.foldlM f b).result = l.foldlM (fun b a => (f b a).result) b := by
  induction l generalizing b with
  | nil => rfl
  | cons a rest ih =>
    rw [List.foldlM_cons, List.foldlM_cons, result_bind]
    exact congrArg _ (funext ih)

/-- A computation that does not stop is its result. -/
theorem lift_ok_bind (a : α) (f : α → Traced β) : (lift (.ok a) >>= f) = f a := rfl

/-- Only what follows a result that is there matters. -/
theorem bind_congr {t : Traced α} {f g : α → Traced β}
    (h : ∀ a, t.result = .ok a → f a = g a) : t >>= f = t >>= g := by
  obtain ⟨events, result⟩ := t
  rcases result with e | a
  · rfl
  · show Traced.bind _ f = Traced.bind _ g
    simp only [Traced.bind, h a rfl]

theorem foldlM_congr {l : List α} {f g : β → α → Traced β}
    (h : ∀ a ∈ l, ∀ b, f b a = g b a) (b : β) : l.foldlM f b = l.foldlM g b := by
  induction l generalizing b with
  | nil => rfl
  | cons a rest ih =>
    rw [List.foldlM_cons, List.foldlM_cons, h a List.mem_cons_self]
    exact bind_congr fun b' _ => ih (fun a ha => h a (List.mem_cons_of_mem _ ha)) b'

end Traced

end GrammarDiagram
