import CommandTree.Context
import Mathlib.Data.List.Induction

/-!
Bindings made one after another: every name is bound once, to what it was bound to last.
-/

namespace CommandTree.Bindings

/-- The names increase, so that no name stands twice. -/
def Sorted (bs : Bindings) : Prop := bs.Pairwise fun a b => a.1 < b.1

theorem mem_of_mem_insert {x : Text × Binding} {name : Text} {b : Binding} {bs : Bindings}
    (h : x ∈ insert name b bs) : x = (name, b) ∨ x ∈ bs := by
  induction bs with
  | nil => simpa [insert] using h
  | cons p rest ih =>
    obtain ⟨n, c⟩ := p
    unfold insert at h
    split at h
    · rcases List.mem_cons.mp h with h | h
      · exact .inl h
      · exact .inr (List.mem_cons_of_mem _ h)
    · split at h
      · exact List.mem_cons.mp h
      · rcases List.mem_cons.mp h with h | h
        · exact .inr (h ▸ List.mem_cons_self)
        · exact (ih h).imp_right (List.mem_cons_of_mem _)

theorem Sorted.insert {bs : Bindings} (h : bs.Sorted) (name : Text) (b : Binding) :
    (bs.insert name b).Sorted := by
  induction bs with
  | nil => exact List.pairwise_singleton _ _
  | cons p rest ih =>
    obtain ⟨n, c⟩ := p
    obtain ⟨hlt, hrest⟩ := List.pairwise_cons.mp h
    unfold Bindings.insert
    split
    · rename_i he
      subst he
      exact List.pairwise_cons.mpr ⟨hlt, hrest⟩
    · rename_i hne
      split
      · rename_i hl
        refine List.pairwise_cons.mpr ⟨?_, h⟩
        intro x hx
        rcases List.mem_cons.mp hx with rfl | hx
        · exact hl
        · exact List.lt_trans hl (hlt x hx)
      · rename_i hl
        have hn : n < name := by grind
        refine List.pairwise_cons.mpr ⟨?_, ih hrest⟩
        intro x hx
        rcases mem_of_mem_insert hx with rfl | hx
        · exact hn
        · exact hlt x hx

theorem mem_insert_iff {bs : Bindings} (h : bs.Sorted) {m name : Text} {b c : Binding} :
    (m, c) ∈ insert name b bs ↔ (m = name ∧ c = b) ∨ (m ≠ name ∧ (m, c) ∈ bs) := by
  induction bs with
  | nil => simp [insert]
  | cons p rest ih =>
    obtain ⟨n, d⟩ := p
    obtain ⟨hlt, hrest⟩ := List.pairwise_cons.mp h
    have hirr : ∀ t : Text, ¬ t < t := List.lt_irrefl
    have habove : ∀ x, (n, x) ∉ rest := fun x hx => hirr n (hlt (n, x) hx)
    unfold insert
    split
    · rename_i he
      subst he
      simp only [List.mem_cons, Prod.mk.injEq]
      grind
    · rename_i hne
      split
      · rename_i hl
        have hname : ∀ x, (name, x) ∉ rest := fun x hx => hirr name (List.lt_trans hl (hlt _ hx))
        simp only [List.mem_cons, Prod.mk.injEq]
        grind
      · simp only [List.mem_cons, Prod.mk.injEq, ih hrest]
        grind

/-- Bindings made one after another. -/
def bindAll (bs : List (Text × Binding)) : Bindings :=
  bs.foldl (fun made b => made.insert b.1 b.2) []

theorem bindAll_concat (bs : List (Text × Binding)) (b : Text × Binding) :
    bindAll (bs ++ [b]) = (bindAll bs).insert b.1 b.2 := by
  simp [bindAll]

theorem sorted_bindAll (bs : List (Text × Binding)) : (bindAll bs).Sorted := by
  induction bs using List.reverseRecOn with
  | nil => exact List.Pairwise.nil
  | append_singleton bs b ih =>
    rw [bindAll_concat]
    exact ih.insert b.1 b.2

/-- A name is bound to what the last binding of that name says, and no other name is bound. -/
theorem mem_bindAll_iff (bs : List (Text × Binding)) {name : Text} {b : Binding} :
    (name, b) ∈ bindAll bs ↔ (bs.filter fun x => x.1 = name).getLast? = some (name, b) := by
  induction bs using List.reverseRecOn with
  | nil => simp [bindAll]
  | append_singleton bs x ih =>
    rw [bindAll_concat, mem_insert_iff (sorted_bindAll bs), List.filter_append, ih]
    by_cases hx : x.1 = name
    · have hf : [x].filter (fun y => y.1 = name) = [x] := by simp [hx]
      rw [hf, List.getLast?_concat, Option.some.injEq, Prod.ext_iff]
      grind
    · have hf : [x].filter (fun y => y.1 = name) = [] := by simp [hx]
      rw [hf, List.append_nil]
      grind

end CommandTree.Bindings
