import Mathlib.Data.List.Basic

/-! # Looking up what occurs at most once

`List.find?` takes the first match.  Where there is at most one, which one that is does not
depend on the order of the list. -/

namespace Lookup

variable {α : Type*} {p : α → Bool} {l l' : List α}

theorem find?_eq_some_iff (hone : l.countP p ≤ 1) (a : α) :
    l.find? p = some a ↔ a ∈ l ∧ p a = true := by
  induction l with
  | nil => simp
  | cons b l ih =>
      rw [List.find?_cons]
      cases hb : p b with
      | false =>
          rw [List.countP_cons_of_neg (by simp [hb])] at hone
          have hne (ha : p a = true) : a ≠ b := by
            rintro rfl
            rw [hb] at ha
            cases ha
          simp only [ih hone, List.mem_cons]
          constructor
          · rintro ⟨hmem, ha⟩
            exact ⟨.inr hmem, ha⟩
          · rintro ⟨rfl | hmem, ha⟩
            · exact absurd rfl (hne ha)
            · exact ⟨hmem, ha⟩
      | true =>
          rw [List.countP_cons_of_pos hb] at hone
          have hrest : ∀ x ∈ l, ¬ p x = true := List.countP_eq_zero.mp (by omega)
          simp only [Option.some.injEq, List.mem_cons]
          constructor
          · rintro rfl
            exact ⟨.inl rfl, hb⟩
          · rintro ⟨rfl | hmem, ha⟩
            · rfl
            · exact absurd ha (hrest a hmem)

theorem find?_isSome_of_perm (h : l.Perm l') : (l.find? p).isSome = (l'.find? p).isSome := by
  rw [Bool.eq_iff_iff, List.find?_isSome, List.find?_isSome]
  simp only [h.mem_iff]

theorem find?_of_perm (hone : l.countP p ≤ 1) (h : l.Perm l') : l.find? p = l'.find? p := by
  have hone' : l'.countP p ≤ 1 := by rwa [← h.countP_eq]
  apply Option.ext
  intro a
  rw [find?_eq_some_iff hone, find?_eq_some_iff hone', h.mem_iff]

end Lookup
