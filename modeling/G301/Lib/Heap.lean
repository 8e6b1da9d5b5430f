import Mathlib.Data.List.Nodup
import Mathlib.Logic.Function.Basic

/-! # A heap, and who owns it

A `Heap` holds cells at addresses that are handed out in order and never again.  An allocation is
granted or refused; freeing an address that holds no cell of the right kind, or writing to one that
holds none, is a misuse, which the heap remembers.

`Holds heap blocks` says that the live cells are those of the list, each at its own address, and
that there was no misuse.  The rules for `push`, `store` and `free` follow the list as a stack:
a new cell goes on top, and a cell is freed at the top.  `Holds.perm` moves a cell there. -/

namespace Memory

variable {C : Type*}

/-- An address, or `NULL`. -/
abbrev Ptr := Option ℕ

structure Heap (C : Type*) where
  cell : ℕ → Option C
  next : ℕ
  misused : Bool
  fresh : ∀ a, next ≤ a → cell a = none

namespace Heap

def empty : Heap C := ⟨fun _ => none, 0, false, fun _ _ => rfl⟩

/-- A new cell at the next address. -/
def push (heap : Heap C) (c : C) : Heap C :=
  ⟨Function.update heap.cell heap.next (some c), heap.next + 1, heap.misused, fun a ha => by
    rw [Function.update_of_ne (by omega)]
    exact heap.fresh a (by omega)⟩

/-- A new cell, or `NULL`. -/
def alloc (heap : Heap C) (granted : Bool) (c : C) : Ptr × Heap C :=
  if granted then (some heap.next, heap.push c) else (none, heap)

/-- An access that the program had no right to. -/
def misuse (heap : Heap C) : Heap C := { heap with misused := true }

/-- Overwrites a live cell. -/
def store (heap : Heap C) (a : ℕ) (c : C) : Heap C :=
  if h : (heap.cell a).isSome then
    ⟨Function.update heap.cell a (some c), heap.next, heap.misused, fun b hb => by
      have hne : b ≠ a := by
        rintro rfl
        rw [heap.fresh b hb] at h
        cases h
      rw [Function.update_of_ne hne]
      exact heap.fresh b hb⟩
  else heap.misuse

/-- Frees a cell of a kind; `NULL` is ignored. -/
def free (heap : Heap C) (kind : C → Bool) : Ptr → Heap C
  | none => heap
  | some a =>
      if (heap.cell a).any kind then
        ⟨Function.update heap.cell a none, heap.next, heap.misused, fun b hb => by
          by_cases hba : b = a
          · rw [hba, Function.update_self]
          · rw [Function.update_of_ne hba]
            exact heap.fresh b hb⟩
      else heap.misuse

@[simp] theorem free_none (heap : Heap C) (kind : C → Bool) : heap.free kind none = heap := rfl

@[simp] theorem alloc_true (heap : Heap C) (c : C) :
    heap.alloc true c = (some heap.next, heap.push c) := rfl

@[simp] theorem alloc_false (heap : Heap C) (c : C) : heap.alloc false c = (none, heap) := rfl

@[simp] theorem push_next (heap : Heap C) (c : C) : (heap.push c).next = heap.next + 1 := rfl

@[simp] theorem misuse_next (heap : Heap C) : heap.misuse.next = heap.next := rfl

@[simp] theorem store_next (heap : Heap C) (a : ℕ) (c : C) :
    (heap.store a c).next = heap.next := by
  unfold store
  split <;> rfl

@[simp] theorem free_next (heap : Heap C) (kind : C → Bool) (p : Ptr) :
    (heap.free kind p).next = heap.next := by
  unfold free
  split
  · rfl
  · split <;> rfl

theorem alloc_next_le (heap : Heap C) (granted : Bool) (c : C) :
    heap.next ≤ (heap.alloc granted c).2.next := by
  cases granted <;> simp

/-- The live cells are the blocks of the list, and there was no misuse. -/
structure Holds (heap : Heap C) (blocks : List (ℕ × C)) : Prop where
  nodup : (blocks.map Prod.fst).Nodup
  mem_iff : ∀ a c, heap.cell a = some c ↔ (a, c) ∈ blocks
  sound : heap.misused = false

variable {heap heap' : Heap C} {blocks blocks' : List (ℕ × C)} {a : ℕ} {c c' : C}

theorem holds_empty : (empty : Heap C).Holds [] := by
  refine ⟨List.nodup_nil, fun a c => ?_, rfl⟩
  simp [empty]

theorem Holds.perm (h : heap.Holds blocks) (hp : blocks.Perm blocks') : heap.Holds blocks' :=
  ⟨(hp.map Prod.fst).nodup_iff.mp h.nodup, fun a c => (h.mem_iff a c).trans hp.mem_iff, h.sound⟩

/-- Two heaps that hold the same blocks have the same cells. -/
theorem Holds.cell_eq (h : heap.Holds blocks) (h' : heap'.Holds blocks) :
    heap.cell = heap'.cell := by
  funext a
  apply Option.ext
  intro c
  rw [h.mem_iff, h'.mem_iff]

theorem Holds.lt_next (h : heap.Holds blocks) (hm : (a, c) ∈ blocks) : a < heap.next := by
  by_contra hge
  have hcell := (h.mem_iff a c).mpr hm
  rw [heap.fresh a (by omega)] at hcell
  cases hcell

/-- A granted cell goes on top of the others. -/
theorem Holds.push (h : heap.Holds blocks) (c : C) :
    (heap.push c).Holds ((heap.next, c) :: blocks) := by
  refine ⟨?_, ?_, h.sound⟩
  · rw [List.map_cons, List.nodup_cons]
    refine ⟨?_, h.nodup⟩
    intro hmem
    obtain ⟨⟨b, d⟩, hb, heq⟩ := List.mem_map.mp hmem
    have hlt := h.lt_next hb
    dsimp only at heq
    omega
  · intro b d
    show Function.update heap.cell heap.next (some c) b = some d ↔ _
    rw [List.mem_cons, Prod.mk.injEq]
    by_cases hb : b = heap.next
    · subst hb
      rw [Function.update_self, Option.some.injEq]
      constructor
      · intro heq
        exact .inl ⟨rfl, heq.symm⟩
      · rintro (⟨-, heq⟩ | hmem)
        · exact heq.symm
        · exact absurd (h.lt_next hmem) (Nat.lt_irrefl _)
    · rw [Function.update_of_ne hb, h.mem_iff]
      simp [hb]

/-- The other blocks are at other addresses. -/
theorem Holds.ne_of_mem (h : heap.Holds ((a, c) :: blocks)) {b : ℕ} {d : C}
    (hm : (b, d) ∈ blocks) : b ≠ a := by
  rintro rfl
  have hnodup := h.nodup
  rw [List.map_cons, List.nodup_cons] at hnodup
  exact hnodup.1 (List.mem_map.mpr ⟨_, hm, rfl⟩)

theorem Holds.free (h : heap.Holds ((a, c) :: blocks)) {kind : C → Bool} (hkind : kind c = true) :
    (heap.free kind (some a)).Holds blocks := by
  have hcell : heap.cell a = some c := (h.mem_iff a c).mpr (by simp)
  have hany : (heap.cell a).any kind = true := by rw [hcell]; exact hkind
  have hnodup := h.nodup
  rw [List.map_cons, List.nodup_cons] at hnodup
  unfold Heap.free
  dsimp only
  rw [if_pos hany]
  refine ⟨hnodup.2, ?_, h.sound⟩
  intro b d
  show Function.update heap.cell a none b = some d ↔ _
  by_cases hb : b = a
  · subst hb
    rw [Function.update_self]
    constructor
    · intro heq
      cases heq
    · intro hmem
      exact absurd rfl (h.ne_of_mem hmem)
  · rw [Function.update_of_ne hb, h.mem_iff]
    simp [hb]

/-- The block at the top is overwritten. -/
theorem Holds.store_top (h : heap.Holds ((a, c) :: blocks)) (c' : C) :
    (heap.store a c').Holds ((a, c') :: blocks) := by
  have hcell : heap.cell a = some c := (h.mem_iff a c).mpr (by simp)
  have hsome : (heap.cell a).isSome = true := by rw [hcell]; rfl
  unfold Heap.store
  rw [dif_pos hsome]
  refine ⟨h.nodup, ?_, h.sound⟩
  intro b d
  show Function.update heap.cell a (some c') b = some d ↔ _
  rw [List.mem_cons, Prod.mk.injEq]
  by_cases hb : b = a
  · subst hb
    rw [Function.update_self, Option.some.injEq]
    constructor
    · intro heq
      exact .inl ⟨rfl, heq.symm⟩
    · rintro (⟨-, heq⟩ | hmem)
      · exact heq.symm
      · exact absurd rfl (h.ne_of_mem hmem)
  · rw [Function.update_of_ne hb, h.mem_iff]
    simp [hb]

/-- A block below others is overwritten. -/
theorem Holds.store (top : List (ℕ × C)) (h : heap.Holds (top ++ (a, c) :: blocks)) (c' : C) :
    (heap.store a c').Holds (top ++ (a, c') :: blocks) := by
  have hfirst := h.perm List.perm_middle
  exact (hfirst.store_top c').perm List.perm_middle.symm

end Heap

end Memory
