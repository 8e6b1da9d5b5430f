import Mathlib.Data.List.Induction

/-! # Finite runs of labelled transition systems

A system is a relation `step : S → E → S → Prop` between a state, the event of one
step and the next state.  `Path step s h t` is a finite run: from `s` the events `h`,
oldest first, lead to `t`.  The list of events is the history of the run, so that an
invariant can speak of everything that happened so far.

* `Path.invariant` is the induction rule: what holds at the start and is kept by every
  step holds after every run.
* `Path.until` is the same rule for the part of a run in which no event satisfies `p`,
  and `Path.kept` its special case for properties of the state alone: what one step
  establishes stays until an event satisfying `p` lifts it.
* `Path.progress` finds a run to a goal, step by step along a measure, and `Path.backward` carries
  a property from the last state of a run to its first.
* `Path.split` cuts a run at any position of its history.

`exec` runs a function from states and inputs to events and states on a list of inputs,
`exec?` one that may reject an input; `path_exec` and `path_exec?` say that this is a run of
any system the function belongs to. -/

namespace Lts

variable {S E I : Type*} {step : S → E → S → Prop}

/-- `Path step s h t`: the events `h` lead from `s` to `t`. -/
inductive Path (step : S → E → S → Prop) (s : S) : List E → S → Prop
  | nil : Path step s [] s
  | snoc {h : List E} {t u : S} {e : E} :
      Path step s h t → step t e u → Path step s (h ++ [e]) u

theorem Path.nil_inv {s t : S} (h : Path step s [] t) : t = s := by
  generalize hl : ([] : List E) = l at h
  cases h with
  | nil => rfl
  | snoc _ _ => simp at hl

theorem Path.snoc_inv {s u : S} {h : List E} {e : E} (hp : Path step s (h ++ [e]) u) :
    ∃ t, Path step s h t ∧ step t e u := by
  generalize hl : h ++ [e] = l at hp
  cases hp with
  | nil => simp at hl
  | snoc hp hs =>
      obtain ⟨rfl, he⟩ := List.append_inj' hl rfl
      obtain rfl := List.singleton_inj.mp he
      exact ⟨_, hp, hs⟩

theorem Path.single_inv {s t : S} {e : E} (hp : Path step s [e] t) : step s e t := by
  rw [← List.nil_append [e]] at hp
  obtain ⟨u, hnil, hs⟩ := hp.snoc_inv
  obtain rfl := hnil.nil_inv
  exact hs

theorem Path.single {s t : S} {e : E} (h : step s e t) : Path step s [e] t := by
  simpa using Path.snoc (@Path.nil S E step s) h

theorem Path.append {s t u : S} {h₁ h₂ : List E} (hp : Path step s h₁ t)
    (hq : Path step t h₂ u) : Path step s (h₁ ++ h₂) u := by
  induction hq with
  | nil => simpa using hp
  | snoc _ hs ih => rw [← List.append_assoc]; exact ih.snoc hs

theorem Path.mono {step' : S → E → S → Prop} (hmono : ∀ s e t, step s e t → step' s e t) {s t : S}
    {h : List E} (hp : Path step s h t) : Path step' s h t := by
  induction hp with
  | nil => exact .nil
  | snoc _ hs ih => exact ih.snoc (hmono _ _ _ hs)

/-- A run can be cut anywhere in its history. -/
theorem Path.split {s u : S} {h₁ h₂ : List E} (hp : Path step s (h₁ ++ h₂) u) :
    ∃ t, Path step s h₁ t ∧ Path step t h₂ u := by
  induction h₂ using List.reverseRecOn generalizing u with
  | nil => exact ⟨u, by simpa using hp, .nil⟩
  | append_singleton h₂ e ih =>
      rw [← List.append_assoc] at hp
      obtain ⟨v, hv, hs⟩ := hp.snoc_inv
      obtain ⟨t, ht, hq⟩ := ih hv
      exact ⟨t, ht, hq.snoc hs⟩

theorem Path.cons_inv {s u : S} {e : E} {h : List E} (hp : Path step s (e :: h) u) :
    ∃ t, step s e t ∧ Path step t h u := by
  rw [← List.singleton_append] at hp
  obtain ⟨t, hfirst, hrest⟩ := hp.split
  exact ⟨t, hfirst.single_inv, hrest⟩

/-- **Invariant rule.**  The step hypothesis may use that the state before is reached. -/
theorem Path.invariant {s : S} {P : List E → S → Prop} (h0 : P [] s)
    (hstep : ∀ h t e u, Path step s h t → P h t → step t e u → P (h ++ [e]) u)
    {h : List E} {t : S} (hp : Path step s h t) : P h t := by
  induction hp with
  | nil => exact h0
  | snoc hp hs ih => exact hstep _ _ _ _ hp ih hs

/-- The invariant rule inside a stretch of the run without events satisfying `p`. -/
theorem Path.until {s : S} {p : E → Prop} {P : List E → S → Prop} (h0 : P [] s)
    (hstep : ∀ h t e u, P h t → ¬ p e → step t e u → P (h ++ [e]) u)
    {h : List E} {t : S} (hp : Path step s h t) (hn : ∀ e ∈ h, ¬ p e) : P h t := by
  induction hp with
  | nil => exact h0
  | snoc hp hs ih =>
      have hpre := ih fun e he => hn e (List.mem_append_left _ he)
      exact hstep _ _ _ _ hpre (hn _ (by simp)) hs

/-- What holds of a state stays true until an event satisfying `p`. -/
theorem Path.kept {s t : S} {p : E → Prop} {Q : S → Prop} {h : List E}
    (hstep : ∀ t e u, Q t → ¬ p e → step t e u → Q u) (hp : Path step s h t)
    (hn : ∀ e ∈ h, ¬ p e) (h0 : Q s) : Q t :=
  Path.until (P := fun _ => Q) h0 (fun _ t e u hq hne hs => hstep t e u hq hne hs) hp hn

/-- **Progress rule.**  If every reached state satisfies `Q` or has a step that keeps `P` and
lowers the measure, `Q` is reached within as many steps as the measure says. -/
theorem Path.progress {s : S} {P Q : S → Prop} (measure : S → ℕ)
    (hstep : ∀ h t, Path step s h t → P t →
      Q t ∨ ∃ e u, step t e u ∧ P u ∧ measure u < measure t)
    {h : List E} {t : S} (hp : Path step s h t) (h0 : P t) :
    ∃ h' u, Path step t h' u ∧ Q u ∧ h'.length ≤ measure t := by
  generalize hn : measure t = n
  induction n using Nat.strongRecOn generalizing h t with
  | ind n ih =>
      rcases hstep h t hp h0 with hq | ⟨e, u, hs, hu, hlt⟩
      · exact ⟨[], t, .nil, hq, by simp⟩
      · obtain ⟨h', v, hv, hq, hlen⟩ := ih (measure u) (by omega) (hp.snoc hs) hu rfl
        refine ⟨e :: h', v, (Path.single hs).append hv, hq, ?_⟩
        rw [List.length_cons]
        omega

/-- What the state after every step tells of the state before, the last state tells of the first. -/
theorem Path.backward {s : S} {P : S → Prop}
    (hstep : ∀ h t e u, Path step s h t → step t e u → P u → P t)
    {h h' : List E} {t u : S} (hp : Path step s h t) (hq : Path step t h' u) (hu : P u) : P t := by
  induction hq with
  | nil => exact hu
  | snoc hq hs ih => exact ih (hstep _ _ _ _ (hp.append hq) hs hu)

/-! ### Two runs -/

/-- Where the label of an event and the state before it determine the event and the state after
it, the labels of a run determine the run. -/
theorem Path.eq_of_labels {L : Type*} {label : E → L}
    (hdet : ∀ s e e' t t', step s e t → step s e' t' → label e = label e' → e = e' ∧ t = t')
    {s t t' : S} {h h' : List E} (hp : Path step s h t) (hp' : Path step s h' t')
    (hl : h.map label = h'.map label) : h = h' ∧ t = t' := by
  induction hp generalizing h' t' with
  | nil =>
      obtain rfl := List.map_eq_nil_iff.mp hl.symm
      exact ⟨rfl, hp'.nil_inv.symm⟩
  | @snoc h u t e _ hs ih =>
      rw [List.map_append] at hl
      obtain ⟨h₁, h₂, rfl, hl₁, hl₂⟩ := List.map_eq_append_iff.mp hl.symm
      obtain ⟨e', rfl, he⟩ := List.map_eq_singleton_iff.mp hl₂
      obtain ⟨u', hu', hs'⟩ := hp'.snoc_inv
      obtain ⟨rfl, rfl⟩ := ih hu' hl₁.symm
      obtain ⟨rfl, rfl⟩ := hdet _ _ _ _ _ hs hs' he.symm
      exact ⟨rfl, rfl⟩

/-- A part of the state moves with the events that concern it and with no others. -/
theorem Path.project {S' : Type*} {step' : S' → E → S' → Prop} {view : S → S'} {keep : E → Bool}
    {P : S → Prop} (hP : ∀ s e t, P s → step s e t → P t)
    (hkeep : ∀ s e t, P s → step s e t → keep e = true → step' (view s) e (view t))
    (hdrop : ∀ s e t, P s → step s e t → keep e = false → view t = view s)
    {s t : S} {h : List E} (hp : Path step s h t) (h0 : P s) :
    P t ∧ Path step' (view s) (h.filter keep) (view t) := by
  refine hp.invariant (P := fun h t => P t ∧ Path step' (view s) (h.filter keep) (view t))
    ⟨h0, .nil⟩ ?_
  intro h t e u _ ⟨ht, ih⟩ hs
  refine ⟨hP t e u ht hs, ?_⟩
  rw [List.filter_append]
  cases hk : keep e with
  | true =>
      rw [List.filter_cons_of_pos hk]
      exact ih.snoc (hkeep t e u ht hs hk)
  | false =>
      rw [List.filter_cons_of_neg (by simp [hk]), List.filter_nil, List.append_nil,
        hdrop t e u ht hs hk]
      exact ih

/-! ### Executing a system -/

/-- The history of the run of `f` on a list of inputs, and the state it ends in. -/
def exec (f : S → I → E × S) (s : S) : List I → List E × S
  | [] => ([], s)
  | i :: is =>
      let r := exec f (f s i).2 is
      ((f s i).1 :: r.1, r.2)

/-- Executing a function whose every step is one of the system is a run of the system. -/
theorem path_exec {f : S → I → E × S} (hf : ∀ s i, step s (f s i).1 (f s i).2) (s : S)
    (is : List I) : Path step s (exec f s is).1 (exec f s is).2 := by
  induction is generalizing s with
  | nil => exact .nil
  | cons i is ih =>
      have hfirst : Path step s [(f s i).1] (f s i).2 := .single (hf s i)
      exact hfirst.append (ih (f s i).2)

/-- The same for a function that does not accept every input. -/
def exec? (f : S → I → Option (E × S)) (s : S) : List I → Option (List E × S)
  | [] => some ([], s)
  | i :: is => do
      let (e, t) ← f s i
      let (h, u) ← exec? f t is
      return (e :: h, u)

theorem path_exec? {f : S → I → Option (E × S)}
    (hf : ∀ s i r, f s i = some r → step s r.1 r.2) {s : S} {is : List I} {r : List E × S}
    (h : exec? f s is = some r) : Path step s r.1 r.2 := by
  induction is generalizing s r with
  | nil =>
      obtain rfl := Option.some.inj h
      exact .nil
  | cons i is ih =>
      simp only [exec?, Option.bind_eq_bind, Option.bind_eq_some_iff] at h
      obtain ⟨⟨e, t⟩, he, ⟨h', u⟩, hrest, hr⟩ := h
      obtain rfl := Option.some.inj hr
      have hfirst : Path step s [e] t := .single (hf _ _ _ he)
      exact hfirst.append (ih hrest)

end Lts
