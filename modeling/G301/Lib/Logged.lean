import Mathlib.Data.List.Infix
import Mathlib.Logic.Function.Basic

/-! # Computations that log their requests

`Logged κ ε α` is a computation that may fail with an error of `ε` and makes requests of type
`κ` on the way; it is the list of these requests, in order, and the result.  `result` forgets
the requests and is a homomorphism (`result_bind`, `result_foldlM`), so that a logged version of
a program computes what the program computes.

`Asks π asked x` says what a computation asks, seen through `π`: a prefix of the list `asked`,
and all of it if it succeeds.  `Ran made x a` says that it returns `a` having made only requests
of `made`, and `Resolves answered e x` that it fails, with the error `e`, exactly if a request
stays unanswered.  All three compose along sequences and loops. -/

universe u

structure Logged (κ ε : Type*) (α : Type u) where
  calls : List κ
  result : Except ε α

namespace Logged

variable {κ ε ι : Type*} {α β σ : Type u}

/-- One request, with its answer. -/
def request (call : κ) (answer : Except ε α) : Logged κ ε α := ⟨[call], answer⟩

/-- A computation without requests. -/
def lift (result : Except ε α) : Logged κ ε α := ⟨[], result⟩

instance : Monad (Logged κ ε) where
  pure a := lift (.ok a)
  bind x f :=
    match x.result with
    | .error e => ⟨x.calls, .error e⟩
    | .ok a => ⟨x.calls ++ (f a).calls, (f a).result⟩

theorem bind_of_error {x : Logged κ ε α} {e : ε} (h : x.result = .error e) (f : α → Logged κ ε β) :
    x >>= f = ⟨x.calls, .error e⟩ := by
  show (match x.result with | .error e => _ | .ok a => _) = _
  rw [h]

theorem bind_of_ok {x : Logged κ ε α} {a : α} (h : x.result = .ok a) (f : α → Logged κ ε β) :
    x >>= f = ⟨x.calls ++ (f a).calls, (f a).result⟩ := by
  show (match x.result with | .error e => _ | .ok a => _) = _
  rw [h]

@[simp] theorem result_request (call : κ) (answer : Except ε α) :
    (request call answer).result = answer := rfl

@[simp] theorem result_lift (result : Except ε α) :
    (lift result : Logged κ ε α).result = result := rfl

@[simp] theorem result_pure (a : α) : (pure a : Logged κ ε α).result = pure a := rfl

@[simp] theorem result_bind (x : Logged κ ε α) (f : α → Logged κ ε β) :
    (x >>= f).result = x.result >>= fun a => (f a).result := by
  cases h : x.result with
  | error e => rw [bind_of_error h]; rfl
  | ok a => rw [bind_of_ok h]; rfl

theorem result_foldlM (f : σ → α → Logged κ ε σ) (s : σ) (l : List α) :
    (l.foldlM f s).result = l.foldlM (fun s a => (f s a).result) s := by
  induction l generalizing s with
  | nil => rfl
  | cons a l ih =>
      rw [List.foldlM_cons, List.foldlM_cons, result_bind]
      simp only [ih]

/-! ### What a computation asks -/

structure Asks (π : κ → ι) (asked : List ι) (x : Logged κ ε α) : Prop where
  isPrefix : x.calls.map π <+: asked
  all : ∀ a, x.result = .ok a → x.calls.map π = asked

namespace Asks

variable {π : κ → ι} {asked asked' : List ι}

theorem request (π : κ → ι) (call : κ) (answer : Except ε α) :
    Asks π [π call] (Logged.request call answer) :=
  ⟨List.prefix_rfl, fun _ _ => rfl⟩

theorem lift (result : Except ε α) : Asks π [] (Logged.lift result) :=
  ⟨List.prefix_rfl, fun _ _ => rfl⟩

theorem pure (a : α) : Asks π [] (Pure.pure a : Logged κ ε α) := lift (.ok a)

theorem bind {x : Logged κ ε α} {f : α → Logged κ ε β} (hx : Asks π asked x)
    (hf : ∀ a, x.result = .ok a → Asks π asked' (f a)) : Asks π (asked ++ asked') (x >>= f) := by
  cases h : x.result with
  | error e =>
      rw [bind_of_error h]
      refine ⟨hx.isPrefix.trans (List.prefix_append asked asked'), ?_⟩
      intro a ha
      cases ha
  | ok a =>
      rw [bind_of_ok h]
      constructor
      · rw [List.map_append, hx.all a h]
        exact (List.prefix_append_right_inj asked).mpr (hf a h).isPrefix
      · intro b hb
        rw [List.map_append, hx.all a h, (hf a h).all b hb]

/-- A loop asks what its rounds ask. -/
theorem foldlM {f : σ → α → Logged κ ε σ} {g : α → List ι} (hf : ∀ s a, Asks π (g a) (f s a))
    (s : σ) (l : List α) : Asks π (l.flatMap g) (l.foldlM f s) := by
  induction l generalizing s with
  | nil => exact pure s
  | cons a l ih =>
      rw [List.foldlM_cons, List.flatMap_cons]
      exact (hf s a).bind fun s' _ => ih s'

/-- Requests that are all different stay so when the computation stops early. -/
theorem nodup {x : Logged κ ε α} (h : Asks π asked x) (hasked : asked.Nodup) :
    (x.calls.map π).Nodup :=
  hasked.sublist h.isPrefix.sublist

end Asks

/-! ### Requests of another type -/

variable {κ' : Type*}

def mapCalls (g : κ → κ') (x : Logged κ ε α) : Logged κ' ε α := ⟨x.calls.map g, x.result⟩

@[simp] theorem result_mapCalls (g : κ → κ') (x : Logged κ ε α) :
    (x.mapCalls g).result = x.result := rfl

/-! ### Successful runs -/

/-- The computation returns `a`, and every request it makes is one of `made`. -/
structure Ran (made : κ → Prop) (x : Logged κ ε α) (a : α) : Prop where
  calls_made : ∀ call ∈ x.calls, made call
  result_eq : x.result = .ok a

section ran
variable {made : κ → Prop} {a : α}

theorem ran_request {call : κ} {answer : Except ε α} :
    Ran made (request call answer) a ↔ made call ∧ answer = .ok a := by
  constructor
  · intro h
    exact ⟨h.calls_made call (List.mem_singleton_self call), h.result_eq⟩
  · rintro ⟨hmade, hanswer⟩
    refine ⟨fun c hc => ?_, hanswer⟩
    rw [List.mem_singleton.mp hc]
    exact hmade

theorem ran_lift {result : Except ε α} :
    Ran made (lift result) a ↔ result = .ok a := by
  refine ⟨Ran.result_eq, fun h => ⟨fun c hc => ?_, h⟩⟩
  cases hc

theorem ran_pure {b : α} : Ran made (pure b : Logged κ ε α) a ↔ b = a :=
  ran_lift.trans ⟨Except.ok.inj, congrArg Except.ok⟩

theorem ran_bind {x : Logged κ ε α} {f : α → Logged κ ε β} {b : β} :
    Ran made (x >>= f) b ↔ ∃ a, Ran made x a ∧ Ran made (f a) b := by
  constructor
  · rintro ⟨hcalls, hresult⟩
    cases hx : x.result with
    | error e =>
        rw [bind_of_error hx] at hresult
        cases hresult
    | ok a =>
        rw [bind_of_ok hx] at hcalls hresult
        refine ⟨a, ⟨fun c hc => ?_, hx⟩, ⟨fun c hc => ?_, hresult⟩⟩
        · exact hcalls c (List.mem_append_left _ hc)
        · exact hcalls c (List.mem_append_right _ hc)
  · rintro ⟨a, ⟨hcalls, hx⟩, ⟨hcalls', hf⟩⟩
    rw [bind_of_ok hx]
    refine ⟨fun c hc => ?_, hf⟩
    rcases List.mem_append.mp hc with hc | hc
    · exact hcalls c hc
    · exact hcalls' c hc

theorem ran_mapCalls {g : κ → κ'} {made' : κ' → Prop} {x : Logged κ ε α} :
    Ran made' (x.mapCalls g) a ↔ Ran (fun c => made' (g c)) x a :=
  ⟨fun ⟨hcalls, h⟩ => ⟨fun c hc => hcalls (g c) (List.mem_map_of_mem hc), h⟩,
    fun ⟨hcalls, h⟩ => ⟨List.forall_mem_map.mpr hcalls, h⟩⟩

/-- A loop that fills a table, one entry a round, under distinct keys. -/
theorem Ran.foldlM_update {δ : Type u} [DecidableEq δ] {f : ι → Logged κ ε β} {key : ι → δ}
    {l : List ι} {start table : δ → β} (hl : (l.map key).Nodup)
    (h : Ran made (l.foldlM (fun t i => do
      let b ← f i
      return Function.update t (key i) b) start) table) :
    (∀ i ∈ l, Ran made (f i) (table (key i))) ∧ ∀ k, k ∉ l.map key → table k = start k := by
  induction l generalizing start with
  | nil =>
      obtain rfl := ran_pure.mp h
      exact ⟨fun i hi => absurd hi List.not_mem_nil, fun _ _ => rfl⟩
  | cons i l ih =>
      rw [List.foldlM_cons] at h
      obtain ⟨next, hnext, hrest⟩ := ran_bind.mp h
      obtain ⟨b, hb, hpure⟩ := ran_bind.mp hnext
      obtain rfl := ran_pure.mp hpure
      rw [List.map_cons, List.nodup_cons] at hl
      obtain ⟨hmem, hframe⟩ := ih hl.2 hrest
      have hi : table (key i) = b := by
        rw [hframe _ hl.1, Function.update_self]
      constructor
      · intro j hj
        rcases List.mem_cons.mp hj with rfl | hj
        · rw [hi]
          exact hb
        · exact hmem j hj
      · intro k hk
        rw [List.map_cons, List.mem_cons, not_or] at hk
        rw [hframe k hk.2, Function.update_of_ne hk.1]

end ran

/-! ### Unanswered requests -/

/-- Without an unanswered request the computation succeeds, with one it fails with `e`. -/
structure Resolves (answered : κ → Prop) (e : ε) (x : Logged κ ε α) : Prop where
  ok : (∀ call ∈ x.calls, answered call) → ∃ a, x.result = .ok a
  error : ∀ call ∈ x.calls, ¬ answered call → x.result = .error e

namespace Resolves

variable {answered : κ → Prop} {e : ε}

theorem request {call : κ} {answer : Except ε α} (hok : answered call → ∃ a, answer = .ok a)
    (herror : ¬ answered call → answer = .error e) :
    Resolves answered e (Logged.request call answer) := by
  constructor
  · intro h
    exact hok (h call (List.mem_singleton_self call))
  · intro c hc hn
    rw [List.mem_singleton.mp hc] at hn
    exact herror hn

theorem lift (a : α) : Resolves answered e (Logged.lift (.ok a) : Logged κ ε α) := by
  refine ⟨fun _ => ⟨a, rfl⟩, fun c hc => ?_⟩
  cases hc

theorem pure (a : α) : Resolves answered e (Pure.pure a : Logged κ ε α) := lift a

theorem bind {x : Logged κ ε α} {f : α → Logged κ ε β} (hx : Resolves answered e x)
    (hf : ∀ a, x.result = .ok a → Resolves answered e (f a)) : Resolves answered e (x >>= f) := by
  cases h : x.result with
  | error e' =>
      rw [bind_of_error h]
      constructor
      · intro hall
        obtain ⟨a, ha⟩ := hx.ok hall
        rw [h] at ha
        cases ha
      · intro c hc hn
        exact congrArg Except.error (Except.error.inj (h.symm.trans (hx.error c hc hn)))
  | ok a =>
      rw [bind_of_ok h]
      constructor
      · intro hall
        exact (hf a h).ok fun c hc => hall c (List.mem_append_right _ hc)
      · intro c hc hn
        rcases List.mem_append.mp hc with hc | hc
        · have hfail := hx.error c hc hn
          rw [h] at hfail
          cases hfail
        · exact (hf a h).error c hc hn

/-- What fails in the end fails with `e` wherever it stops. -/
theorem bind_error {x : Logged κ ε α} {f : α → Logged κ ε β} (hx : Resolves answered e x)
    (hf : ∀ a, (f a).result = .error e) : (x >>= f).result = .error e := by
  cases h : x.result with
  | error e' =>
      rw [bind_of_error h]
      by_cases hall : ∀ call ∈ x.calls, answered call
      · obtain ⟨a, ha⟩ := hx.ok hall
        rw [h] at ha
        cases ha
      · simp only [not_forall] at hall
        obtain ⟨call, hcall, hn⟩ := hall
        exact congrArg Except.error (Except.error.inj (h.symm.trans (hx.error call hcall hn)))
  | ok a =>
      rw [bind_of_ok h]
      exact hf a

theorem foldlM {f : σ → ι → Logged κ ε σ} (hf : ∀ s i, Resolves answered e (f s i)) (s : σ)
    (l : List ι) : Resolves answered e (l.foldlM f s) := by
  induction l generalizing s with
  | nil => exact pure s
  | cons i l ih =>
      rw [List.foldlM_cons]
      exact (hf s i).bind fun s' _ => ih s'

theorem mapCalls {g : κ → κ'} {answered' : κ' → Prop} {x : Logged κ ε α}
    (h : Resolves (fun c => answered' (g c)) e x) : Resolves answered' e (x.mapCalls g) := by
  constructor
  · intro hall
    exact h.ok fun c hc => hall (g c) (List.mem_map_of_mem hc)
  · intro c hc hn
    obtain ⟨c', hc', rfl⟩ := List.mem_map.mp hc
    exact h.error c' hc' hn

end Resolves

end Logged
