import Mathlib.Data.List.Perm.Basic
import G301.Outer.Execution
import G301.Outer.Lifecycle

/-! # The provider as its caller sees it

A `System` is the heap with the providers and contexts that the caller holds.  In one step the
caller makes, uses or gives back one of them, under the rules of the dispatch table
(`System.Allowed`): it passes `NULL` or what it holds, and no context outlives its provider.

`System.Owned` is the invariant of all runs (`System.exists_owned`): the heap holds what the held
handles own and nothing else (`System.run_memory`), and each context is where its own calls have led
it (`System.run_contexts`). -/

namespace G301.Outer

open Lts Memory

/-- A call of the provider's two dispatch tables. -/
inductive Request where
  | init (grants : ProviderGrants) (handle : Ptr) (input : Option (List Dispatch))
      (out provctx : Bool)
  | teardown (provctx : Ptr)
  | newctx (grants : ContextGrants) (provctx : Ptr)
  | freectx (ctx : Ptr)
  | operate (ctx : ℕ) (ans : Answers) (call : Call)

/-- What comes back: a provider, a context, nothing, or the result of a call on a context with the
calls that it made into the core. -/
inductive Response where
  | provider (provctx : Option Ptr)
  | context (ctx : Ptr)
  | done
  | called (event : Event) (core : List CoreCall)

structure SystemEvent where
  request : Request
  response : Response

structure System where
  heap : Heap Cell
  providers : List ℕ
  /-- The contexts, each with its provider. -/
  contexts : List (ℕ × ℕ)

namespace System

def empty : System := ⟨Heap.empty, [], []⟩

/-- One call. -/
def step (lib : Param.Libcrypto) (sys : System) : Request → Response × System
  | .init grants handle input out provctx =>
      let (provctx, heap) := providerInit grants handle input out provctx sys.heap
      (.provider provctx,
        { sys with heap, providers := (provctx.getD none).toList ++ sys.providers })
  | .teardown provctx =>
      (.done, { sys with
        heap := providerTeardown sys.heap provctx
        providers := sys.providers.filter fun p => some p ≠ provctx })
  | .newctx grants provctx =>
      let (ctx, heap) := cipherNewctx grants provctx sys.heap
      (.context ctx, { sys with
        heap
        contexts := (ctx.bind fun c => provctx.map fun p => (c, p)).toList ++ sys.contexts })
  | .freectx ctx =>
      (.done, { sys with
        heap := cipherFreectx sys.heap ctx
        contexts := sys.contexts.filter fun c => some c.1 ≠ ctx })
  | .operate a ans call =>
      match sys.heap.cell a with
      | some (.context ctx) =>
          let (event, state) := Cipher.step lib ctx.state ans call
          (.called event (event.raised.flatMap (raiseError ctx.handle ctx.callbacks)),
            { sys with heap := sys.heap.store a (.context { ctx with state }) })
      | _ => (.done, { sys with heap := sys.heap.misuse })

/-- The rules for the caller. -/
def Allowed (sys : System) : Request → Prop
  | .init .. | .teardown none | .newctx _ none | .freectx none => True
  | .teardown (some p) => p ∈ sys.providers ∧ ∀ c ∈ sys.contexts, c.2 ≠ p
  | .newctx _ (some p) => p ∈ sys.providers
  | .freectx (some a) | .operate a _ _ => a ∈ sys.contexts.map Prod.fst

instance decidableAllowed (sys : System) : (request : Request) → Decidable (sys.Allowed request)
  | .init .. | .teardown none | .newctx _ none | .freectx none => inferInstanceAs (Decidable True)
  | .teardown (some _) => inferInstanceAs (Decidable (_ ∧ _))
  | .newctx _ (some _) => inferInstanceAs (Decidable (_ ∈ _))
  | .freectx (some _) | .operate _ _ _ => inferInstanceAs (Decidable (_ ∈ _))

/-- One call that keeps to the rules. -/
def Step (lib : Param.Libcrypto) (sys : System) (ev : SystemEvent) (next : System) : Prop :=
  sys.Allowed ev.request ∧ sys.step lib ev.request = (ev.response, next)

/-- The calls on one context. -/
def callsOn (a : ℕ) (h : List SystemEvent) : List Event :=
  h.filterMap fun ev =>
    match ev.request, ev.response with
    | .operate b _ _, .called event _ => if b = a then some event else none
    | _, _ => none

/-- The handles that the caller holds, with what they own and where they stand. -/
structure Owned (lib : Param.Libcrypto) (h : List SystemEvent) (sys : System)
    (ps : List ProviderParts) (cs : List ContextParts) : Prop where
  providers_eq : sys.providers = ps.map ProviderParts.addr
  contexts_eq : sys.contexts = cs.map fun c => (c.addr, c.provider)
  providers_nodup : (ps.map ProviderParts.addr).Nodup
  contexts_nodup : (cs.map ContextParts.addr).Nodup
  holds : sys.heap.Holds (cs.flatMap ContextParts.owned ++ ps.flatMap ProviderParts.owned)
  of_provider : ∀ c ∈ cs, ∃ p ∈ ps, c.provider = p.addr ∧ c.inner.libctx = p.libctx ∧
    c.callbacks = p.callbacks
  complete : ∀ p ∈ ps, p.callbacks.complete = true
  run : ∀ c ∈ cs, Path (Cipher.Step lib) (Ctx.new encryptRecordLimit) (callsOn c.addr h) c.state
  unused : ∀ a, sys.heap.next ≤ a → callsOn a h = []

/-! ### Addresses -/

section
variable {heap : Heap Cell}

theorem evpCipherFree_next (p : Ptr) : (evpCipherFree heap p).next = heap.next := by
  unfold evpCipherFree
  split
  · rfl
  · split
    · split
      · exact Heap.free_next _ _ _
      · rfl
    · rfl

theorem evpFreectx_next (p : Ptr) : (evpFreectx heap p).next = heap.next := by
  unfold evpFreectx
  split
  · rfl
  · split
    · rw [Heap.free_next, evpCipherFree_next, Heap.free_next]
    · rfl

theorem cipherFreectx_next (p : Ptr) : (cipherFreectx heap p).next = heap.next := by
  unfold cipherFreectx
  split
  · rfl
  · split
    · rw [Heap.free_next, Heap.free_next, evpFreectx_next]
    · rfl

theorem providerTeardown_next (p : Ptr) : (providerTeardown heap p).next = heap.next := by
  unfold providerTeardown
  split
  · rfl
  · split
    · rw [Heap.free_next, Heap.free_next]
    · rfl

theorem evpNewctx_next_le (grants : InnerGrants) (libctx : Ptr) :
    heap.next ≤ (evpNewctx grants libctx heap).2.next := by
  obtain ⟨inner, cipher, cipherCtx⟩ := grants
  unfold evpNewctx evpCipherFetch
  cases inner with
  | false => exact Nat.le_refl _
  | true =>
      simp only [Heap.alloc_true]
      cases libctxAlive (heap.push (.inner ⟨none, none⟩)) libctx <;> cases cipher <;>
        cases cipherCtx <;> simp [evpCipherFree_next] <;> omega

theorem cipherNewctx_next_le (grants : ContextGrants) (provctx : Ptr) :
    heap.next ≤ (cipherNewctx grants provctx heap).2.next := by
  unfold cipherNewctx
  split
  · exact Nat.le_refl _
  split
  · split
    · exact Nat.le_refl _
    obtain ⟨ctx, usageLock, inner⟩ := grants
    cases ctx with
    | false => exact Nat.le_refl _
    | true =>
        simp only [Heap.alloc_true]
        generalize hstart : (heap.push _).store _ _ = start
        have hnext : start.next = heap.next + 1 := by rw [← hstart, Heap.store_next]; rfl
        have hlock := start.alloc_next_le usageLock .lock
        have hinner := @evpNewctx_next_le (start.alloc usageLock .lock).2 inner
        obtain ⟨lock, locked, hl⟩ : ∃ lock locked, start.alloc usageLock .lock = (lock, locked) :=
          ⟨_, _, rfl⟩
        rw [hl] at hlock hinner
        simp only [hl]
        rename_i provctx _ _
        obtain ⟨a, last, hr⟩ : ∃ a last, evpNewctx inner provctx.innerArg locked = (a, last) :=
          ⟨_, _, rfl⟩
        have hlast := hinner provctx.innerArg
        rw [hr] at hlast
        dsimp only at hlock hlast
        simp only [hr]
        split
        · simp only [Heap.free_next, evpFreectx_next, Heap.store_next]
          omega
        · simp only [Heap.store_next]
          omega
  · exact Nat.le_refl _

theorem providerInit_next_le (grants : ProviderGrants) (handle : Ptr)
    (input : Option (List Dispatch)) (out provctx : Bool) :
    heap.next ≤ (providerInit grants handle input out provctx heap).2.next := by
  unfold providerInit
  split
  · exact Nat.le_refl _
  split
  · exact Nat.le_refl _
  obtain ⟨ctx, childLibctx⟩ := grants
  cases ctx with
  | false => exact Nat.le_refl _
  | true =>
      simp only [Heap.alloc_true]
      split
      · simp
      · cases childLibctx
        · simp
        · simp only [Heap.alloc_true, Heap.store_next, Heap.push_next]
          omega

end

/-- An element of a list goes to its front. -/
theorem perm_cons_filter {α : Type} {f : α → ℕ} {l : List α} (hn : (l.map f).Nodup) {a : α}
    (ha : a ∈ l) : l.Perm (a :: l.filter fun b => f b ≠ f a) := by
  induction l with
  | nil => cases ha
  | cons b l ih =>
      rw [List.map_cons, List.nodup_cons] at hn
      obtain ⟨hb, hn⟩ := hn
      rcases List.mem_cons.mp ha with rfl | ha
      · have hrest : l.filter (fun b => f b ≠ f a) = l := by
          apply List.filter_eq_self.mpr
          intro c hc
          have hne : f c ≠ f a := fun heq => hb (heq ▸ List.mem_map.mpr ⟨c, hc, rfl⟩)
          simp [hne]
        rw [List.filter_cons_of_neg (by simp), hrest]
      · have hne : f b ≠ f a := fun heq => hb (heq ▸ List.mem_map.mpr ⟨a, ha, rfl⟩)
        rw [List.filter_cons_of_pos (by simp [hne])]
        exact ((ih hn ha).cons b).trans (List.Perm.swap a b _)

section
variable {lib : Param.Libcrypto} {h : List SystemEvent} {sys next : System} {ev : SystemEvent}
variable {ps : List ProviderParts} {cs : List ContextParts}

theorem owned_empty (lib : Param.Libcrypto) : Owned lib [] empty [] [] where
  providers_eq := rfl
  contexts_eq := rfl
  providers_nodup := List.nodup_nil
  contexts_nodup := List.nodup_nil
  holds := Heap.holds_empty
  of_provider := by simp
  complete := by simp
  run := by simp
  unused := fun _ _ => rfl

/-- A call that is on no context leaves the histories of all contexts as they are. -/
theorem callsOn_snoc_of_ne (hne : ∀ a ans call, ev.request ≠ .operate a ans call) (a : ℕ) :
    callsOn a (h ++ [ev]) = callsOn a h := by
  obtain ⟨request, response⟩ := ev
  unfold callsOn
  rw [List.filterMap_append]
  cases request with
  | operate a ans call => exact absurd rfl (hne a ans call)
  | _ => simp

theorem callsOn_snoc_operate (a b : ℕ) (ans : Answers) (call : Call) (event : Event)
    (core : List CoreCall) :
    callsOn a (h ++ [⟨.operate b ans call, .called event core⟩]) =
      callsOn a h ++ if b = a then [event] else [] := by
  unfold callsOn
  rw [List.filterMap_append]
  by_cases hb : b = a <;> simp [hb]

/-- A held context and what it owns come first. -/
theorem Owned.context (ho : Owned lib h sys ps cs) {c : ContextParts} (hc : c ∈ cs) :
    sys.heap.Holds (c.owned ++ ((cs.filter fun d => d.addr ≠ c.addr).flatMap ContextParts.owned ++
      ps.flatMap ProviderParts.owned)) := by
  have hperm := (perm_cons_filter ho.contexts_nodup hc).flatMap_right ContextParts.owned
  rw [← List.append_assoc]
  exact ho.holds.perm (hperm.append_right _)

theorem Owned.cell_eq (ho : Owned lib h sys ps cs) {c : ContextParts} (hc : c ∈ cs) :
    sys.heap.cell c.addr = some (.context c.cell) :=
  ((ho.context hc).mem_iff c.addr _).mpr (by simp [ContextParts.owned])

theorem Owned.provider (ho : Owned lib h sys ps cs) {p : ProviderParts} (hp : p ∈ ps) :
    sys.heap.Holds (p.owned ++ (cs.flatMap ContextParts.owned ++
      (ps.filter fun q => q.addr ≠ p.addr).flatMap ProviderParts.owned)) := by
  have hperm := (perm_cons_filter ho.providers_nodup hp).flatMap_right ProviderParts.owned
  exact (ho.holds.perm (hperm.append_left _)).perm (List.perm_append_comm_assoc _ _ _)

/-- The library context of a held context is its provider's. -/
theorem Owned.libctx_mem (ho : Owned lib h sys ps cs) {c : ContextParts} (hc : c ∈ cs) :
    (c.inner.libctx, Cell.libctx) ∈ ps.flatMap ProviderParts.owned := by
  obtain ⟨p, hp, -, hlib, -⟩ := ho.of_provider c hc
  rw [hlib]
  exact List.mem_flatMap.mpr ⟨p, hp, by simp [ProviderParts.owned]⟩

theorem Owned.addr_lt (ho : Owned lib h sys ps cs) {c : ContextParts} (hc : c ∈ cs) :
    c.addr < sys.heap.next := by
  refine @Heap.Holds.lt_next _ _ _ c.addr (.context c.cell) ho.holds ?_
  refine List.mem_append_left _ (List.mem_flatMap.mpr ⟨c, hc, ?_⟩)
  simp [ContextParts.owned]

theorem Owned.provider_lt (ho : Owned lib h sys ps cs) {p : ProviderParts} (hp : p ∈ ps) :
    p.addr < sys.heap.next := by
  refine @Heap.Holds.lt_next _ _ _ p.addr (.provider p.cell) ho.holds ?_
  refine List.mem_append_right _ (List.mem_flatMap.mpr ⟨p, hp, ?_⟩)
  simp [ProviderParts.owned]

/-- What a call that is on no context keeps, apart from what it makes or gives back. -/
theorem Owned.quiet (ho : Owned lib h sys ps cs)
    (hne : ∀ a ans call, ev.request ≠ .operate a ans call)
    (hproviders : next.providers = sys.providers) (hcontexts : next.contexts = sys.contexts)
    (hnext : sys.heap.next ≤ next.heap.next)
    (hholds : next.heap.Holds (cs.flatMap ContextParts.owned ++ ps.flatMap ProviderParts.owned)) :
    Owned lib (h ++ [ev]) next ps cs where
  providers_eq := hproviders.trans ho.providers_eq
  contexts_eq := hcontexts.trans ho.contexts_eq
  providers_nodup := ho.providers_nodup
  contexts_nodup := ho.contexts_nodup
  holds := hholds
  of_provider := ho.of_provider
  complete := ho.complete
  run c hc := by
    rw [callsOn_snoc_of_ne hne]
    exact ho.run c hc
  unused a ha := by
    rw [callsOn_snoc_of_ne hne]
    exact ho.unused a (hnext.trans ha)

theorem Owned.init (ho : Owned lib h sys ps cs) {grants : ProviderGrants} {handle : Ptr}
    {input : Option (List Dispatch)} {out provctx : Bool}
    (hreq : ev.request = .init grants handle input out provctx)
    (hstep : sys.step lib ev.request = (ev.response, next)) :
    ∃ ps', Owned lib (h ++ [ev]) next ps' cs := by
  have hne : ∀ a ans call, ev.request ≠ .operate a ans call := by simp [hreq]
  have hnext := @providerInit_next_le sys.heap grants handle input out provctx
  rw [hreq] at hstep
  obtain rfl := (congrArg Prod.snd hstep).symm
  obtain ⟨-, p, hnew, hresult, hholds⟩ | ⟨-, hresult, hholds⟩ :=
    providerInit_spec ho.holds grants handle input out provctx
  · have hfresh : p.addr ∉ ps.map ProviderParts.addr := by
      intro hmem
      obtain ⟨q, hq, heq⟩ := List.mem_map.mp hmem
      have hlt := ho.provider_lt hq
      rw [heq, hnew.addr_eq] at hlt
      exact absurd hlt (Nat.lt_irrefl _)
    refine ⟨p :: ps, ?_, ho.contexts_eq, ?_, ho.contexts_nodup, ?_, ?_, ?_, ?_, ?_⟩
    · simp only [step, hresult, Option.getD_some, Option.toList_some, ho.providers_eq]
      rfl
    · rw [List.map_cons, List.nodup_cons]
      exact ⟨hfresh, ho.providers_nodup⟩
    · rw [List.flatMap_cons]
      exact hholds.perm (List.perm_append_comm_assoc _ _ _)
    · intro c hc
      obtain ⟨q, hq, hof⟩ := ho.of_provider c hc
      exact ⟨q, List.mem_cons_of_mem _ hq, hof⟩
    · intro q hq
      rcases List.mem_cons.mp hq with rfl | hq
      · exact hnew.complete
      · exact ho.complete q hq
    · intro c hc
      rw [callsOn_snoc_of_ne hne]
      exact ho.run c hc
    · intro a ha
      rw [callsOn_snoc_of_ne hne]
      exact ho.unused a (hnext.trans ha)
  · refine ⟨ps, ho.quiet hne ?_ rfl hnext hholds⟩
    simp only [step, hresult, Option.toList_none, List.nil_append]

theorem Owned.teardown (ho : Owned lib h sys ps cs) {provctx : Ptr}
    (hreq : ev.request = .teardown provctx) (hallowed : sys.Allowed ev.request)
    (hstep : sys.step lib ev.request = (ev.response, next)) :
    ∃ ps', Owned lib (h ++ [ev]) next ps' cs := by
  have hne : ∀ a ans call, ev.request ≠ .operate a ans call := by simp [hreq]
  have hnext := @providerTeardown_next sys.heap provctx
  rw [hreq] at hstep hallowed
  obtain rfl := (congrArg Prod.snd hstep).symm
  cases provctx with
  | none => exact ⟨ps, ho.quiet hne (by simp [step]) rfl (Nat.le_refl _) ho.holds⟩
  | some a =>
      obtain ⟨hmem, hnone⟩ : a ∈ sys.providers ∧ ∀ c ∈ sys.contexts, c.2 ≠ a := hallowed
      rw [ho.providers_eq] at hmem
      obtain ⟨p, hp, rfl⟩ := List.mem_map.mp hmem
      have hholds := providerTeardown_holds (ho.provider hp)
      refine ⟨ps.filter fun q => q.addr ≠ p.addr, ?_, ho.contexts_eq, ?_, ho.contexts_nodup, hholds,
        ?_, ?_, ?_, ?_⟩
      · simp only [step, ho.providers_eq, List.filter_map]
        congr 1
        apply List.filter_congr
        simp
      · exact ho.providers_nodup.sublist (List.filter_sublist.map _)
      · intro c hc
        obtain ⟨q, hq, hprovider, hof⟩ := ho.of_provider c hc
        refine ⟨q, List.mem_filter.mpr ⟨hq, ?_⟩, hprovider, hof⟩
        have hother := hnone (c.addr, c.provider) (by
          rw [ho.contexts_eq]
          exact List.mem_map.mpr ⟨c, hc, rfl⟩)
        rw [hprovider] at hother
        simpa using hother
      · intro q hq
        exact ho.complete q (List.mem_filter.mp hq).1
      · intro c hc
        rw [callsOn_snoc_of_ne hne]
        exact ho.run c hc
      · intro b hb
        rw [callsOn_snoc_of_ne hne]
        exact ho.unused b (hnext ▸ hb)

theorem Owned.newctx (ho : Owned lib h sys ps cs) {grants : ContextGrants} {provctx : Ptr}
    (hreq : ev.request = .newctx grants provctx) (hallowed : sys.Allowed ev.request)
    (hstep : sys.step lib ev.request = (ev.response, next)) :
    ∃ cs', Owned lib (h ++ [ev]) next ps cs' := by
  have hne : ∀ a ans call, ev.request ≠ .operate a ans call := by simp [hreq]
  have hnext := @cipherNewctx_next_le sys.heap grants provctx
  rw [hreq] at hstep hallowed
  obtain rfl := (congrArg Prod.snd hstep).symm
  cases provctx with
  | none => exact ⟨cs, ho.quiet hne rfl rfl (Nat.le_refl _) ho.holds⟩
  | some a =>
      have hmem : a ∈ sys.providers := hallowed
      rw [ho.providers_eq] at hmem
      obtain ⟨p, hp, rfl⟩ := List.mem_map.mp hmem
      have hblocks : ∀ b ∈ p.owned,
          b ∈ cs.flatMap ContextParts.owned ++ ps.flatMap ProviderParts.owned := fun b hb =>
        List.mem_append_right _ (List.mem_flatMap.mpr ⟨p, hp, hb⟩)
      obtain ⟨-, c, hnew, hresult, hholds⟩ | ⟨-, hresult, hholds⟩ :=
        cipherNewctx_spec ho.holds hblocks grants
      · have hfresh : c.addr ∉ cs.map ContextParts.addr := by
          intro hmem
          obtain ⟨d, hd, heq⟩ := List.mem_map.mp hmem
          have hlt := ho.addr_lt hd
          rw [heq, hnew.addr_eq] at hlt
          exact absurd hlt (Nat.lt_irrefl _)
        refine ⟨c :: cs, ho.providers_eq, ?_, ho.providers_nodup, ?_, ?_, ?_, ho.complete, ?_, ?_⟩
        · simp only [step, hresult, ho.contexts_eq, List.map_cons, hnew.provider_eq]
          rfl
        · rw [List.map_cons, List.nodup_cons]
          exact ⟨hfresh, ho.contexts_nodup⟩
        · rw [List.flatMap_cons, List.append_assoc]
          exact hholds
        · intro d hd
          rcases List.mem_cons.mp hd with rfl | hd
          · exact ⟨p, hp, hnew.provider_eq, hnew.libctx_eq, hnew.callbacks_eq⟩
          · exact ho.of_provider d hd
        · intro d hd
          rw [callsOn_snoc_of_ne hne]
          rcases List.mem_cons.mp hd with rfl | hd
          · -- no call was ever made on an address that was not handed out yet
            rw [ho.unused d.addr (Nat.le_of_eq hnew.addr_eq.symm), hnew.state_eq]
            exact .nil
          · exact ho.run d hd
        · intro b hb
          rw [callsOn_snoc_of_ne hne]
          exact ho.unused b (hnext.trans hb)
      · refine ⟨cs, ho.quiet hne rfl ?_ hnext hholds⟩
        simp only [step, hresult, Option.bind_none, Option.toList_none, List.nil_append]

theorem Owned.freectx (ho : Owned lib h sys ps cs) {ctx : Ptr}
    (hreq : ev.request = .freectx ctx) (hallowed : sys.Allowed ev.request)
    (hstep : sys.step lib ev.request = (ev.response, next)) :
    ∃ cs', Owned lib (h ++ [ev]) next ps cs' := by
  have hne : ∀ a ans call, ev.request ≠ .operate a ans call := by simp [hreq]
  have hnext := @cipherFreectx_next sys.heap ctx
  rw [hreq] at hstep hallowed
  obtain rfl := (congrArg Prod.snd hstep).symm
  cases ctx with
  | none => exact ⟨cs, ho.quiet hne rfl (by simp [step]) (Nat.le_refl _) ho.holds⟩
  | some a =>
      have hmem : a ∈ sys.contexts.map Prod.fst := hallowed
      rw [ho.contexts_eq, List.map_map] at hmem
      obtain ⟨c, hc, rfl⟩ := List.mem_map.mp hmem
      have hholds := cipherFreectx_holds (ho.context hc)
        (List.mem_append_right _ (ho.libctx_mem hc))
      refine ⟨cs.filter fun d => d.addr ≠ c.addr, ho.providers_eq, ?_, ho.providers_nodup, ?_,
        hholds, ?_, ho.complete, ?_, ?_⟩
      · simp only [step, ho.contexts_eq, List.filter_map]
        congr 1
        apply List.filter_congr
        simp
      · exact ho.contexts_nodup.sublist (List.filter_sublist.map _)
      · intro d hd
        exact ho.of_provider d (List.mem_filter.mp hd).1
      · intro d hd
        rw [callsOn_snoc_of_ne hne]
        exact ho.run d (List.mem_filter.mp hd).1
      · intro b hb
        rw [callsOn_snoc_of_ne hne]
        exact ho.unused b (hnext ▸ hb)

/-- The call moved the context at its address to the state `state`. -/
def moved (a : ℕ) (state : Ctx) (d : ContextParts) : ContextParts :=
  if d.addr = a then { d with state } else d

theorem moved_frame (a : ℕ) (state : Ctx) (d : ContextParts) :
    (moved a state d).addr = d.addr ∧ (moved a state d).provider = d.provider ∧
      (moved a state d).inner = d.inner ∧ (moved a state d).callbacks = d.callbacks := by
  unfold moved
  split <;> exact ⟨rfl, rfl, rfl, rfl⟩

theorem moved_map_addr (a : ℕ) (state : Ctx) (cs : List ContextParts) :
    (cs.map (moved a state)).map ContextParts.addr = cs.map ContextParts.addr := by
  rw [List.map_map]
  exact List.map_congr_left fun d _ => (moved_frame a state d).1

/-- The blocks of the contexts after a call on one of them. -/
theorem moved_perm (hn : (cs.map ContextParts.addr).Nodup) {c : ContextParts} (hc : c ∈ cs)
    (state : Ctx) : (cs.map (moved c.addr state)).Perm
      ({ c with state } :: cs.filter fun d => d.addr ≠ c.addr) := by
  have hperm := (perm_cons_filter hn hc).map (moved c.addr state)
  have hself : moved c.addr state c = { c with state } := if_pos rfl
  have hrest : (cs.filter fun d => d.addr ≠ c.addr).map (moved c.addr state) =
      cs.filter fun d => d.addr ≠ c.addr := by
    conv_rhs => rw [← List.map_id (cs.filter fun d => d.addr ≠ c.addr)]
    refine List.map_congr_left fun d hd => ?_
    have hne : d.addr ≠ c.addr := by simpa using (List.mem_filter.mp hd).2
    exact if_neg hne
  rwa [List.map_cons, hself, hrest] at hperm

/-- A call on a held context: what it returns and where it leads. -/
theorem Owned.operate_eq (ho : Owned lib h sys ps cs) {c : ContextParts} (hc : c ∈ cs)
    (ans : Answers) (call : Call) :
    sys.step lib (.operate c.addr ans call) =
      (.called (Cipher.step lib c.state ans call).1
          ((Cipher.step lib c.state ans call).1.raised.flatMap (raiseError c.handle c.callbacks)),
        { sys with heap := sys.heap.store c.addr (.context
          ({ c with state := (Cipher.step lib c.state ans call).2 } : ContextParts).cell) }) := by
  have hcell := ho.cell_eq hc
  unfold step
  simp only [hcell]
  rfl

theorem Owned.operate (ho : Owned lib h sys ps cs) {a : ℕ} {ans : Answers} {call : Call}
    (hreq : ev.request = .operate a ans call) (hallowed : sys.Allowed ev.request)
    (hstep : sys.step lib ev.request = (ev.response, next)) :
    ∃ cs', Owned lib (h ++ [ev]) next ps cs' := by
  rw [hreq] at hstep hallowed
  have hheld : a ∈ sys.contexts.map Prod.fst := hallowed
  rw [ho.contexts_eq, List.map_map] at hheld
  obtain ⟨c, hc, rfl⟩ := List.mem_map.mp hheld
  change sys.step lib (.operate c.addr ans call) = _ at hstep
  rw [ho.operate_eq hc] at hstep
  obtain ⟨request, response⟩ := ev
  obtain rfl : request = .operate c.addr ans call := hreq
  obtain ⟨rfl, rfl⟩ := Prod.mk.inj hstep
  have hlast : Cipher.Step lib c.state (Cipher.step lib c.state ans call).1
      (Cipher.step lib c.state ans call).2 := Cipher.step_self lib c.state ans call
  generalize (Cipher.step lib c.state ans call).1 = event at hlast ⊢
  generalize (Cipher.step lib c.state ans call).2 = state at hlast ⊢
  refine ⟨cs.map (moved c.addr state), ho.providers_eq, ?_, ho.providers_nodup, ?_, ?_, ?_,
    ho.complete, ?_, ?_⟩
  · show sys.contexts = _
    rw [ho.contexts_eq, List.map_map]
    refine List.map_congr_left fun d _ => ?_
    obtain ⟨haddr, hprovider, -⟩ := moved_frame c.addr state d
    simp only [Function.comp_apply, haddr, hprovider]
  · rw [moved_map_addr]
    exact ho.contexts_nodup
  · have hcontext := ho.context hc
    rw [c.owned_append] at hcontext
    have hstored := hcontext.store _ (.context ({ c with state } : ContextParts).cell)
    have hperm := (moved_perm ho.contexts_nodup hc state).flatMap_right ContextParts.owned
    have hall := (hperm.append_right (ps.flatMap ProviderParts.owned)).symm
    rw [List.flatMap_cons, List.append_assoc, ContextParts.owned_append] at hall
    exact hstored.perm hall
  · intro d hd
    obtain ⟨d, hmem, rfl⟩ := List.mem_map.mp hd
    obtain ⟨-, hprovider, hinner, hcallbacks⟩ := moved_frame c.addr state d
    rw [hprovider, hinner, hcallbacks]
    exact ho.of_provider d hmem
  · intro d hd
    obtain ⟨d, hmem, rfl⟩ := List.mem_map.mp hd
    rw [(moved_frame c.addr state d).1, callsOn_snoc_operate]
    by_cases haddr : d.addr = c.addr
    · obtain rfl := List.inj_on_of_nodup_map ho.contexts_nodup hmem hc haddr
      rw [if_pos rfl, moved, if_pos rfl]
      exact (ho.run d hmem).snoc hlast
    · rw [if_neg (Ne.symm haddr), List.append_nil, moved, if_neg haddr]
      exact ho.run d hmem
  · intro b hb
    have hb' : sys.heap.next ≤ b := by
      rw [← Heap.store_next sys.heap c.addr (.context ({ c with state } : ContextParts).cell)]
      exact hb
    have hlt := ho.addr_lt hc
    rw [callsOn_snoc_operate, if_neg (by omega), List.append_nil]
    exact ho.unused b hb'

/-- **Ownership**, in every run. -/
theorem exists_owned (run : Path (Step lib) empty h sys) : ∃ ps cs, Owned lib h sys ps cs := by
  refine run.invariant (P := fun h sys => ∃ ps cs, Owned lib h sys ps cs)
    ⟨[], [], owned_empty lib⟩ ?_
  rintro h sys ev next - ⟨ps, cs, ho⟩ ⟨hallowed, hstep⟩
  cases hreq : ev.request with
  | init grants handle input out provctx =>
      obtain ⟨ps', ho'⟩ := ho.init hreq hstep
      exact ⟨ps', cs, ho'⟩
  | teardown provctx =>
      obtain ⟨ps', ho'⟩ := ho.teardown hreq hallowed hstep
      exact ⟨ps', cs, ho'⟩
  | newctx grants provctx =>
      obtain ⟨cs', ho'⟩ := ho.newctx hreq hallowed hstep
      exact ⟨ps, cs', ho'⟩
  | freectx ctx =>
      obtain ⟨cs', ho'⟩ := ho.freectx hreq hallowed hstep
      exact ⟨ps, cs', ho'⟩
  | operate a ans call =>
      obtain ⟨cs', ho'⟩ := ho.operate hreq hallowed hstep
      exact ⟨ps, cs', ho'⟩

/-! ### Memory -/

/-- **All or nothing.**  `OSSL_provider_init` and `newctx` make a new handle exactly if all that
they need is granted; otherwise the caller is given none, and the heap is as it was before. -/
theorem all_or_nothing (run : Path (Step lib) empty h sys) (hs : Step lib sys ev next) :
    (∀ grants handle input out provctx, ev.request = .init grants handle input out provctx →
      if initAccepted grants input out provctx then
        ∃ p, ev.response = .provider (some (some p)) ∧ next.providers = p :: sys.providers ∧
          p ∉ sys.providers
      else (∃ r, ev.response = .provider r ∧ r.getD none = none) ∧
        next.heap.cell = sys.heap.cell ∧ next.providers = sys.providers) ∧
    (∀ grants p, ev.request = .newctx grants (some p) →
      if grants.all then
        ∃ c, ev.response = .context (some c) ∧ next.contexts = (c, p) :: sys.contexts ∧
          c ∉ sys.contexts.map Prod.fst
      else ev.response = .context none ∧ next.heap.cell = sys.heap.cell ∧
        next.contexts = sys.contexts) := by
  obtain ⟨ps, cs, ho⟩ := exists_owned run
  obtain ⟨hallowed, hstep⟩ := hs
  constructor
  · intro grants handle input out provctx hreq
    rw [hreq] at hstep
    obtain rfl := (congrArg Prod.snd hstep).symm
    have hresponse : ev.response = (sys.step lib (.init grants handle input out provctx)).1 :=
      (congrArg Prod.fst hstep).symm
    obtain ⟨haccepted, p, hnew, hresult, -⟩ | ⟨hrefused, hresult, hholds⟩ :=
      providerInit_spec ho.holds grants handle input out provctx
    · rw [if_pos haccepted]
      refine ⟨p.addr, ?_, ?_, ?_⟩
      · rw [hresponse]
        exact congrArg Response.provider hresult
      · simp only [step, hresult, Option.getD_some, Option.toList_some]
        rfl
      · rw [ho.providers_eq]
        intro hmem
        obtain ⟨q, hq, heq⟩ := List.mem_map.mp hmem
        have hlt := ho.provider_lt hq
        rw [heq, hnew.addr_eq] at hlt
        exact absurd hlt (Nat.lt_irrefl _)
    · rw [if_neg (by simp [hrefused])]
      refine ⟨⟨_, hresponse, hresult⟩, hholds.cell_eq ho.holds, ?_⟩
      simp only [step, hresult, Option.toList_none, List.nil_append]
  · intro grants p hreq
    rw [hreq] at hstep hallowed
    obtain rfl := (congrArg Prod.snd hstep).symm
    have hresponse : ev.response = (sys.step lib (.newctx grants (some p))).1 :=
      (congrArg Prod.fst hstep).symm
    have hmem : p ∈ sys.providers := hallowed
    rw [ho.providers_eq] at hmem
    obtain ⟨p, hp, rfl⟩ := List.mem_map.mp hmem
    have hblocks : ∀ b ∈ p.owned,
        b ∈ cs.flatMap ContextParts.owned ++ ps.flatMap ProviderParts.owned := fun b hb =>
      List.mem_append_right _ (List.mem_flatMap.mpr ⟨p, hp, hb⟩)
    obtain ⟨hall, c, hnew, hresult, -⟩ | ⟨hall, hresult, hholds⟩ :=
      cipherNewctx_spec ho.holds hblocks grants
    · rw [if_pos hall]
      refine ⟨c.addr, ?_, ?_, ?_⟩
      · rw [hresponse]
        exact congrArg Response.context hresult
      · simp only [step, hresult]
        rfl
      · rw [ho.contexts_eq, List.map_map]
        intro hmem
        obtain ⟨d, hd, heq⟩ := List.mem_map.mp hmem
        have hlt := ho.addr_lt hd
        have haddr : d.addr = c.addr := heq
        rw [haddr, hnew.addr_eq] at hlt
        exact absurd hlt (Nat.lt_irrefl _)
    · rw [if_neg (by simp [hall])]
      refine ⟨?_, hholds.cell_eq ho.holds, ?_⟩
      · rw [hresponse]
        exact congrArg Response.context hresult
      · simp only [step, hresult, Option.bind_none, Option.toList_none, List.nil_append]

/-! ### The calls on a context -/

end

/-! ### Executing the provider -/

def move (lib : Param.Libcrypto) (sys : System) (request : Request) : Option (SystemEvent × System) :=
  if sys.Allowed request then
    let r := sys.step lib request
    some (⟨request, r.1⟩, r.2)
  else none

theorem step_move (lib : Param.Libcrypto) (sys : System) (request : Request)
    (r : SystemEvent × System) (h : sys.move lib request = some r) : Step lib sys r.1 r.2 := by
  unfold move at h
  split at h
  · rename_i hallowed
    obtain rfl := Option.some.inj h
    exact ⟨hallowed, rfl⟩
  · cases h

/-- The core's error functions, among others. -/
def coreTable : List Dispatch :=
  [⟨.other 1, some 10⟩, ⟨.newError, some 11⟩, ⟨.setErrorDebug, some 12⟩, ⟨.vsetError, some 13⟩]

/-- A provider, a context that is refused its cipher, one that is made and used, and all of it given
back. -/
def lifecycle : List Request :=
  [.init ⟨true, true⟩ (some 7) (some coreTable) true true,
    .newctx ⟨true, true, ⟨true, false, true⟩⟩ (some 0),
    .newctx ⟨true, true, ⟨true, true, true⟩⟩ (some 0),
    .operate 6 (compliant 0) (.init true keyA (.null 0) none),
    .operate 6 (compliant 0) (.final true)]

/-- A context whose cipher is refused leaves the provider's two blocks as they were. -/
theorem all_or_nothing_lifecycle :
    let r := (exec? (move littleEndian) empty (lifecycle.take 1)).get (by decide +kernel)
    let next := r.2.step littleEndian (.newctx ⟨true, true, ⟨true, false, true⟩⟩ (some 0))
    next.1 = .context none ∧ next.2.heap.cell = r.2.heap.cell ∧ next.2.contexts = r.2.contexts := by
  intro r next
  have run : Path (Step littleEndian) empty r.1 r.2 :=
    path_exec? (step_move littleEndian) (Option.some_get _).symm
  have hs : Step littleEndian r.2
      ⟨.newctx ⟨true, true, ⟨true, false, true⟩⟩ (some 0), next.1⟩ next.2 :=
    ⟨by decide +kernel, rfl⟩
  exact (all_or_nothing run hs).2 _ 0 rfl

end System

end G301.Outer
