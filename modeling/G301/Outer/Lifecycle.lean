import G301.Lib.Heap
import G301.Lib.Path
import G301.Outer.CipherSpec

/-! # Providers, contexts and their memory

What `g301_provider.c`, `g301_cipher.c` and `g301_inner_evp.c` allocate and free:
`OSSL_provider_init` and the teardown, `newctx` and `freectx` of a cipher context and of the EVP
context inside it.  Every allocation may be refused.  A `System` is the heap with the handles that
the caller holds; in one step it makes, uses or gives back one of them, under the rules of the
dispatch table (`System.Allowed`).

`System.exists_owned` (in `System`) is the invariant of all runs: the heap holds the five blocks of
every context and the two of every provider that the caller holds, and no others. -/

namespace G301.Outer

open Lts Memory

/-! ### What the blocks hold -/

/-- The functions of the core's dispatch table that the provider looks for. -/
inductive CoreFunction where
  | newError
  | setErrorDebug
  | vsetError
  | other (id : ℕ)
deriving DecidableEq, Repr

/-- An entry of the core's dispatch table. -/
structure Dispatch where
  functionId : CoreFunction
  function : Ptr
deriving DecidableEq, Repr

structure Callbacks where
  coreNewError : Ptr
  coreSetErrorDebug : Ptr
  coreVsetError : Ptr
deriving DecidableEq, Repr

namespace Callbacks

def zero : Callbacks := ⟨none, none, none⟩

/-- One entry of the table; a later entry replaces an earlier one. -/
def read (callbacks : Callbacks) (entry : Dispatch) : Callbacks :=
  match entry.functionId with
  | .newError => { callbacks with coreNewError := entry.function }
  | .setErrorDebug => { callbacks with coreSetErrorDebug := entry.function }
  | .vsetError => { callbacks with coreVsetError := entry.function }
  | .other _ => callbacks

/-- All three are given. -/
def complete (callbacks : Callbacks) : Bool :=
  callbacks.coreNewError.isSome && callbacks.coreSetErrorDebug.isSome &&
    callbacks.coreVsetError.isSome

end Callbacks

/-- A call of the provider into the core. -/
inductive CoreCall where
  | newError (function : ℕ) (handle : Ptr)
  | setErrorDebug (function : ℕ) (handle : Ptr)
  | vsetError (function : ℕ) (handle : Ptr) (reason : Reason)
deriving DecidableEq, Repr

/-- `g301_raise_error`: nothing unless all three callbacks are there. -/
def raiseError (handle : Ptr) (callbacks : Callbacks) (reason : Reason) : List CoreCall :=
  match callbacks.coreNewError, callbacks.coreSetErrorDebug, callbacks.coreVsetError with
  | some newError, some setErrorDebug, some vsetError =>
      [.newError newError handle, .setErrorDebug setErrorDebug handle,
        .vsetError vsetError handle reason]
  | _, _, _ => []

structure ProviderCtx where
  childLibctx : Ptr
  innerOps : Bool
  innerArg : Ptr
  handle : Ptr
  callbacks : Callbacks
deriving DecidableEq, Repr

/-- The context with its resources; `state` are the fields that the calls work on. -/
structure CipherCtx where
  ops : Bool
  inner : Ptr
  handle : Ptr
  callbacks : Callbacks
  usageLock : Ptr
  state : Ctx
deriving DecidableEq, Repr

structure EvpInnerCtx where
  cipher : Ptr
  cipherCtx : Ptr
deriving DecidableEq, Repr

/-- What an address holds. -/
inductive Cell where
  | libctx
  | provider (ctx : ProviderCtx)
  | context (ctx : CipherCtx)
  | lock
  | inner (ctx : EvpInnerCtx)
  | evpCipher (libctx : Ptr)
  | evpCipherCtx
deriving DecidableEq, Repr

namespace Cell

def isLibctx : Cell → Bool
  | libctx => true
  | _ => false

def isProvider : Cell → Bool
  | provider _ => true
  | _ => false

def isContext : Cell → Bool
  | context _ => true
  | _ => false

def isLock : Cell → Bool
  | lock => true
  | _ => false

def isInner : Cell → Bool
  | inner _ => true
  | _ => false

def isEvpCipher : Cell → Bool
  | evpCipher _ => true
  | _ => false

def isEvpCipherCtx : Cell → Bool
  | evpCipherCtx => true
  | _ => false

end Cell

/-! ### The EVP context -/

/-- The library context is there; `NULL` is the default one. -/
def libctxAlive (heap : Heap Cell) (libctx : Ptr) : Bool :=
  libctx.all fun l => (heap.cell l).any Cell.isLibctx

/-- `EVP_CIPHER_fetch`. -/
def evpCipherFetch (granted : Bool) (libctx : Ptr) (heap : Heap Cell) : Ptr × Heap Cell :=
  if libctxAlive heap libctx then heap.alloc granted (.evpCipher libctx) else (none, heap.misuse)

/-- `EVP_CIPHER_free`: the cipher goes back to the library context it came from. -/
def evpCipherFree (heap : Heap Cell) : Ptr → Heap Cell
  | none => heap
  | some a =>
      match heap.cell a with
      | some (.evpCipher libctx) =>
          if libctxAlive heap libctx then heap.free Cell.isEvpCipher (some a) else heap.misuse
      | _ => heap.misuse

/-- Which allocations of `g301_evp_newctx` are granted. -/
structure InnerGrants where
  inner : Bool
  cipher : Bool
  cipherCtx : Bool
deriving DecidableEq, Repr

/-- `g301_evp_newctx` -/
def evpNewctx (grants : InnerGrants) (libctx : Ptr) (heap : Heap Cell) : Ptr × Heap Cell :=
  match heap.alloc grants.inner (.inner ⟨none, none⟩) with
  | (none, heap) => (none, heap)
  | (some inner, heap) =>
      let (cipher, heap) := evpCipherFetch grants.cipher libctx heap
      let heap := heap.store inner (.inner ⟨cipher, none⟩)
      let (cipherCtx, heap) := heap.alloc grants.cipherCtx .evpCipherCtx
      let heap := heap.store inner (.inner ⟨cipher, cipherCtx⟩)
      if cipher.isNone || cipherCtx.isNone then
        let heap := heap.free Cell.isEvpCipherCtx cipherCtx
        let heap := evpCipherFree heap cipher
        (none, heap.free Cell.isInner (some inner))
      else (some inner, heap)

/-- `g301_evp_freectx` -/
def evpFreectx (heap : Heap Cell) : Ptr → Heap Cell
  | none => heap
  | some a =>
      match heap.cell a with
      | some (.inner inner) =>
          let heap := heap.free Cell.isEvpCipherCtx inner.cipherCtx
          let heap := evpCipherFree heap inner.cipher
          heap.free Cell.isInner (some a)
      | _ => heap.misuse

/-! ### The cipher context -/

/-- Which allocations of `g301_cipher_newctx` are granted. -/
structure ContextGrants where
  ctx : Bool
  usageLock : Bool
  inner : InnerGrants
deriving DecidableEq, Repr

/-- `g301_cipher_newctx` -/
def cipherNewctx (grants : ContextGrants) (provctx : Ptr) (heap : Heap Cell) : Ptr × Heap Cell :=
  match provctx with
  | none => (none, heap)
  | some p =>
      match heap.cell p with
      | some (.provider provctx) =>
          if !provctx.innerOps then (none, heap)
          else
            match heap.alloc grants.ctx
              (.context ⟨false, none, none, Callbacks.zero, none, Ctx.new 0⟩) with
            | (none, heap) => (none, heap)
            | (some a, heap) =>
                let ctx : CipherCtx := ⟨true, none, provctx.handle, provctx.callbacks, none,
                  Ctx.new encryptRecordLimit⟩
                let heap := heap.store a (.context ctx)
                let (usageLock, heap) := heap.alloc grants.usageLock .lock
                let (inner, heap) := evpNewctx grants.inner provctx.innerArg heap
                let heap := heap.store a (.context { ctx with usageLock, inner })
                if usageLock.isNone || inner.isNone then
                  let heap := evpFreectx heap inner
                  let heap := heap.free Cell.isLock usageLock
                  (none, heap.free Cell.isContext (some a))
                else (some a, heap)
      | _ => (none, heap.misuse)

/-- `g301_cipher_freectx` -/
def cipherFreectx (heap : Heap Cell) : Ptr → Heap Cell
  | none => heap
  | some a =>
      match heap.cell a with
      | some (.context ctx) =>
          let heap := evpFreectx heap ctx.inner
          let heap := heap.free Cell.isLock ctx.usageLock
          heap.free Cell.isContext (some a)
      | _ => heap.misuse

/-! ### The provider -/

/-- Which allocations of `OSSL_provider_init` are granted. -/
structure ProviderGrants where
  ctx : Bool
  childLibctx : Bool
deriving DecidableEq, Repr

/-- `OSSL_provider_init`, called with or without a place for `*out` and `*provctx`.  It returns 1
with `*provctx` set, 0 with both set to `NULL`, or 0 with neither written to. -/
def providerInit (grants : ProviderGrants) (handle : Ptr) (input : Option (List Dispatch))
    (out provctx : Bool) (heap : Heap Cell) : Option Ptr × Heap Cell :=
  match input with
  | none => (none, heap)
  | some input =>
      if !out || !provctx then (none, heap)
      else
        match heap.alloc grants.ctx (.provider ⟨none, false, none, none, Callbacks.zero⟩) with
        | (none, heap) => (some none, heap)
        | (some a, heap) =>
            let ctx : ProviderCtx :=
              ⟨none, false, none, handle, input.foldl Callbacks.read Callbacks.zero⟩
            let heap := heap.store a (.provider ctx)
            if !ctx.callbacks.complete then (some none, heap.free Cell.isProvider (some a))
            else
              match heap.alloc grants.childLibctx .libctx with
              | (none, heap) => (some none, heap.free Cell.isProvider (some a))
              | (some childLibctx, heap) =>
                  (some (some a), heap.store a (.provider { ctx with
                    childLibctx := some childLibctx
                    innerOps := true
                    innerArg := some childLibctx }))

/-- `g301_provider_teardown` -/
def providerTeardown (heap : Heap Cell) : Ptr → Heap Cell
  | none => heap
  | some a =>
      match heap.cell a with
      | some (.provider ctx) =>
          let heap := heap.free Cell.isLibctx ctx.childLibctx
          heap.free Cell.isProvider (some a)
      | _ => heap.misuse

/-! ### What each function does to the blocks -/

variable {heap : Heap Cell} {blocks : List (ℕ × Cell)} {l : ℕ}

theorem libctxAlive_of_mem (h : heap.Holds blocks) (hl : (l, .libctx) ∈ blocks) :
    libctxAlive heap (some l) = true := by
  unfold libctxAlive
  rw [Option.all_some, (h.mem_iff l .libctx).mpr hl]
  rfl

theorem evpCipherFetch_eq (h : heap.Holds blocks) (hl : (l, .libctx) ∈ blocks) (granted : Bool) :
    evpCipherFetch granted (some l) heap = heap.alloc granted (.evpCipher (some l)) := by
  unfold evpCipherFetch
  rw [if_pos (libctxAlive_of_mem h hl)]

theorem evpCipherFree_holds {a : ℕ} (h : heap.Holds ((a, .evpCipher (some l)) :: blocks))
    (hl : (l, .libctx) ∈ blocks) : (evpCipherFree heap (some a)).Holds blocks := by
  have hcell : heap.cell a = some (.evpCipher (some l)) := (h.mem_iff a _).mpr (by simp)
  have halive := libctxAlive_of_mem h (List.mem_cons_of_mem _ hl)
  unfold evpCipherFree
  simp only [hcell, halive, if_true]
  exact h.free rfl

/-- An EVP context and what it owns. -/
structure InnerParts where
  addr : ℕ
  cipher : ℕ
  cipherCtx : ℕ
  libctx : ℕ

def InnerParts.owned (i : InnerParts) : List (ℕ × Cell) :=
  [(i.cipherCtx, .evpCipherCtx), (i.cipher, .evpCipher (some i.libctx)),
    (i.addr, .inner ⟨some i.cipher, some i.cipherCtx⟩)]

/-- All allocations of `g301_evp_newctx` are granted. -/
def InnerGrants.all (grants : InnerGrants) : Bool :=
  grants.inner && grants.cipher && grants.cipherCtx

/-- A new EVP context owns three blocks; one refused allocation gives the others back. -/
theorem evpNewctx_spec (h : heap.Holds blocks) (hl : (l, .libctx) ∈ blocks)
    (grants : InnerGrants) :
    (grants.all = true ∧ ∃ i : InnerParts, i.libctx = l ∧
      (evpNewctx grants (some l) heap).1 = some i.addr ∧
        (evpNewctx grants (some l) heap).2.Holds (i.owned ++ blocks)) ∨
    (grants.all = false ∧ (evpNewctx grants (some l) heap).1 = none ∧
      (evpNewctx grants (some l) heap).2.Holds blocks) := by
  obtain ⟨inner, cipher, cipherCtx⟩ := grants
  cases inner with
  | false => exact .inr ⟨rfl, rfl, h⟩
  | true =>
      have hinner := h.push (.inner ⟨none, none⟩)
      have hl1 := List.mem_cons_of_mem (heap.next, Cell.inner ⟨none, none⟩) hl
      simp only [evpNewctx, Heap.alloc_true, evpCipherFetch_eq hinner hl1]
      cases cipher with
      | false =>
          have hstored := hinner.store_top (.inner ⟨none, none⟩)
          cases cipherCtx with
          | false =>
              refine .inr ⟨rfl, rfl, ?_⟩
              exact (hstored.store_top _).free rfl
          | true =>
              have hctx := hstored.push .evpCipherCtx
              refine .inr ⟨rfl, rfl, ?_⟩
              exact ((hctx.store [_] (.inner ⟨none, some _⟩)).free rfl).free rfl
      | true =>
          have hcipher := hinner.push (.evpCipher (some l))
          have hstored := hcipher.store [_] (.inner ⟨some (heap.next + 1), none⟩)
          cases cipherCtx with
          | false =>
              refine .inr ⟨rfl, rfl, ?_⟩
              have hlast := hstored.store [_] (.inner ⟨some (heap.next + 1), none⟩)
              exact (evpCipherFree_holds hlast (List.mem_cons_of_mem _ hl)).free rfl
          | true =>
              let before := ((heap.push (.inner ⟨none, none⟩)).push (.evpCipher (some l))).store
                heap.next (.inner ⟨some (heap.next + 1), none⟩)
              have hctx : (before.push .evpCipherCtx).Holds _ := hstored.push .evpCipherCtx
              refine .inl ⟨rfl, ⟨heap.next, heap.next + 1, before.next, l⟩, rfl, rfl, ?_⟩
              exact hctx.store [_, _] (.inner ⟨some (heap.next + 1), some before.next⟩)

/-- The library context of an EVP context and what it owns are given back. -/
theorem evpFreectx_holds {i : InnerParts} (h : heap.Holds (i.owned ++ blocks))
    (hl : (i.libctx, .libctx) ∈ blocks) : (evpFreectx heap (some i.addr)).Holds blocks := by
  have hcell : heap.cell i.addr = some (.inner ⟨some i.cipher, some i.cipherCtx⟩) :=
    (h.mem_iff i.addr _).mpr (by simp [InnerParts.owned])
  unfold evpFreectx
  simp only [hcell]
  have hcipher : (heap.free Cell.isEvpCipherCtx (some i.cipherCtx)).Holds
      ((i.cipher, .evpCipher (some i.libctx)) ::
        (i.addr, .inner ⟨some i.cipher, some i.cipherCtx⟩) :: blocks) := h.free rfl
  exact (evpCipherFree_holds hcipher (List.mem_cons_of_mem _ hl)).free rfl

/-- A cipher context and what it owns. -/
structure ContextParts where
  addr : ℕ
  usageLock : ℕ
  inner : InnerParts
  provider : ℕ
  handle : Ptr
  callbacks : Callbacks
  state : Ctx

/-- The fields of the context. -/
def ContextParts.cell (c : ContextParts) : CipherCtx :=
  ⟨true, some c.inner.addr, c.handle, c.callbacks, some c.usageLock, c.state⟩

def ContextParts.owned (c : ContextParts) : List (ℕ × Cell) :=
  c.inner.owned ++ [(c.usageLock, .lock), (c.addr, .context c.cell)]

theorem ContextParts.owned_append (c : ContextParts) (rest : List (ℕ × Cell)) :
    c.owned ++ rest = (c.inner.owned ++ [(c.usageLock, .lock)]) ++ (c.addr, .context c.cell) :: rest := by
  simp [ContextParts.owned]

def ContextGrants.all (grants : ContextGrants) : Bool :=
  grants.ctx && grants.usageLock && grants.inner.all

/-- A provider and what it owns. -/
structure ProviderParts where
  addr : ℕ
  libctx : ℕ
  handle : Ptr
  callbacks : Callbacks

def ProviderParts.cell (p : ProviderParts) : ProviderCtx :=
  ⟨some p.libctx, true, some p.libctx, p.handle, p.callbacks⟩

def ProviderParts.owned (p : ProviderParts) : List (ℕ × Cell) :=
  [(p.libctx, .libctx), (p.addr, .provider p.cell)]

/-- A new context of a provider. -/
structure ContextParts.NewOf (c : ContextParts) (heap : Heap Cell) (p : ProviderParts) : Prop where
  addr_eq : c.addr = heap.next
  provider_eq : c.provider = p.addr
  libctx_eq : c.inner.libctx = p.libctx
  handle_eq : c.handle = p.handle
  callbacks_eq : c.callbacks = p.callbacks
  state_eq : c.state = Ctx.new encryptRecordLimit

/-- A new cipher context owns five blocks; one refused allocation gives the others back. -/
theorem cipherNewctx_spec (h : heap.Holds blocks) {p : ProviderParts}
    (hp : ∀ b ∈ p.owned, b ∈ blocks) (grants : ContextGrants) :
    (grants.all = true ∧ ∃ c : ContextParts, c.NewOf heap p ∧
      (cipherNewctx grants (some p.addr) heap).1 = some c.addr ∧
        (cipherNewctx grants (some p.addr) heap).2.Holds (c.owned ++ blocks)) ∨
    (grants.all = false ∧ (cipherNewctx grants (some p.addr) heap).1 = none ∧
      (cipherNewctx grants (some p.addr) heap).2.Holds blocks) := by
  have hcell : heap.cell p.addr = some (.provider p.cell) :=
    (h.mem_iff p.addr _).mpr (hp _ (by simp [ProviderParts.owned]))
  have hl : (p.libctx, .libctx) ∈ blocks := hp _ (by simp [ProviderParts.owned])
  obtain ⟨ctx, usageLock, inner⟩ := grants
  unfold cipherNewctx
  simp only [hcell, ProviderParts.cell, Bool.not_true, Bool.false_eq_true, if_false]
  cases ctx with
  | false => exact .inr ⟨rfl, rfl, h⟩
  | true =>
      have hzero := h.push (.context ⟨false, none, none, Callbacks.zero, none, Ctx.new 0⟩)
      have hctx := hzero.store_top
        (.context ⟨true, none, p.handle, p.callbacks, none, Ctx.new encryptRecordLimit⟩)
      simp only [Heap.alloc_true]
      generalize (heap.push _).store _ _ = start at hctx ⊢
      cases usageLock with
      | false =>
          simp only [Heap.alloc_false]
          have hinner := evpNewctx_spec hctx (List.mem_cons_of_mem _ hl) inner
          obtain ⟨a, last, hr⟩ : ∃ a last, evpNewctx inner (some p.libctx) start = (a, last) :=
            ⟨_, _, rfl⟩
          rw [hr] at hinner
          simp only [hr]
          refine .inr ⟨rfl, rfl, ?_⟩
          obtain ⟨-, i, hlib, rfl, hlast⟩ | ⟨-, rfl, hlast⟩ := hinner
          · have hstored := hlast.store i.owned (.context ⟨true, some i.addr, p.handle, p.callbacks,
              none, Ctx.new encryptRecordLimit⟩)
            have hl' := List.mem_cons_of_mem (heap.next, Cell.context ⟨true, some i.addr, p.handle,
              p.callbacks, none, Ctx.new encryptRecordLimit⟩) hl
            exact (evpFreectx_holds hstored (hlib ▸ hl')).free rfl
          · exact (hlast.store_top _).free rfl
      | true =>
          have hlock := hctx.push .lock
          have hl1 := List.mem_cons_of_mem (start.next, Cell.lock)
            (List.mem_cons_of_mem (heap.next, Cell.context ⟨true, none, p.handle, p.callbacks, none,
              Ctx.new encryptRecordLimit⟩) hl)
          simp only [Heap.alloc_true]
          have hinner := evpNewctx_spec hlock hl1 inner
          obtain ⟨a, last, hr⟩ : ∃ a last, evpNewctx inner (some p.libctx) (start.push .lock) =
              (a, last) := ⟨_, _, rfl⟩
          rw [hr] at hinner
          simp only [hr]
          obtain ⟨hall, i, hlib, rfl, hlast⟩ | ⟨hall, rfl, hlast⟩ := hinner
          · refine .inl ⟨hall, ⟨heap.next, start.next, i, p.addr, p.handle, p.callbacks,
              Ctx.new encryptRecordLimit⟩, ⟨rfl, rfl, hlib, rfl, rfl, rfl⟩, rfl, ?_⟩
            exact hlast.store (i.owned ++ [_]) (.context ⟨true, some i.addr, p.handle, p.callbacks,
              some start.next, Ctx.new encryptRecordLimit⟩)
          · refine .inr ⟨hall, rfl, ?_⟩
            exact ((hlast.store [_] (.context ⟨true, none, p.handle, p.callbacks, some start.next,
              Ctx.new encryptRecordLimit⟩)).free rfl).free rfl

/-- A cipher context is given back with all that it owns. -/
theorem cipherFreectx_holds {c : ContextParts} (h : heap.Holds (c.owned ++ blocks))
    (hl : (c.inner.libctx, .libctx) ∈ blocks) : (cipherFreectx heap (some c.addr)).Holds blocks := by
  have hcell : heap.cell c.addr = some (.context c.cell) :=
    (h.mem_iff c.addr _).mpr (by simp [ContextParts.owned])
  unfold cipherFreectx
  simp only [hcell, ContextParts.cell]
  unfold ContextParts.owned at h
  rw [List.append_assoc] at h
  have hl' : (c.inner.libctx, .libctx) ∈
      [(c.usageLock, Cell.lock), (c.addr, .context c.cell)] ++ blocks :=
    List.mem_append_right _ hl
  exact ((evpFreectx_holds h hl').free rfl).free rfl

/-- What `OSSL_provider_init` needs: both places to write to, both allocations and a table with the
three error functions. -/
def initAccepted (grants : ProviderGrants) (input : Option (List Dispatch)) (out provctx : Bool) :
    Bool :=
  out && provctx && grants.ctx && grants.childLibctx &&
    input.any fun table => (table.foldl Callbacks.read Callbacks.zero).complete

/-- A new provider of a dispatch table. -/
structure ProviderParts.NewOf (p : ProviderParts) (heap : Heap Cell) (handle : Ptr)
    (input : Option (List Dispatch)) : Prop where
  addr_eq : p.addr = heap.next
  handle_eq : p.handle = handle
  callbacks_eq : input.map (List.foldl Callbacks.read Callbacks.zero) = some p.callbacks
  complete : p.callbacks.complete = true

/-- A new provider owns two blocks; an initialisation that fails leaves nothing behind. -/
theorem providerInit_spec (h : heap.Holds blocks) (grants : ProviderGrants) (handle : Ptr)
    (input : Option (List Dispatch)) (out provctx : Bool) :
    (initAccepted grants input out provctx = true ∧ ∃ p : ProviderParts,
      p.NewOf heap handle input ∧
        (providerInit grants handle input out provctx heap).1 = some (some p.addr) ∧
        (providerInit grants handle input out provctx heap).2.Holds (p.owned ++ blocks)) ∨
    (initAccepted grants input out provctx = false ∧
      (providerInit grants handle input out provctx heap).1.getD none = none ∧
      (providerInit grants handle input out provctx heap).2.Holds blocks) := by
  cases input with
  | none => exact .inr ⟨by simp [initAccepted], rfl, h⟩
  | some table =>
      unfold providerInit
      by_cases hplaces : out = true ∧ provctx = true
      case neg =>
        have hrefused : (!out || !provctx) = true := by
          cases out <;> cases provctx <;> simp at hplaces ⊢
        refine .inr ⟨?_, ?_⟩
        · unfold initAccepted
          cases out <;> cases provctx <;> simp at hplaces ⊢
        · simp only [hrefused, if_true]
          exact ⟨rfl, h⟩
      obtain ⟨rfl, rfl⟩ := hplaces
      obtain ⟨ctx, childLibctx⟩ := grants
      simp only [Bool.not_true, Bool.or_self, Bool.false_eq_true, if_false]
      cases ctx with
      | false => exact .inr ⟨rfl, rfl, h⟩
      | true =>
          have hctx := (h.push (.provider ⟨none, false, none, none, Callbacks.zero⟩)).store_top
            (.provider ⟨none, false, none, handle, table.foldl Callbacks.read Callbacks.zero⟩)
          simp only [Heap.alloc_true]
          generalize (heap.push _).store _ _ = start at hctx ⊢
          cases hcomplete : (table.foldl Callbacks.read Callbacks.zero).complete with
          | false => exact .inr ⟨by simp [initAccepted, hcomplete], rfl, hctx.free rfl⟩
          | true =>
              cases childLibctx with
              | false => exact .inr ⟨by simp [initAccepted], rfl, hctx.free rfl⟩
              | true =>
                  have hlib := hctx.push .libctx
                  refine .inl ⟨by simp [initAccepted, hcomplete], ⟨heap.next, start.next,
                    handle, table.foldl Callbacks.read Callbacks.zero⟩,
                    ⟨rfl, rfl, rfl, hcomplete⟩, rfl, ?_⟩
                  exact hlib.store [_] (.provider ⟨some start.next, true, some start.next, handle,
                    table.foldl Callbacks.read Callbacks.zero⟩)

/-- A provider is given back with its library context. -/
theorem providerTeardown_holds {p : ProviderParts} (h : heap.Holds (p.owned ++ blocks)) :
    (providerTeardown heap (some p.addr)).Holds blocks := by
  have hcell : heap.cell p.addr = some (.provider p.cell) :=
    (h.mem_iff p.addr _).mpr (by simp [ProviderParts.owned])
  unfold providerTeardown
  simp only [hcell, ProviderParts.cell]
  have hlib : (heap.free Cell.isLibctx (some p.libctx)).Holds
      ((p.addr, .provider p.cell) :: blocks) := h.free rfl
  exact hlib.free rfl

end G301.Outer
