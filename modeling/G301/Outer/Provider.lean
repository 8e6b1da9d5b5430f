import G301.Outer.Evp

/-! # A cipher context over EVP

`Provider` is a cipher context with the inner context of `g301_inner_evp.c` under it.
`Provider.step` runs one call of the dispatch table: the answers that `Cipher.step` takes are
those of the inner context (`Provider.answers`), and the requests made during the call are
served in their order.

`step_answered` says that this is consistent: every request in the trace carries the answer
that the inner context gave to it.  `Provider.Step` is all that the proofs use. -/

namespace G301.Outer

open ByteString Param Lts

/-! ### Where the answers of a trace come from -/

theorem initInner_request (ans : Answers) (encrypt : Bool) (key iv : Buffer)
    (params : Option (List Param)) (hasTag : Bool) (ctx : Ctx) :
    ∃ locks, (initInner ans encrypt key iv params hasTag (Exec.start ctx)).2.trace =
      initRequest encrypt key iv params ans.init :: locks ∧ ∀ c ∈ locks, c.isInner = false := by
  obtain ⟨ok, locks, htrace, hlocks⟩ :=
    initInner_trace ans encrypt key iv params hasTag (Exec.start ctx)
  have hlocks : ∀ c ∈ locks, c.isInner = false := by
    intro c hc
    obtain ⟨ok, rfl⟩ := hlocks c hc
    rfl
  -- the first request is made before any lock
  have hfirst : (initInner ans encrypt key iv params hasTag (Exec.start ctx)).2.trace.head? =
      some (initRequest encrypt key iv params ans.init) := by
    rw [initInner_eq]
    cases hinit : ans.init with
    | false => rfl
    | true =>
        rw [if_neg (by decide)]
        split
        · rfl
        unfold startRecord
        split
        · rfl
        split
        · rfl
        cases encrypt with
        | false => rfl
        | true =>
            obtain ⟨installed, locks', -, hinstall⟩ := installWriteKey_eq ans
              ⟨ctx.takeKey true key, [] ++ initRequest true key iv params true ::
                recordTrace key true, []⟩
            simp only [if_true, hinstall]
            split <;> rfl
  rw [htrace] at hfirst
  have hok : initRequest encrypt key iv params ok = initRequest encrypt key iv params ans.init :=
    Option.some.inj hfirst
  exact ⟨locks, by rw [htrace, hok]; rfl, hlocks⟩

theorem init_request (lib : Libcrypto) (ans : Answers) (encrypt : Bool) (key iv : Buffer)
    (params : Option (List Param)) (ctx : Ctx) :
    (init lib ans encrypt key iv params ctx).2.trace = [] ∨
    ∃ locks, (init lib ans encrypt key iv params ctx).2.trace =
      initRequest encrypt key iv params ans.init :: locks ∧ ∀ c ∈ locks, c.isInner = false := by
  obtain ⟨next, reason, heq, -⟩ | ⟨-, prepared, -, heq⟩ :=
    init_cases lib ans encrypt key iv params ctx
  · rw [heq]
    exact .inl rfl
  · rw [heq]
    exact .inr (initInner_request ans encrypt key iv params _ prepared)

theorem reserveEncryptionRecord_request (ans : Answers) (e : Exec) :
    ∃ adds, (reserveEncryptionRecord ans e).2.trace = e.trace ++ adds ∧
      ∀ c ∈ adds, c.isInner = false := by
  unfold reserveEncryptionRecord
  split
  · exact ⟨[], by simp⟩
  split
  · exact ⟨[], by simp [Exec.raise, Exec.modify]⟩
  refine ⟨[.atomicAdd ans.atomicAdd], ?_, by simp [ExtCall.isInner]⟩
  dsimp only
  split
  · rfl
  · split <;> rfl

/-- The requests of an injection: none while the record is active, and the manifest at most
when it is pending. -/
theorem injectManifest_request (ans : Answers) (ctx : Ctx) :
    ∃ adds, (∀ c ∈ adds, c.isInner = false) ∧
      ((ctx.phase ≠ .manifestPending ∧
          (injectManifest ans (Exec.start ctx)).2.trace = []) ∨
        (ctx.phase = .manifestPending ∧ (injectManifest ans (Exec.start ctx)).1 = false ∧
          (injectManifest ans (Exec.start ctx)).2.trace = adds) ∨
        (ctx.phase = .manifestPending ∧ (injectManifest ans (Exec.start ctx)).2.trace =
          adds ++ [.update false manifest ans.manifest])) := by
  by_cases hphase : ctx.phase = .manifestPending
  case neg => exact ⟨[], by simp, .inl ⟨hphase, by rw [injectManifest, if_pos hphase]⟩⟩
  obtain ⟨adds, htrace, hadds⟩ := reserveEncryptionRecord_request ans (Exec.start ctx)
  have hhand (e : Exec) : (handManifest ans e).2.trace =
      e.trace ++ [.update false manifest ans.manifest] := by
    unfold handManifest
    dsimp only
    split
    · rfl
    · split <;> rfl
  have hinject : injectManifest ans (Exec.start ctx) =
      if ctx.encrypt && !(reserveEncryptionRecord ans (Exec.start ctx)).1 then
        (false, (reserveEncryptionRecord ans (Exec.start ctx)).2)
      else handManifest ans (if ctx.encrypt then
        (reserveEncryptionRecord ans (Exec.start ctx)).2 else Exec.start ctx) := by
    rw [injectManifest, if_neg (not_not.mpr hphase)]
    generalize reserveEncryptionRecord ans (Exec.start ctx) = r
    obtain ⟨reserved, e⟩ := r
    cases ctx.encrypt <;> cases reserved <;> rfl
  rw [hinject]
  cases hencrypt : ctx.encrypt with
  | false =>
      refine ⟨[], by simp, .inr (.inr ⟨hphase, ?_⟩)⟩
      rw [Bool.false_and, if_neg (by decide), if_neg (by decide), hhand]
  | true =>
      refine ⟨adds, hadds, .inr ?_⟩
      cases hreserved : (reserveEncryptionRecord ans (Exec.start ctx)).1 with
      | false => exact .inl ⟨hphase, rfl, htrace⟩
      | true =>
          refine .inr ⟨hphase, ?_⟩
          rw [Bool.true_and, if_neg (by decide), if_pos rfl, hhand, htrace]
          rfl

theorem update_request (ans : Answers) (out hasOutl : Bool) (outsize : ℕ) (input : Buffer)
    (ctx : Ctx) :
    (update ans out hasOutl outsize input ctx).2.2.trace = [] ∨
    ((injectManifest ans (Exec.start ctx)).1 = false ∧
      (update ans out hasOutl outsize input ctx).2.2.trace =
        (injectManifest ans (Exec.start ctx)).2.trace) ∨
    ((injectManifest ans (Exec.start ctx)).1 = true ∧
      (update ans out hasOutl outsize input ctx).2.2.trace =
        (injectManifest ans (Exec.start ctx)).2.trace ++
          [.update out ((input.data?).getD []) ans.data]) := by
  rw [update_eq]
  split
  · exact .inl rfl
  split
  · exact .inl rfl
  split
  · exact .inl rfl
  split
  · exact .inl rfl
  split
  · exact .inl rfl
  split
  · exact .inl rfl
  right
  unfold feedData
  generalize injectManifest ans (Exec.start ctx) = r
  obtain ⟨ok, e⟩ := r
  cases ok with
  | false => exact .inl ⟨rfl, rfl⟩
  | true =>
      refine .inr ⟨rfl, ?_⟩
      dsimp only
      split
      · rfl
      split
      · rfl
      · cases out <;> rfl

theorem final_request (ans : Answers) (hasOutl : Bool) (ctx : Ctx) :
    (final ans hasOutl ctx).2.2.trace = [] ∨
    ((injectManifest ans (Exec.start ctx)).1 = false ∧ (final ans hasOutl ctx).2.2.trace =
      (injectManifest ans (Exec.start ctx)).2.trace) ∨
    ((injectManifest ans (Exec.start ctx)).1 = true ∧ (final ans hasOutl ctx).2.2.trace =
      (injectManifest ans (Exec.start ctx)).2.trace ++ [.final ans.final]) := by
  unfold final
  dsimp only
  split
  · left
    split <;> rfl
  split
  · exact .inl rfl
  split
  · exact .inl rfl
  right
  generalize injectManifest ans (Exec.start ctx) = r
  obtain ⟨ok, ctx', trace, raised⟩ := r
  cases ok with
  | false => exact .inl ⟨rfl, rfl⟩
  | true =>
      refine .inr ⟨rfl, ?_⟩
      dsimp only
      split
      · rfl
      · split <;> rfl

theorem getEncryptionTag_request (ans : Answers) (param : Param) (ctx : Ctx) :
    (getEncryptionTag ans param (Exec.start ctx)).2.2.trace = [] ∨
    (getEncryptionTag ans param (Exec.start ctx)).2.2.trace = [.getParams ans.getParams] := by
  unfold getEncryptionTag
  split
  · exact .inl rfl
  split
  · exact .inl rfl
  split
  · exact .inl rfl
  right
  dsimp only
  split
  · rfl
  · split <;> rfl

theorem getCtxParams_request (lib : Libcrypto) (ans : Answers) (params : Option (List Param))
    (ctx : Ctx) :
    (getCtxParams lib ans params ctx).2.2.trace = [] ∨
    (getCtxParams lib ans params ctx).2.2.trace = [.getParams ans.getParams] := by
  unfold getCtxParams
  dsimp only
  split
  · exact .inl rfl
  split
  · exact .inl rfl
  split
  · exact .inl rfl
  split
  · exact .inl rfl
  split
  · exact .inl rfl
  split
  · exact .inl rfl
  split
  · exact .inl rfl
  · exact getEncryptionTag_request ans _ ctx

theorem setCtxParams_request (lib : Libcrypto) (ans : Answers) (params : Option (List Param))
    (ctx : Ctx) :
    (setCtxParams lib ans params ctx).2.trace = [] ∨
    (setCtxParams lib ans params ctx).2.trace =
      [.setParams (filtered (ivOf params) (tagOf params)) ans.setParams] := by
  cases params with
  | none => exact .inl rfl
  | some params =>
      by_cases hvalid : hasForbiddenLegacyParam params = false ∧
          (validateSetParams lib ctx params).1 = true
      case neg =>
        rw [setCtxParams_of_invalid ans hvalid]
        exact .inl rfl
      obtain ⟨hforbidden, hvalid⟩ := hvalid
      cases htag : locate params aeadTag with
      | none =>
          rw [setCtxParams_of_tagless ans hforbidden hvalid htag]
          exact .inl rfl
      | some tag =>
          rw [setCtxParams_of_valid ans hforbidden hvalid htag]
          right
          simp only [ivOf, tagOf, Option.bind_some, htag]

/-! ### The composition -/

/-- A cipher context and its inner context. -/
structure Provider (σ : Type) where
  ctx : Ctx
  inner : EvpInner σ

/-- What the lock and `CRYPTO_atomic_add` answer during one call. -/
structure Threads where
  recordLock : Bool
  installLock : Bool
  atomicAdd : Bool

/-- An event of the context, and what the call wrote to the caller's buffer. -/
structure ProviderEvent where
  event : Event
  out : Bytes

namespace Provider

variable {σ : Type} (evp : Evp σ) (lib : Libcrypto)

/-- `g301_cipher_newctx`, with an `EVP_CIPHER_CTX` just made. -/
def new (recordLimit : ℤ) (fresh : σ) : Provider σ := ⟨Ctx.new recordLimit, ⟨fresh, false⟩⟩

/-- The inner context when the data of an update or a final reach it. -/
def injected (p : Provider σ) : EvpInner σ :=
  if p.ctx.phase = .manifestPending then (p.inner.update evp false manifest).2.2 else p.inner

def initAnswer (p : Provider σ) : Call → Bool
  | .init encrypt key iv params =>
      (p.inner.init evp key.data? iv.data? encrypt (filtered (ivOf params) (tagOf params))).1
  | _ => false

def dataAnswer (p : Provider σ) : Call → Reply
  | .update out _ _ input => ((p.injected evp).update evp out ((input.data?).getD [])).1
  | _ => ⟨false, 0⟩

def setAnswer (p : Provider σ) : Call → Bool
  | .setCtxParams params => (p.inner.setParams evp (filtered (ivOf params) (tagOf params))).1
  | _ => false

/-- The answers that the inner context has for the requests of a call. -/
def answers (p : Provider σ) (threads : Threads) (call : Call) : Answers where
  init := p.initAnswer evp call
  recordLock := threads.recordLock
  installLock := threads.installLock
  atomicAdd := threads.atomicAdd
  manifest := (p.inner.update evp false manifest).1
  data := p.dataAnswer evp call
  final := ((p.injected evp).final evp).1
  getParams := (p.inner.getParams evp).1
  setParams := p.setAnswer evp call

/-- One call. -/
def step (p : Provider σ) (input : Threads × Call) : ProviderEvent × Provider σ :=
  let r := Cipher.step lib p.ctx (p.answers evp input.1 input.2) input.2
  let served := p.inner.serveAll evp r.1.trace
  (⟨r.1, served.1⟩, ⟨r.2, served.2⟩)

/-- One call: a step of the cipher whose requests the inner context answered and served. -/
structure Step (p : Provider σ) (ev : ProviderEvent) (next : Provider σ) : Prop where
  cipher : Cipher.Step lib p.ctx ev.event next.ctx
  answered : p.inner.Answered evp ev.event.trace
  served : p.inner.serveAll evp ev.event.trace = (ev.out, next.inner)

/-- The injected manifest is the first thing that the inner context serves. -/
theorem answered_inject (p : Provider σ) (ans : Answers)
    (hmanifest : ans.manifest = (p.inner.update evp false manifest).1) :
    p.inner.Answered evp (injectManifest ans (Exec.start p.ctx)).2.trace ∧
      ((injectManifest ans (Exec.start p.ctx)).1 = true →
        (p.inner.serveAll evp (injectManifest ans (Exec.start p.ctx)).2.trace).2 =
          p.injected evp) := by
  obtain ⟨adds, hadds, ⟨hphase, htrace⟩ | ⟨-, hok, htrace⟩ | ⟨hphase, htrace⟩⟩ :=
    injectManifest_request ans p.ctx
  · rw [htrace]
    exact ⟨trivial, fun _ => by rw [injected, if_neg hphase]; rfl⟩
  · rw [htrace, hok]
    exact ⟨(p.inner.serveAll_of_not_isInner evp hadds).2, fun h => by cases h⟩
  · obtain ⟨hserve, hanswered⟩ := p.inner.serveAll_of_not_isInner evp hadds
    rw [htrace, EvpInner.answered_append, EvpInner.serveAll_append, hserve, hmanifest]
    refine ⟨⟨hanswered, rfl, trivial⟩, fun _ => ?_⟩
    rw [injected, if_pos hphase]
    rfl

/-- Every request carries the answer of the inner context. -/
theorem step_answered (p : Provider σ) (threads : Threads) (call : Call) :
    p.inner.Answered evp
      (Cipher.step lib p.ctx (p.answers evp threads call) call).1.trace := by
  obtain ⟨hinject, hinjected⟩ := p.answered_inject evp (p.answers evp threads call) rfl
  cases call with
  | init encrypt key iv params =>
      simp only [Cipher.step]
      obtain hnone | ⟨locks, htrace, hlocks⟩ :=
        init_request lib (p.answers evp threads (.init encrypt key iv params)) encrypt key iv
          params p.ctx
      · rw [hnone]
        trivial
      · rw [htrace]
        exact ⟨rfl, (EvpInner.serveAll_of_not_isInner evp _ hlocks).2⟩
  | update out hasOutl outsize input =>
      simp only [Cipher.step]
      obtain hnone | ⟨-, htrace⟩ | ⟨hok, htrace⟩ :=
        update_request (p.answers evp threads (.update out hasOutl outsize input)) out hasOutl
          outsize input p.ctx
      · rw [hnone]
        trivial
      · rw [htrace]
        exact hinject
      · rw [htrace, EvpInner.answered_append, hinjected hok]
        exact ⟨hinject, rfl, trivial⟩
  | final hasOutl =>
      simp only [Cipher.step]
      obtain hnone | ⟨-, htrace⟩ | ⟨hok, htrace⟩ :=
        final_request (p.answers evp threads (.final hasOutl)) hasOutl p.ctx
      · rw [hnone]
        trivial
      · rw [htrace]
        exact hinject
      · rw [htrace, EvpInner.answered_append, hinjected hok]
        exact ⟨hinject, rfl, trivial⟩
  | getCtxParams params =>
      simp only [Cipher.step]
      obtain hnone | htrace :=
        getCtxParams_request lib (p.answers evp threads (.getCtxParams params)) params p.ctx
      · rw [hnone]
        trivial
      · rw [htrace]
        exact ⟨rfl, trivial⟩
  | setCtxParams params =>
      simp only [Cipher.step]
      obtain hnone | htrace :=
        setCtxParams_request lib (p.answers evp threads (.setCtxParams params)) params p.ctx
      · rw [hnone]
        trivial
      · rw [htrace]
        exact ⟨rfl, trivial⟩

theorem step_self (p : Provider σ) (input : Threads × Call) :
    Step evp lib p (p.step evp lib input).1 (p.step evp lib input).2 where
  cipher := Cipher.step_self lib p.ctx (p.answers evp input.1 input.2) input.2
  answered := p.step_answered evp lib input.1 input.2
  served := rfl

theorem step_call (p : Provider σ) (input : Threads × Call) :
    (p.step evp lib input).1.event.call = input.2 := Cipher.step_call lib _ _ _

theorem path_execute (p : Provider σ) (script : List (Threads × Call)) :
    Path (Step evp lib) p (exec (step evp lib) p script).1 (exec (step evp lib) p script).2 :=
  path_exec (step_self evp lib) p script

/-- The history of the cipher context. -/
def events (h : List ProviderEvent) : List Event := h.map ProviderEvent.event

@[simp] theorem events_append (h h' : List ProviderEvent) :
    events (h ++ h') = events h ++ events h' := List.map_append

@[simp] theorem events_cons (ev : ProviderEvent) (h : List ProviderEvent) :
    events (ev :: h) = ev.event :: events h := rfl

@[simp] theorem events_nil : events [] = [] := rfl

/-- What the calls of a history wrote to the caller's buffers. -/
def written (h : List ProviderEvent) : Bytes := h.flatMap ProviderEvent.out

variable {evp lib}

/-- A run of the composition is one of the cipher context. -/
theorem path_cipher {p next : Provider σ} {h : List ProviderEvent}
    (run : Path (Step evp lib) p h next) : Path (Cipher.Step lib) p.ctx (events h) next.ctx := by
  refine run.invariant (P := fun h next => Path (Cipher.Step lib) p.ctx (events h) next.ctx)
    .nil ?_
  intro h mid ev next _ ih hstep
  rw [events_append]
  exact ih.snoc hstep.cipher

end Provider

end G301.Outer
