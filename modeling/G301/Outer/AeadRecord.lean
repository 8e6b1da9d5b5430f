import G301.Outer.Provider
import G301.Outer.Staging
import G301.Outer.TagRelease

/-! # Records of a context over AES-256-GCM

The context feeds its inner context piece by piece; here the pieces come together.  Over an
inner context that does what libcrypto documents (`Evp.Lawful`), a finished encryption record
is one AEAD encryption and the final of a decryption record decides one AEAD decryption
(`released_tag`, `decided_final`).

`InProgress` is the invariant of a record in progress: the inner context has been given what
`replay` says, and what was written is the key stream added to the payload so far.  `Mirrors`
is the invariant of a run. -/

namespace G301.Outer

open ByteString Param Lts

variable {σ : Type} {evp : Evp σ} {scheme : Scheme} {view : σ → EvpView} {lib : Libcrypto}

/-! ### Serving the requests of a record -/

theorem Gcm.feed_locks (gcm : Gcm) (c : ExtCall) {locks : List ExtCall}
    (h : ∀ x ∈ locks, x.isInner = false) : (c :: locks).foldl Gcm.feed gcm = gcm.feed c := by
  rw [List.foldl_cons, ← Gcm.foldl_feed_filter, filter_of_not_isInner h]
  rfl

theorem Gcm.feed_fetches (gcm : Gcm) {trace : List ExtCall}
    (h : ∀ c ∈ trace, ∃ reply, c = .getParams reply) : trace.foldl Gcm.feed gcm = gcm := by
  induction trace with
  | nil => rfl
  | cons c trace ih =>
      obtain ⟨reply, rfl⟩ := h c List.mem_cons_self
      exact ih fun x hx => h x (List.mem_cons_of_mem _ hx)

namespace EvpInner

variable {inner : EvpInner σ}

/-- Fetching tags changes nothing and writes nothing. -/
theorem serveAll_fetches (hlaw : evp.Lawful scheme view) {trace : List ExtCall}
    (h : ∀ c ∈ trace, ∃ reply, c = .getParams reply) :
    (inner.serveAll evp trace).1 = [] ∧
      view (inner.serveAll evp trace).2.cipherCtx = view inner.cipherCtx := by
  induction trace generalizing inner with
  | nil => exact ⟨rfl, rfl⟩
  | cons c trace ih =>
      obtain ⟨reply, rfl⟩ := h c List.mem_cons_self
      obtain ⟨hout, hview⟩ := @ih (inner.serve evp (.getParams reply)).2.2
        fun x hx => h x (List.mem_cons_of_mem _ hx)
      exact ⟨hout, hview.trans (hlaw.getParams_view _)⟩

theorem serveAll_locks (c : ExtCall) {locks : List ExtCall}
    (h : ∀ x ∈ locks, x.isInner = false) :
    inner.serveAll evp (c :: locks) = (inner.serve evp c).2 := by
  rw [serveAll, (serveAll_of_not_isInner evp _ h).1, List.append_nil]

/-- Without an init the key stays. -/
theorem serveAll_key (hlaw : evp.Lawful scheme view) {trace : List ExtCall}
    (h : ∀ c ∈ trace, c.isInit = false) :
    (inner.serveAll evp trace).2.initialized = inner.initialized ∧
      (view (inner.serveAll evp trace).2.cipherCtx).gcm.key =
        (view inner.cipherCtx).gcm.key := by
  induction trace generalizing inner with
  | nil => exact ⟨rfl, rfl⟩
  | cons c trace ih =>
      have hserved : (inner.serve evp c).2.2.initialized = inner.initialized ∧
          (view (inner.serve evp c).2.2.cipherCtx).gcm.key = (view inner.cipherCtx).gcm.key := by
        cases c with
        | init => exact absurd (h _ List.mem_cons_self) (by simp [ExtCall.isInit])
        | update out data reply => exact ⟨rfl, hlaw.update_key _ _ _⟩
        | final reply => exact ⟨rfl, hlaw.final_key _⟩
        | getParams reply => exact ⟨rfl, congrArg (fun v => v.gcm.key) (hlaw.getParams_view _)⟩
        | setParams params ok => exact ⟨rfl, hlaw.setParams_key _ _⟩
        | writeLock ok => exact ⟨rfl, rfl⟩
        | atomicAdd ok => exact ⟨rfl, rfl⟩
      obtain ⟨hinit, hkey⟩ := @ih (inner.serve evp c).2.2
        fun x hx => h x (List.mem_cons_of_mem _ hx)
      exact ⟨hinit.trans hserved.1, hkey.trans hserved.2⟩

section
variable {encrypt ok : Bool} {iv : Buffer} {params : Option (List Param)}

/-- An init without a key leaves the key of an initialized context as it is. -/
theorem serve_keyless (hlaw : evp.Lawful scheme view) {size : ℕ}
    (hinit : inner.initialized = true) :
    (inner.serve evp (initRequest encrypt (.null size) iv params ok)).2.2.initialized = true ∧
      (view
        (inner.serve evp (initRequest encrypt (.null size) iv params ok)).2.2.cipherCtx).gcm.key =
          (view inner.cipherCtx).gcm.key := by
  simp only [initRequest, serve, init, hinit, Buffer.data?, Bool.not_true, Bool.true_or, true_and]
  exact hlaw.init_keyless rfl

/-- An answered init was a positive return value of libcrypto. -/
theorem ret_of_answered {key : Buffer}
    (hanswered : (inner.serve evp (initRequest encrypt key iv params true)).1 =
      initRequest encrypt key iv params true) :
    0 < (evp.cipherInit inner.cipherCtx (!inner.initialized) key.data? iv.data? encrypt
      (filtered (ivOf params) (tagOf params))).1 := by
  simp only [initRequest, serve, init, ExtCall.init.injEq, true_and] at hanswered
  exact of_decide_eq_true hanswered

theorem serve_keyed (hlaw : evp.Lawful scheme view) {k : Bytes}
    (hanswered : (inner.serve evp (initRequest encrypt (.bytes k) iv params true)).1 =
      initRequest encrypt (.bytes k) iv params true) :
    (inner.serve evp (initRequest encrypt (.bytes k) iv params true)).2.2.initialized = true ∧
      (view
        (inner.serve evp (initRequest encrypt (.bytes k) iv params true)).2.2.cipherCtx).gcm.key =
          some k := by
  have hok := ret_of_answered hanswered
  simp only [initRequest, serve, init, Buffer.data?] at hok ⊢
  exact ⟨by simp [hok], hlaw.init_key rfl hok⟩

end

end EvpInner

/-! ### A record in progress -/

/-- What the inner context has been given of a record in progress. -/
theorem Fed.replay_eq {h pre mid : List Event} {ctx : Ctx} {first : Event}
    (hfed : Fed h ctx pre first mid) (hinv : KeyInv h ctx) (hlive : ctx.refuses = false) :
    ∃ key, LatestKey h key ∧ replay h = ⟨some key, first.iv?, first.encrypts,
      if ctx.phase = .active then manifest ++ (chunks false mid).flatten else [],
      (chunks true mid).flatten⟩ := by
  obtain ⟨key, hlatest, hkey⟩ := hinv hfed.keyValid
  refine ⟨key, hlatest, ?_⟩
  obtain ⟨key', hfirst⟩ := replay_first pre hfed.record.begins hfed.started
  have hcut : h = (pre ++ [first]) ++ mid := by simp [hfed.record.eq]
  have hreplay : replay h = (innerCalls mid).foldl Gcm.feed
      ⟨key', first.iv?, first.encrypts, [], []⟩ := by
    rw [hcut, replay_append, hfirst, ← Gcm.foldl_feed_filter]
    rfl
  obtain hphase | hphase := (Ctx.refuses_eq_false_iff.mp hlive).2
  · obtain ⟨hcalls, hchunks⟩ := hfed.pending hphase
    rw [hcalls] at hreplay
    rw [hreplay] at hkey ⊢
    obtain rfl : key' = some key := hkey
    rw [hchunks, hchunks, hphase]
    rfl
  · rw [hfed.active hphase] at hreplay
    simp only [List.foldl_append, List.foldl_cons, Gcm.foldl_feed_dataCall_aad,
      Gcm.foldl_feed_dataCall_payload] at hreplay
    rw [hreplay] at hkey ⊢
    obtain rfl : key' = some key := hkey
    rw [if_pos hphase]
    rfl

/-- The manifest is what an injection adds, if it is not there. -/
theorem Inject.foldl_feed {ctx injected : Ctx} {trace : List ExtCall} {raised : List Reason}
    (hinject : Inject ctx trace raised true injected) (gcm : Gcm) :
    trace.foldl Gcm.feed gcm =
      if ctx.phase = .active then gcm else { gcm with aad := gcm.aad ++ manifest } := by
  obtain ⟨-, ⟨hphase, rfl⟩ | ⟨hphase, adds, hadds, rfl⟩⟩ := hinject.of_true
  · rw [if_pos hphase]
    rfl
  · have hfold : adds.foldl Gcm.feed gcm = gcm := by
      rw [← Gcm.foldl_feed_filter, filter_of_not_isInner hadds]
      rfl
    rw [List.foldl_append, hfold, hphase]
    rfl

/-- And it writes nothing. -/
theorem EvpInner.serveAll_inject {inner : EvpInner σ} {ctx injected : Ctx} {trace : List ExtCall}
    {raised : List Reason} (hinject : Inject ctx trace raised true injected) :
    (inner.serveAll evp trace).1 = [] := by
  obtain ⟨-, ⟨-, rfl⟩ | ⟨-, adds, hadds, rfl⟩⟩ := hinject.of_true
  · rfl
  · rw [serveAll_append, (inner.serveAll_of_not_isInner evp hadds).1, serveAll_single]
    rfl

theorem Fed.injected {h pre mid : List Event} {ctx injected : Ctx} {first : Event}
    {trace : List ExtCall} {key : Bytes} (hfed : Fed h ctx pre first mid)
    (hinject : Inject ctx trace [] true injected)
    (hreplay : replay h = ⟨some key, first.iv?, first.encrypts,
      if ctx.phase = .active then manifest ++ (chunks false mid).flatten else [],
      (chunks true mid).flatten⟩) :
    trace.foldl Gcm.feed (replay h) = ⟨some key, first.iv?, first.encrypts,
      manifest ++ (chunks false mid).flatten, (chunks true mid).flatten⟩ := by
  rw [hinject.foldl_feed, hreplay]
  obtain ⟨-, ⟨hphase, -⟩ | ⟨hphase, -⟩⟩ := hinject.of_true
  · rw [if_pos hphase, if_pos hphase]
  · rw [hphase, (hfed.pending hphase).2, (hfed.pending hphase).2]
    rfl

/-- The inner context is ready, has been given `gcm` and has written `out` for its payload. -/
structure InProgress (scheme : Scheme) (view : σ → EvpView) (inner : EvpInner σ) (gcm : Gcm)
    (out : Bytes) : Prop where
  gcm_eq : (view inner.cipherCtx).gcm = gcm
  ready : ∃ key iv, (view inner.cipherCtx).Ready key iv ∧
    out = scheme.crypt key iv 0 gcm.payload

namespace InProgress

variable {inner : EvpInner σ} {gcm : Gcm} {out : Bytes}

/-- An answered update adds its data, and writes them if there is a buffer; the tag stays. -/
theorem update (h : InProgress scheme view inner gcm out) (hlaw : evp.Lawful scheme view)
    {toOut : Bool} {data : Bytes}
    (hanswered : (inner.serve evp (dataCall toOut data)).1 = dataCall toOut data) :
    InProgress scheme view (inner.serve evp (dataCall toOut data)).2.2
      (gcm.feed (dataCall toOut data)) (out ++ (inner.serve evp (dataCall toOut data)).2.1) ∧
    (view (inner.serve evp (dataCall toOut data)).2.2.cipherCtx).tag =
      (view inner.cipherCtx).tag := by
  obtain ⟨key, iv, hready, rfl⟩ := h.ready
  obtain rfl := h.gcm_eq
  simp only [dataCall, EvpInner.serve, EvpInner.update, ExtCall.update.injEq, Reply.mk.injEq,
    decide_eq_true_eq, true_and] at hanswered
  obtain ⟨hok, houtl⟩ := hanswered
  simp only [dataCall, EvpInner.serve, EvpInner.update]
  generalize hr : evp.cipherUpdate inner.cipherCtx toOut data = r at hok houtl
  obtain ⟨⟨ret, outl, written⟩, next⟩ := r
  cases toOut with
  | false =>
      have hview := hlaw.update_aad hr hok hready
      simp only [hview]
      refine ⟨⟨by rw [hview]; rfl, key, iv, ?_, List.append_nil _⟩, trivial⟩
      rw [hview]
      exact ⟨hready.key_eq, hready.iv_eq, hready.finished_eq⟩
  | true =>
      obtain rfl : outl = data.length := houtl
      obtain ⟨hview, hwritten⟩ := hlaw.update_payload hr hok hready
      simp only [hview]
      refine ⟨⟨by rw [hview]; rfl, key, iv, ?_, ?_⟩, trivial⟩
      · rw [hview]
        exact ⟨hready.key_eq, hready.iv_eq, hready.finished_eq⟩
      · show _ ++ written = scheme.crypt key iv 0 (_ ++ data)
        rw [scheme.crypt_append, hwritten, Nat.zero_add]

/-- So do the requests of an injection. -/
theorem inject (h : InProgress scheme view inner gcm out) (hlaw : evp.Lawful scheme view)
    {ctx injected : Ctx} {trace : List ExtCall} {raised : List Reason}
    (hinject : Inject ctx trace raised true injected) (hanswered : inner.Answered evp trace) :
    InProgress scheme view (inner.serveAll evp trace).2 (trace.foldl Gcm.feed gcm)
      (out ++ (inner.serveAll evp trace).1) ∧
    (view (inner.serveAll evp trace).2.cipherCtx).tag = (view inner.cipherCtx).tag := by
  obtain ⟨-, ⟨-, rfl⟩ | ⟨-, adds, hadds, rfl⟩⟩ := hinject.of_true
  · simpa using h
  · obtain ⟨hserved, -⟩ := inner.serveAll_of_not_isInner evp hadds
    rw [EvpInner.answered_append, hserved] at hanswered
    have hfold : adds.foldl Gcm.feed gcm = gcm := by
      rw [← Gcm.foldl_feed_filter, filter_of_not_isInner hadds]
      rfl
    have hupdate : InProgress scheme view (inner.serve evp manifestCall).2.2
        (gcm.feed manifestCall) (out ++ (inner.serve evp manifestCall).2.1) ∧
        (view (inner.serve evp manifestCall).2.2.cipherCtx).tag = (view inner.cipherCtx).tag :=
      h.update hlaw hanswered.2.1
    rw [EvpInner.serveAll_append, hserved, List.foldl_append, hfold]
    simpa using hupdate

/-- An answered final was a positive return value of libcrypto. -/
theorem ret_of_final {reply : Reply} (hanswered : (inner.serve evp (.final reply)).1 = .final reply)
    (hok : reply.ok = true) : 0 < (evp.cipherFinal inner.cipherCtx).1.1 := by
  obtain rfl : (inner.final evp).1 = reply := ExtCall.final.inj hanswered
  exact of_decide_eq_true hok

theorem final_encrypt (h : InProgress scheme view inner gcm out) (hlaw : evp.Lawful scheme view)
    (hencrypt : gcm.encrypt = true) {reply : Reply}
    (hanswered : (inner.serve evp (.final reply)).1 = .final reply) (hok : reply.ok = true) :
    (view (inner.serve evp (.final reply)).2.2.cipherCtx).finished = true ∧
      (view (inner.serve evp (.final reply)).2.2.cipherCtx).gcm = gcm := by
  obtain ⟨key, iv, hready, -⟩ := h.ready
  obtain rfl := h.gcm_eq
  have hview := hlaw.final_encrypt rfl (ret_of_final hanswered hok) hready hencrypt
  simp only [EvpInner.serve, EvpInner.final, hview]
  exact ⟨trivial, trivial⟩

end InProgress

/-! ### The invariant of a run -/

/-- What the calls wrote since the latest one that began a record. -/
def recordWritten (h : List ProviderEvent) : Bytes :=
  h.foldl (fun out ev => if ev.event.begins then ev.out else out ++ ev.out) []

theorem recordWritten_snoc (h : List ProviderEvent) (ev : ProviderEvent) :
    recordWritten (h ++ [ev]) = if ev.event.begins then ev.out else recordWritten h ++ ev.out := by
  simp [recordWritten]

/-- The inner context against the history. -/
structure Mirrors (scheme : Scheme) (view : σ → EvpView) (h : List ProviderEvent)
    (p : Provider σ) : Prop where
  key : p.ctx.keyValid = true → p.inner.initialized = true ∧
    (view p.inner.cipherCtx).gcm.key = (replay (Provider.events h)).key
  record : p.ctx.refuses = false →
    InProgress scheme view p.inner (replay (Provider.events h)) (recordWritten h)
  tag : p.ctx.refuses = false → p.ctx.decryptTagCurrent = true →
    (view p.inner.cipherCtx).tag = heldTag (Provider.events h)
  finished : p.ctx.phase = .finalized → p.ctx.needsReinit = false → p.ctx.encrypt = true →
    (view p.inner.cipherCtx).finished = true ∧
      (view p.inner.cipherCtx).gcm = replay (Provider.events h) ∧
      ∃ key iv, LatestKey (Provider.events h) key ∧ (replay (Provider.events h)).key = some key ∧
        (replay (Provider.events h)).iv = some iv ∧
        recordWritten h = scheme.crypt key iv 0 (replay (Provider.events h)).payload

namespace Mirrors

variable {h : List ProviderEvent} {p next : Provider σ} {ev : ProviderEvent}

/-- The key after one call. -/
theorem key_step (hlaw : evp.Lawful scheme view) (hstep : Provider.Step evp lib p ev next)
    (hkey : p.ctx.keyValid = true → p.inner.initialized = true ∧
      (view p.inner.cipherCtx).gcm.key = (replay (Provider.events h)).key)
    (hvalid : next.ctx.keyValid = true) :
    next.inner.initialized = true ∧ (view next.inner.cipherCtx).gcm.key =
      (replay (Provider.events (h ++ [ev]))).key := by
  have hinner : next.inner = (p.inner.serveAll evp ev.event.trace).2 :=
    congrArg Prod.snd hstep.served.symm
  have hanswered := hstep.answered
  rw [Provider.events_append, Provider.events_cons, Provider.events_nil, replay_snoc, hinner]
  have hkeyless {encrypt ok : Bool} {size : ℕ} {iv : Buffer} {params : Option (List Param)}
      {rest : List ExtCall} (hkeys : p.ctx.keyValid = true)
      (htrace : ev.event.trace = initRequest encrypt (.null size) iv params ok :: rest)
      (hrest : ∀ c ∈ rest, c.isInner = false) :
      (p.inner.serveAll evp ev.event.trace).2.initialized = true ∧
        (view (p.inner.serveAll evp ev.event.trace).2.cipherCtx).gcm.key =
          (ev.event.trace.foldl Gcm.feed (replay (Provider.events h))).key := by
    obtain ⟨hinit, hheld⟩ := hkey hkeys
    obtain ⟨hinit', hheld'⟩ := @EvpInner.serve_keyless _ evp scheme view p.inner encrypt ok iv params
      hlaw size hinit
    rw [htrace, EvpInner.serveAll_locks _ hrest, Gcm.feed_locks _ _ hrest]
    refine ⟨hinit', hheld'.trans (hheld.trans ?_)⟩
    cases ok <;> rfl
  cases (Cipher.step_cases hstep.cipher).keyCase with
  | kept htrace hkeys =>
      have hsame : next.ctx.keyValid = p.ctx.keyValid := congrArg Keys.keyValid hkeys
      obtain ⟨hinit, hheld⟩ := hkey (hsame.symm.trans hvalid)
      obtain ⟨hinit', hheld'⟩ := EvpInner.serveAll_key hlaw htrace
      exact ⟨hinit'.trans hinit,
        hheld'.trans (hheld.trans (Gcm.foldl_feed_key _ htrace).symm)⟩
  | @dropped encrypt ok key iv params rest hrest htrace hkeys =>
      have hsame : next.ctx.keyValid = (p.ctx.dropKey key).keyValid := congrArg Keys.keyValid hkeys
      cases key with
      | null size => exact hkeyless (hsame.symm.trans hvalid) htrace hrest
      | bytes k =>
          rw [hsame] at hvalid
          cases hvalid
  | @taken encrypt key iv params locks hlocks htrace hkeys =>
      have hrest := locks_not_isInner key true hlocks
      cases key with
      | null size =>
          have hsame : next.ctx.keyValid = p.ctx.keyValid := by
            obtain hkeys | hkeys := hkeys <;> exact congrArg Keys.keyValid hkeys
          exact hkeyless (hsame.symm.trans hvalid) htrace hrest
      | bytes k =>
          rw [htrace] at hanswered
          obtain ⟨hinit, hheld⟩ := EvpInner.serve_keyed hlaw hanswered.1
          rw [htrace, EvpInner.serveAll_locks _ hrest, Gcm.feed_locks _ _ hrest]
          exact ⟨hinit, hheld⟩

/-- A call that begins a record. -/
theorem begun (hlaw : evp.Lawful scheme view) {inner : EvpInner σ} {gcm : Gcm} {encrypt : Bool}
    {key : Buffer} {k v : Bytes} {params : Option (List Param)}
    (hanswered : (inner.serve evp (initRequest encrypt key (.bytes v) params true)).1 =
      initRequest encrypt key (.bytes v) params true)
    (hkey : (view (inner.serve evp
      (initRequest encrypt key (.bytes v) params true)).2.2.cipherCtx).gcm.key = some k)
    (hfed : (gcm.feed (initRequest encrypt key (.bytes v) params true)).key = some k) :
    InProgress scheme view (inner.serve evp (initRequest encrypt key (.bytes v) params true)).2.2
      (gcm.feed (initRequest encrypt key (.bytes v) params true)) [] ∧
    ∀ tag, tagBytes (filtered (ivOf params) (tagOf params)) = some tag →
      (view (inner.serve evp
        (initRequest encrypt key (.bytes v) params true)).2.2.cipherCtx).tag = some tag := by
  have hok := EvpInner.ret_of_answered hanswered
  simp only [Buffer.data?] at hok
  obtain ⟨hfinished, hgcm⟩ := hlaw.init_iv rfl hok
  refine ⟨⟨?_, k, v, ⟨hkey, ?_, hfinished⟩, rfl⟩, fun tag htag => hlaw.init_tag rfl hok htag⟩
  · refine hgcm.trans ?_
    simp only [initRequest, EvpInner.serve, EvpInner.init, Gcm.feed, Buffer.data?] at hkey hfed ⊢
    rw [hkey, hfed]
    rfl
  · exact congrArg Gcm.iv hgcm

/-- The record in progress after one call, and its tag. -/
theorem record_step (hlaw : evp.Lawful scheme view) (hm : Mirrors scheme view h p)
    (hstep : Provider.Step evp lib p ev next) {k : Bytes}
    (hkey : (view next.inner.cipherCtx).gcm.key = some k)
    (hreplay : (replay (Provider.events (h ++ [ev]))).key = some k)
    (hlive : next.ctx.refuses = false) :
    InProgress scheme view next.inner (replay (Provider.events (h ++ [ev])))
      (recordWritten (h ++ [ev])) ∧
    (next.ctx.decryptTagCurrent = true →
      (view next.inner.cipherCtx).tag = heldTag (Provider.events (h ++ [ev]))) := by
  obtain ⟨hout, hinner⟩ := Prod.mk.inj hstep.served
  have hanswered := hstep.answered
  rw [Provider.events_append, Provider.events_cons, Provider.events_nil, replay_snoc] at hreplay ⊢
  rw [heldTag_snoc, recordWritten_snoc, ← hout]
  rw [← hinner] at hkey ⊢
  cases live_cases (Cipher.step_cases hstep.cipher) hlive with
  | @begun encrypt key v params locks hcall hadmits hlocks hret htrace hnext =>
      have hrest := locks_not_isInner key true hlocks
      have hbegins : ev.event.begins = true := by
        simp [Event.begins, hcall, hret, Buffer.isNull]
      rw [htrace] at hanswered hkey hreplay ⊢
      rw [EvpInner.serveAll_locks _ hrest] at hkey ⊢
      rw [Gcm.feed_locks _ _ hrest] at hreplay ⊢
      rw [if_pos hbegins]
      obtain ⟨hprogress, htag⟩ := begun hlaw hanswered.1 hkey hreplay
      refine ⟨hprogress, fun hcurrent => ?_⟩
      obtain ⟨tag, htagOf⟩ : ∃ tag, tagOf params = some tag := by
        rw [hnext] at hcurrent
        simp only [Ctx.beginRecord, Bool.and_eq_true] at hcurrent
        exact Option.isSome_iff_exists.mp hcurrent.2
      obtain ⟨data, -, -, hbytes⟩ := tagBytes_of_isTag (ivOf params) (hadmits.tag tag htagOf).2.2
      rw [← htagOf] at hbytes
      have hlocks' : ∀ c ∈ recordTrace key true ++ locks, c.tag? = none := fun c hc =>
        tag?_of_not_isInner (hrest c hc)
      rw [htag data hbytes, List.foldl_cons, foldl_holdTag _ hlocks']
      simp [holdTag, initRequest, ExtCall.tag?, hbytes]
  | idle tagCurrent hrefuses hbegins htrace _ htag hnext =>
      rw [htrace, if_neg (by simp [hbegins])]
      refine ⟨by simpa using hm.record hrefuses, fun hcurrent => ?_⟩
      rw [hnext] at hcurrent
      exact hm.tag hrefuses (htag hcurrent).1
  | @tagged params tag hrefuses hcall _ hok _ htrace hnext =>
      have hbegins : ev.event.begins = false := by simp [Event.begins, hcall]
      obtain ⟨data, -, -, hbytes⟩ := tagBytes_of_isTag (ivOf params) hok
      rw [htrace] at hanswered ⊢
      simp only [EvpInner.Answered, EvpInner.serve, EvpInner.setParams, ExtCall.setParams.injEq,
        decide_eq_true_eq, true_and, and_true] at hanswered
      have hview := hlaw.setParams_tag rfl hanswered hbytes
      obtain ⟨hgcm, key, iv, hready, hwritten⟩ := hm.record hrefuses
      rw [hbegins, EvpInner.serveAll_single]
      simp only [EvpInner.serve, EvpInner.setParams, hview]
      refine ⟨⟨?_, key, iv, ?_, ?_⟩, fun _ => ?_⟩
      · rw [hview]
        exact hgcm
      · rw [hview]
        exact ⟨hready.key_eq, hready.iv_eq, hready.finished_eq⟩
      · exact (List.append_nil _).trans hwritten
      · simp [holdTag, ExtCall.tag?, hbytes]
  | @fed out hasOutl outsize data trace injected hrefuses hcall _ _ hinject _ htrace hnext =>
      have hbegins : ev.event.begins = false := by simp [Event.begins, hcall]
      rw [htrace, EvpInner.answered_append] at hanswered
      obtain ⟨hfirst, htag⟩ := (hm.record hrefuses).inject hlaw hinject hanswered.1
      obtain ⟨hprogress, htag'⟩ := hfirst.update hlaw hanswered.2.1
      rw [htrace, hbegins, List.foldl_append, EvpInner.serveAll_append,
        EvpInner.serveAll_single, ← List.append_assoc]
      refine ⟨hprogress, fun hcurrent => ?_⟩
      obtain ⟨⟨records, isReserved, rfl⟩, -⟩ := hinject.of_true
      rw [hnext] at hcurrent
      rw [List.foldl_append, foldl_holdTag _ hinject.tag?_eq_none]
      exact (htag'.trans htag).trans (hm.tag hrefuses hcurrent)

/-- A finished encryption record after one call. -/
theorem finished_step {L : ℤ} {fresh : σ} (hlaw : evp.Lawful scheme view)
    (run : Path (Provider.Step evp lib) (Provider.new L fresh) h p)
    (hm : Mirrors scheme view h p) (hstep : Provider.Step evp lib p ev next)
    (hphase : next.ctx.phase = .finalized) (hinit : next.ctx.needsReinit = false)
    (hencrypt : next.ctx.encrypt = true) :
    (view next.inner.cipherCtx).finished = true ∧
      (view next.inner.cipherCtx).gcm = replay (Provider.events (h ++ [ev])) ∧
      ∃ key iv, LatestKey (Provider.events (h ++ [ev])) key ∧
        (replay (Provider.events (h ++ [ev]))).key = some key ∧
        (replay (Provider.events (h ++ [ev]))).iv = some iv ∧
        recordWritten (h ++ [ev]) =
          scheme.crypt key iv 0 (replay (Provider.events (h ++ [ev]))).payload := by
  obtain ⟨hout, hinner⟩ := Prod.mk.inj hstep.served
  have hanswered := hstep.answered
  rw [Provider.events_append, Provider.events_cons, Provider.events_nil, replay_snoc,
    recordWritten_snoc, ← hout, ← hinner]
  cases finished_cases (Cipher.step_cases hstep.cipher) hphase hinit with
  | @final hasOutl trace injected hcall hrefuses hinject hret htrace hsame =>
      have hbegins : ev.event.begins = false := by simp [Event.begins, hcall]
      obtain ⟨pre, first, mid, hfed⟩ := run_fed (Provider.path_cipher run) hrefuses
      obtain ⟨key, hlatest, hreplay⟩ :=
        hfed.replay_eq (run_keyInv (Provider.path_cipher run)) hrefuses
      have hinjected := hfed.injected hinject hreplay
      rw [htrace, EvpInner.answered_append] at hanswered
      obtain ⟨hprogress, -⟩ := (hm.record hrefuses).inject hlaw hinject hanswered.1
      have hfold : ev.event.trace.foldl Gcm.feed (replay (Provider.events h)) =
          trace.foldl Gcm.feed (replay (Provider.events h)) := by
        rw [htrace, List.foldl_append]
        rfl
      rw [hinjected] at hprogress hfold
      obtain ⟨key', iv, hready, hwritten⟩ := hprogress.ready
      have hkey : some key' = some key := by
        rw [← hready.key_eq, hprogress.gcm_eq]
      obtain rfl := Option.some.inj hkey
      have hiv : first.iv? = some iv := by
        rw [← hready.iv_eq, hprogress.gcm_eq]
      have hdirection : first.encrypts = true := (hfed.encrypts.trans hsame.symm).trans hencrypt
      obtain ⟨hfinished, hgcm⟩ := hprogress.final_encrypt hlaw hdirection hanswered.2.1 rfl
      rw [if_neg (by simp [hbegins]), hfold, htrace, EvpInner.serveAll_append,
        EvpInner.serveAll_single]
      refine ⟨hfinished, hgcm, key', iv, hlatest.snoc ?_, rfl, hiv, ?_⟩
      · rw [Event.offersKey, htrace]
        exact offersKey_of_not_isInit (not_isInit_snoc hinject.frame.2 rfl)
      · rw [← hwritten, ← List.append_assoc]
        exact List.append_nil _
  | kept hphase hinit hbegins hfetches hsame =>
      obtain ⟨hfinished, hgcm, key, iv, hlatest, hkey, hiv, hwritten⟩ :=
        hm.finished hphase hinit (hsame.symm.trans hencrypt)
      obtain ⟨hempty, hview⟩ := EvpInner.serveAll_fetches hlaw hfetches
      rw [hempty, hview, Gcm.feed_fetches _ hfetches, if_neg (by simp [hbegins]), List.append_nil]
      refine ⟨hfinished, hgcm, key, iv, hlatest.snoc ?_, hkey, hiv, hwritten⟩
      apply offersKey_of_not_isInit
      intro c hc
      obtain ⟨reply, rfl⟩ := hfetches c hc
      rfl

end Mirrors

/-- The tag requests since the final have not changed what the inner context was given. -/
theorem FinishedRecord.replay_eq {h pre mid since : List Event} {encrypt : Bool} {first fin : Event}
    (hf : FinishedRecord h encrypt pre first mid fin since) :
    ∃ key, replay h = ⟨some key, first.iv?, encrypt, manifest ++ (chunks false mid).flatten,
      (chunks true mid).flatten⟩ := by
  obtain ⟨key, hcontents⟩ := hf.contents
  have hcut : h = (pre ++ first :: (mid ++ [fin])) ++ since := by simp [hf.record.eq]
  refine ⟨key, ?_⟩
  rw [hcut, replay_append, hcontents, Gcm.feed_fetches]
  intro c hc
  obtain ⟨ev, hev, hc⟩ := List.mem_flatMap.mp hc
  exact hf.fetches ev hev c hc

theorem run_mirrors {L : ℤ} {fresh : σ} {h : List ProviderEvent} {p : Provider σ}
    (hlaw : evp.Lawful scheme view)
    (run : Path (Provider.Step evp lib) (Provider.new L fresh) h p) :
    Mirrors scheme view h p := by
  refine run.invariant (P := Mirrors scheme view) ?_ ?_
  · constructor <;> intro hnew <;> cases hnew
  intro h p ev next hrun hm hstep
  have hafter := Provider.path_cipher (hrun.snoc hstep)
  -- a live record has a valid key
  have hrecord (hlive : next.ctx.refuses = false) :
      InProgress scheme view next.inner (replay (Provider.events (h ++ [ev])))
        (recordWritten (h ++ [ev])) ∧
      (next.ctx.decryptTagCurrent = true →
        (view next.inner.cipherCtx).tag = heldTag (Provider.events (h ++ [ev]))) := by
    obtain ⟨pre, first, mid, hfed⟩ := run_fed hafter hlive
    obtain ⟨key, -, hreplay⟩ := run_keyInv hafter hfed.keyValid
    have hheld := (Mirrors.key_step hlaw hstep hm.key hfed.keyValid).2
    exact hm.record_step hlaw hstep (hheld.trans hreplay) hreplay hlive
  exact ⟨Mirrors.key_step hlaw hstep hm.key, fun hlive => (hrecord hlive).1,
    fun hlive => (hrecord hlive).2, Mirrors.finished_step hlaw hrun hm hstep⟩

/-! ### The two ends of a record -/

/-- **Encryption.**  A request for context parameters leaves the caller's tag buffers as they are,
or it fills the one there is with the tag of the finished record: what the calls of this record
wrote and that tag are the AEAD encryption, under the latest key and the IV of the record, of the
caller's payload with the manifest and the caller's associated data. -/
theorem released_tag {L : ℤ} {fresh : σ} {h : List ProviderEvent} {p next : Provider σ}
    {ev : ProviderEvent} {params : List Param} (hlaw : evp.Lawful scheme view)
    (run : Path (Provider.Step evp lib) (Provider.new L fresh) h p)
    (hstep : Provider.Step evp lib p ev next) (hcall : ev.event.call = .getCtxParams (some params)) :
    ∃ after, ev.event.params = some after ∧ (tagBuffers after = tagBuffers params ∨
      ∃ pre first mid fin since key iv tag,
        FinishedRecord (Provider.events h) true pre first mid fin since ∧
        LatestKey (Provider.events h) key ∧ first.iv? = some iv ∧
        tagBuffers after = [.bytes tag.toList] ∧
        scheme.encrypt key iv (manifest ++ (chunks false mid).flatten) (chunks true mid).flatten =
          (recordWritten h, tag)) := by
  have hcase := Cipher.step_cases hstep.cipher
  have hanswered := hstep.answered
  obtain ⟨ans, hcipher⟩ := hstep.cipher
  obtain ⟨⟨call, ret, outl, given, raised, trace⟩, out⟩ := ev
  obtain rfl : call = .getCtxParams (some params) := hcall
  simp only [Cipher.step] at hcipher
  generalize hget : getCtxParams lib ans (some params) p.ctx = r at hcipher
  obtain ⟨ret', after, e⟩ := r
  simp only [Prod.mk.injEq, Event.mk.injEq, true_and] at hcipher
  obtain ⟨⟨rfl, -, rfl, rfl, rfl⟩, -⟩ := hcipher
  obtain ⟨params', rfl, hsame | ⟨-, hfetched, buffer, -, -, -, hnew⟩⟩ := getCtxParams_buffers hget
  · exact ⟨params', rfl, .inl hsame⟩
  refine ⟨params', rfl, .inr ?_⟩
  obtain ⟨hinit, hencrypt, hphase⟩ :
      p.ctx.needsReinit = false ∧ p.ctx.encrypt = true ∧ p.ctx.phase = .finalized := by
    cases hcase with
    | getCtxParams _ hcase =>
        cases hcase with
        | quiet _ htrace => simp [hfetched.asked] at htrace
        | failed _ hinit hencrypt hphase => exact ⟨hinit, hencrypt, hphase⟩
        | fetched _ hinit hencrypt hphase => exact ⟨hinit, hencrypt, hphase⟩
    | _ hother => simp at hother
  obtain ⟨pre, first, mid, fin, since, hf⟩ := run_finished (Provider.path_cipher run) hphase hinit
  rw [hencrypt] at hf
  obtain ⟨hfinished, hgcm, key, iv, hlatest, hkey, hiv, hwritten⟩ :=
    (run_mirrors hlaw run).finished hphase hinit hencrypt
  obtain ⟨key', hreplay⟩ := hf.replay_eq
  rw [hreplay] at hgcm hkey hiv hwritten
  obtain rfl : key' = key := Option.some.inj hkey
  have htag : ans.getParams.tag = scheme.mac key' iv (manifest ++ (chunks false mid).flatten)
      (scheme.crypt key' iv 0 (chunks true mid).flatten) := by
    have hreply : (p.inner.getParams evp).1 = ans.getParams := by
      rw [hfetched.asked] at hanswered
      exact ExtCall.getParams.inj hanswered.1
    have hok : 0 < (evp.getParams p.inner.cipherCtx).1.1 := by
      have hok := hfetched.ok
      rw [← hreply] at hok
      exact of_decide_eq_true hok
    have hmac := hlaw.getParams_tag rfl hok hfinished (by rw [hgcm]) (by rw [hgcm])
      (by rw [hgcm]; exact hiv)
    rw [hgcm] at hmac
    rw [← hreply]
    exact hmac
  refine ⟨pre, first, mid, fin, since, key', iv, ans.getParams.tag, hf, hlatest, hiv, hnew, ?_⟩
  rw [StreamAead.encrypt, hwritten, htag]

/-! ### The known-answer test -/

def katKey : Bytes := (List.range keyLength).map UInt8.ofNat
def katIv : Bytes := (List.range ivLength).map UInt8.ofNat
def katAad : Bytes := [0x17, 0x03, 0x03, 0x00, 0x20]
def katPlaintext : Bytes := beBytes 16 0x000102030405060708090a0b0c0d0e17
def katCiphertext : Bytes := beBytes 16 0x4703d418c1e0c41c85489d80bde4767a
def katTag : Vector UInt8 tagLength := beVector tagLength 0xd13e690f20bc38923ea2b854e258e32d

/-- AES-256-GCM on the known-answer test of the source; elsewhere key stream and tag are zero. -/
def knownAnswer : Scheme where
  stream key iv n :=
    if key = katKey ∧ iv = katIv then (xorBytes katPlaintext katCiphertext).getD n 0 else 0
  mac key iv aad ciphertext :=
    if key = katKey ∧ iv = katIv ∧ aad = manifest ++ katAad ∧ ciphertext = katCiphertext then katTag
    else Vector.replicate tagLength 0

/-- An `EVP_CIPHER_CTX` just made. -/
def EvpView.fresh : EvpView := ⟨false, ⟨none, none, false, [], []⟩, none, false⟩

/-- Locks and counter always answer, and the inner context is one of `knownAnswer`. -/
def runKnownAnswer (calls : List Call) : List ProviderEvent × Provider EvpView :=
  exec (Provider.step (EvpView.evp knownAnswer) littleEndian)
    (Provider.new encryptRecordLimit .fresh) (calls.map (⟨true, true, true⟩, ·))

def sealCalls : List Call :=
  [.init true (.bytes katKey) (.bytes katIv) none, .update false true 0 (.bytes katAad),
    .update true true 16 (.bytes katPlaintext), .final true]

theorem released_tag_knownAnswer :
    let run := runKnownAnswer sealCalls
    let buffer := constructOctetString aeadTag (.bytes (List.replicate tagLength 0))
    let get := Provider.step (EvpView.evp knownAnswer) littleEndian run.2
      (⟨true, true, true⟩, .getCtxParams (some [buffer]))
    get.1.event.params.map tagBuffers = some [.bytes katTag.toList] ∧
      ∃ key iv mid, knownAnswer.encrypt key iv (manifest ++ (chunks false mid).flatten)
        (chunks true mid).flatten = (katCiphertext, katTag) := by
  intro run buffer get
  have hfilled : get.1.event.params.map tagBuffers = some [.bytes katTag.toList] := by
    decide +kernel
  have hwritten : recordWritten run.1 = katCiphertext := by decide +kernel
  obtain ⟨after, hafter, hcase⟩ := released_tag (EvpView.lawful knownAnswer)
    (Provider.path_execute (EvpView.evp knownAnswer) littleEndian _ _)
    (Provider.step_self (EvpView.evp knownAnswer) littleEndian run.2
      (⟨true, true, true⟩, .getCtxParams (some [buffer]))) (Provider.step_call _ _ _ _)
  have hbuffers : tagBuffers after = [.bytes katTag.toList] := by
    apply Option.some.inj
    rw [← hfilled]
    exact (congrArg (Option.map tagBuffers) hafter).symm
  refine ⟨hfilled, ?_⟩
  rcases hcase with hkept | ⟨-, -, mid, -, -, key, iv, tag, -, -, -, hnew, hsealed⟩
  · rw [hbuffers] at hkept
    exact absurd hkept (by decide +kernel)
  · rw [hbuffers, List.singleton_inj, Buffer.bytes.injEq] at hnew
    obtain rfl := Vector.toList_inj.mp hnew
    refine ⟨key, iv, mid, ?_⟩
    rw [← hwritten]
    exact hsealed

/-! ### The final of a decryption record -/

/-- The write key has room for the record in progress. -/
def Ctx.hasRoom (ctx : Ctx) : Bool :=
  ctx.recordReserved || (ctx.usageKeyValid && !ctx.usageExhausted &&
    decide (wrapInt (ctx.encryptedRecords + 1) ≤ ctx.recordLimit))

/-- The injection of the manifest succeeds, for encryption if there is room and the counter
counts. -/
theorem inject_succeeds {p : Provider σ} {next : Ctx} {trace : List ExtCall}
    {raised : List Reason} {gcm : Gcm} {out : Bytes} (hserving : evp.Serving scheme view)
    (hprogress : InProgress scheme view p.inner gcm out)
    (hroom : p.ctx.encrypt = true →
      p.ctx.hasRoom = true ∧ ∀ c ∈ trace, c.isInner = false → c.fails = false)
    (hempty : p.ctx.phase = .manifestPending → gcm.aad = [] ∧ gcm.payload = [])
    (hinject : Inject p.ctx trace raised false next)
    (hanswered : p.inner.Answered evp trace) : False := by
  unfold Ctx.hasRoom at hroom
  cases hinject with
  | exhausted _ hencrypt hreserved hcause =>
      obtain ⟨hroom, -⟩ := hroom hencrypt
      obtain hcause | hcause := hcause <;> simp [hreserved, hcause] at hroom
  | atomicFailed _ hencrypt =>
      have hcounts := (hroom hencrypt).2 (.atomicAdd false) (by simp) rfl
      cases hcounts
  | overLimit _ hencrypt hreserved _ _ hlimit =>
      obtain ⟨hroom, -⟩ := hroom hencrypt
      simp only [hreserved, Bool.false_or, Bool.and_eq_true, decide_eq_true_eq] at hroom
      omega
  | @manifestFailed adds _ reply _ hphase hreserved hreply =>
      obtain ⟨haad, hpayload⟩ := hempty hphase
      obtain ⟨key, iv, hready, -⟩ := hprogress.ready
      have htakes : (view p.inner.cipherCtx).gcm.Takes false manifest.length := by
        rw [hprogress.gcm_eq, Gcm.Takes, haad, hpayload]
        decide
      obtain ⟨ret, written, after, hret, hupdate⟩ := hserving.update_ok hready htakes
      obtain ⟨hserved, -⟩ := p.inner.serveAll_of_not_isInner evp hreserved.frame.2
      rw [EvpInner.answered_append, hserved] at hanswered
      have hanswer := hanswered.2.1
      simp only [EvpInner.serve, EvpInner.update, hupdate, ExtCall.update.injEq, true_and] at hanswer
      apply hreply
      rw [← hanswer, decide_eq_true hret]
      rfl

/-- **Decryption.**  With a current tag, the final of a decryption record decides the AEAD
decryption, under the latest key and the IV of the record, of what the caller gave as payload,
with the manifest and the caller's associated data, against that tag.  It succeeds exactly when
the decryption does; what the calls of the record wrote is then the plaintext.  When it fails,
the context takes no more of this record. -/
theorem decided_final {L : ℤ} {fresh : σ} {h : List ProviderEvent} {p next : Provider σ}
    {ev : ProviderEvent} (hlaw : evp.Lawful scheme view) (hserving : evp.Serving scheme view)
    (run : Path (Provider.Step evp lib) (Provider.new L fresh) h p)
    (hstep : Provider.Step evp lib p ev next) (hcall : ev.event.call = .final true)
    (hlive : p.ctx.refuses = false) (hdecrypt : p.ctx.encrypt = false)
    (hcurrent : p.ctx.decryptTagCurrent = true) :
    ∃ pre first mid key iv, ∃ tag : Vector UInt8 tagLength,
      InRecord (Provider.events h) pre first mid ∧ LatestKey (Provider.events h) key ∧
      first.iv? = some iv ∧ FreshTag (Provider.events h) tag.toList ∧
      (ev.event.ret = true ↔ scheme.decrypt key iv (manifest ++ (chunks false mid).flatten)
        (chunks true mid).flatten tag = some (recordWritten h)) ∧
      (ev.event.ret = false → next.ctx.needsReinit = true) := by
  have hcipher := Provider.path_cipher run
  have hm := run_mirrors hlaw run
  obtain ⟨pre, first, mid, hfed⟩ := run_fed hcipher hlive
  obtain ⟨key, hlatest, hreplay⟩ := hfed.replay_eq (run_keyInv hcipher) hlive
  have hprogress := hm.record hlive
  obtain ⟨key', iv, hready, hwritten⟩ := hprogress.ready
  have hkey : some key' = some key := by rw [← hready.key_eq, hprogress.gcm_eq, hreplay]
  obtain rfl := Option.some.inj hkey
  have hiv : first.iv? = some iv := by rw [← hready.iv_eq, hprogress.gcm_eq, hreplay]
  obtain ⟨-, held, hfresh, hheld⟩ := run_tagInv hcipher hlive hcurrent
  have hview := (hm.tag hlive hcurrent).trans hheld
  -- the tag as a value of its fixed length
  obtain ⟨tag, rfl⟩ : ∃ tag : Vector UInt8 tagLength, tag.toList = held :=
    ⟨⟨held.toArray, by simpa using hfresh.length⟩, by simp⟩
  refine ⟨pre, first, mid, key', iv, tag, hfed.record, hlatest, hiv, hfresh, ?_⟩
  rw [hwritten, hreplay]
  have hdecrypts : scheme.decrypt key' iv (manifest ++ (chunks false mid).flatten)
      (chunks true mid).flatten tag = some (scheme.crypt key' iv 0 (chunks true mid).flatten) ↔
      scheme.mac key' iv (manifest ++ (chunks false mid).flatten) (chunks true mid).flatten =
        tag := by
    unfold StreamAead.decrypt
    split <;> simp [*]
  rw [hdecrypts]
  obtain ⟨hasOutl, hfinal, hcase⟩ : ∃ hasOutl, ev.event.call = .final hasOutl ∧
      FinalCase p.ctx hasOutl ev.event next.ctx := by
    cases Cipher.step_cases hstep.cipher with
    | final hfinal hcase => exact ⟨_, hfinal, hcase⟩
    | _ hother => simp [hcall] at hother
  obtain rfl := Call.final.inj (hcall.symm.trans hfinal)
  have hanswered := hstep.answered
  -- the inner context when its own final comes
  have hready {trace : List ExtCall} {injected : Ctx} {reply : Reply}
      (hinject : Inject p.ctx trace [] true injected)
      (htrace : ev.event.trace = trace ++ [.final reply]) :
      ∃ inner : EvpInner σ, (inner.serve evp (.final reply)).1 = .final reply ∧
        (view inner.cipherCtx).Ready key' iv ∧ (view inner.cipherCtx).gcm = ⟨some key', some iv,
          false, manifest ++ (chunks false mid).flatten, (chunks true mid).flatten⟩ ∧
        (view inner.cipherCtx).tag = some tag.toList := by
    rw [htrace, EvpInner.answered_append] at hanswered
    obtain ⟨hinjected, htag⟩ := hprogress.inject hlaw hinject hanswered.1
    rw [hfed.injected hinject hreplay, hfed.encrypts, hdecrypt, hiv] at hinjected
    obtain ⟨key, iv', hready', -⟩ := hinjected.ready
    have hgcm := hinjected.gcm_eq
    refine ⟨_, hanswered.2.1, ⟨by rw [hgcm], by rw [hgcm], hready'.finished_eq⟩, hgcm,
      htag.trans hview⟩
  cases hcase with
  | refused hrefuses => simp [hlive] at hrefuses
  | poisoned _ hcause => simp [hcurrent] at hcause
  | injectFailed _ _ _ hinject =>
      refine (inject_succeeds hserving hprogress (fun hencrypt => by simp [hdecrypt] at hencrypt)
        (fun hphase => ?_) hinject hanswered).elim
      rw [hreplay, hphase, (hfed.pending hphase).2]
      exact ⟨rfl, by rw [(hfed.pending hphase).2]; rfl⟩
  | failed reply _ _ _ hinject hreply hret htrace _ hnext =>
      obtain ⟨inner, hanswer, hready, hgcm, htag⟩ := hready hinject htrace
      refine ⟨⟨fun htrue => by simp [hret] at htrue, fun hmac => ?_⟩, fun _ => by rw [hnext]; rfl⟩
      have hheld : (view inner.cipherCtx).tag = some (scheme.mac key' iv
          (view inner.cipherCtx).gcm.aad (view inner.cipherCtx).gcm.payload).toList := by
        rw [htag, hgcm, hmac]
      obtain ⟨ret, after, hok, hfinal⟩ :=
        hserving.final_decrypt_ok hready (by rw [hgcm]) hheld
      simp only [EvpInner.serve, EvpInner.final, hfinal, ExtCall.final.injEq] at hanswer
      refine (hreply (hanswer.symm.trans ?_)).elim
      rw [decide_eq_true hok]
  | done _ _ _ hinject hret htrace =>
      obtain ⟨inner, hanswer, hready, hgcm, htag⟩ := hready hinject htrace
      refine ⟨⟨fun _ => ?_, fun _ => hret⟩, fun hfalse => by simp [hret] at hfalse⟩
      have hmac := hlaw.final_decrypt rfl (InProgress.ret_of_final hanswer rfl) hready
        (by rw [hgcm]) htag
      rw [hgcm] at hmac
      exact Vector.toList_inj.mp hmac

def openCalls : List Call :=
  [.init false (.bytes katKey) (.bytes katIv)
      (some [constructOctetString aeadTag (.bytes katTag.toList)]),
    .update false true 0 (.bytes katAad), .update true true 16 (.bytes katCiphertext)]

theorem decided_final_knownAnswer :
    let run := runKnownAnswer openCalls
    let final := Provider.step (EvpView.evp knownAnswer) littleEndian run.2
      (⟨true, true, true⟩, .final true)
    final.1.event.ret = true ∧ ∃ key iv aad ciphertext tag,
      knownAnswer.decrypt key iv aad ciphertext tag = some katPlaintext := by
  intro run final
  have hret : final.1.event.ret = true := by decide +kernel
  have hwritten : recordWritten run.1 = katPlaintext := by decide +kernel
  obtain ⟨-, -, mid, key, iv, tag, -, -, -, -, hiff, -⟩ :=
    decided_final (EvpView.lawful knownAnswer) (EvpView.serving knownAnswer)
      (Provider.path_execute (EvpView.evp knownAnswer) littleEndian _ _)
      (Provider.step_self (EvpView.evp knownAnswer) littleEndian run.2
        (⟨true, true, true⟩, .final true)) (Provider.step_call _ _ _ _) (by decide +kernel)
      (by decide +kernel) (by decide +kernel)
  exact ⟨hret, key, iv, _, _, tag, (hiff.mp hret).trans (congrArg some hwritten)⟩

end G301.Outer
