import G301.Outer.Records
import G301.Outer.Execution

/-! # The byte contract of a record

`final_contract`: when final succeeds, the inner context has seen, since the init that began
the record, the manifest, the caller's associated data, the caller's payload and one final,
in this order and nothing else; its key is that of the latest init that gave it one.

`Gcm` is the inner context as an accumulator of what reaches it, `replay` its value after a
history.  `Fed` is the invariant of a pending or active record, `LatestKey` that of the
key. -/

namespace G301.Outer

open ByteString Param Lts

/-! ### The inner context as an accumulator -/

structure Gcm where
  key : Option Bytes
  iv : Option Bytes
  encrypt : Bool
  aad : Bytes
  payload : Bytes
deriving DecidableEq, Repr

/-- The effect of one request; an init that fails loses its IV and the key it was given. -/
def Gcm.feed (gcm : Gcm) : ExtCall → Gcm
  | .init key iv encrypt _ true => ⟨key <|> gcm.key, iv <|> gcm.iv, encrypt, [], []⟩
  | .init key _ encrypt _ false => ⟨if key.isSome then none else gcm.key, none, encrypt, [], []⟩
  | .update false data ⟨true, _⟩ => { gcm with aad := gcm.aad ++ data }
  | .update true data ⟨true, _⟩ => { gcm with payload := gcm.payload ++ data }
  | _ => gcm

/-- The inner context after a history. -/
def replay (h : List Event) : Gcm :=
  (h.flatMap Event.trace).foldl Gcm.feed ⟨none, none, false, [], []⟩

theorem replay_append (h h' : List Event) :
    replay (h ++ h') = (h'.flatMap Event.trace).foldl Gcm.feed (replay h) := by
  simp [replay]

theorem Gcm.feed_of_not_isInner (gcm : Gcm) {c : ExtCall} (h : c.isInner = false) :
    gcm.feed c = gcm := by
  cases c <;> first | rfl | cases h

theorem Gcm.feed_of_deliversTag (gcm : Gcm) {c : ExtCall} (h : c.deliversTag = true) :
    gcm.feed c = gcm := by
  cases c <;> first | rfl | cases h

/-- Locks, counters and tag deliveries do not matter. -/
theorem Gcm.foldl_feed_filter (gcm : Gcm) (trace : List ExtCall) :
    (trace.filter fun c => c.isInner && !c.deliversTag).foldl Gcm.feed gcm =
      trace.foldl Gcm.feed gcm := by
  induction trace generalizing gcm with
  | nil => rfl
  | cons c trace ih =>
      rw [List.foldl_cons, List.filter_cons]
      split
      case isTrue => rw [List.foldl_cons, ih]
      case isFalse hc =>
        have hkept : gcm.feed c = gcm := by
          cases hinner : c.isInner with
          | false => exact gcm.feed_of_not_isInner hinner
          | true => exact gcm.feed_of_deliversTag (by simpa [hinner] using hc)
        rw [ih, hkept]

theorem Gcm.foldl_feed_dataCall_aad (gcm : Gcm) (datas : List Bytes) :
    (datas.map (dataCall false)).foldl Gcm.feed gcm =
      { gcm with aad := gcm.aad ++ datas.flatten } := by
  induction datas generalizing gcm with
  | nil => simp
  | cons data datas ih => simp [ih, dataCall, feed]

theorem Gcm.foldl_feed_dataCall_payload (gcm : Gcm) (datas : List Bytes) :
    (datas.map (dataCall true)).foldl Gcm.feed gcm =
      { gcm with payload := gcm.payload ++ datas.flatten } := by
  induction datas generalizing gcm with
  | nil => simp
  | cons data datas ih => simp [ih, dataCall, feed]

theorem Gcm.foldl_feed_key (gcm : Gcm) {trace : List ExtCall} (h : ∀ c ∈ trace, c.isInit = false) :
    (trace.foldl Gcm.feed gcm).key = gcm.key := by
  induction trace generalizing gcm with
  | nil => rfl
  | cons c trace ih =>
      rw [List.foldl_cons, ih _ fun x hx => h x (List.mem_cons_of_mem _ hx)]
      have hc := h c (by simp)
      cases c with
      | init => cases hc
      | update out data reply =>
          obtain ⟨ok, outl⟩ := reply
          cases out <;> cases ok <;> rfl
      | _ => rfl

/-! ### The key -/

/-- The request gives the inner context a key. -/
def ExtCall.offersKey : ExtCall → Bool
  | init key .. => key.isSome
  | _ => false

def Event.offersKey (ev : Event) : Bool := ev.trace.any ExtCall.offersKey

/-- `key` is that of the latest init that gave the inner context one, and that init's inner
init and key recording both succeeded. -/
def LatestKey (h : List Event) (key : Bytes) : Prop :=
  ∃ pre ev post, h = pre ++ ev :: post ∧ ev.recordsKey = some key ∧
    ∀ x ∈ post, x.offersKey = false

theorem LatestKey.snoc {h : List Event} {key : Bytes} (hk : LatestKey h key) {ev : Event}
    (hev : ev.offersKey = false) : LatestKey (h ++ [ev]) key := by
  obtain ⟨pre, x, post, rfl, hx, hpost⟩ := hk
  refine ⟨pre, x, post ++ [ev], by simp, hx, fun y hy => ?_⟩
  obtain hy | hy := List.mem_append.mp hy
  · exact hpost y hy
  · rw [List.mem_singleton.mp hy]
    exact hev

/-- A valid key is the latest one, and the one the inner context holds. -/
def KeyInv (h : List Event) (ctx : Ctx) : Prop :=
  ctx.keyValid = true → ∃ key, LatestKey h key ∧ (replay h).key = some key

theorem offersKey_of_not_isInit {trace : List ExtCall} (h : ∀ c ∈ trace, c.isInit = false) :
    trace.any ExtCall.offersKey = false := by
  rw [List.any_eq_false]
  intro c hc
  have hinit := h c hc
  cases c <;> first | exact Bool.false_ne_true | cases hinit

theorem replay_snoc (h : List Event) (ev : Event) :
    replay (h ++ [ev]) = ev.trace.foldl Gcm.feed (replay h) := by
  rw [replay_append]
  simp

/-- Without a new key the invariant stays. -/
theorem KeyInv.keep {h : List Event} {ctx next : Ctx} {ev : Event} (hinv : KeyInv h ctx)
    (hvalid : next.keyValid = ctx.keyValid) (hoffers : ev.offersKey = false)
    (hkey : (replay (h ++ [ev])).key = (replay h).key) : KeyInv (h ++ [ev]) next := by
  intro hnext
  obtain ⟨key, hlatest, hreplay⟩ := hinv (hvalid.symm.trans hnext)
  exact ⟨key, hlatest.snoc hoffers, hkey.trans hreplay⟩

/-- An init without a key, whatever the inner context answers. -/
theorem KeyInv.keyless {h : List Event} {ctx next : Ctx} {ev : Event} (hinv : KeyInv h ctx)
    {encrypt ok : Bool} {size : ℕ} {iv : Buffer} {params : Option (List Param)}
    {rest : List ExtCall}
    (htrace : ev.trace = initRequest encrypt (.null size) iv params ok :: rest)
    (hrest : ∀ c ∈ rest, c.isInit = false) (hvalid : next.keyValid = ctx.keyValid) :
    KeyInv (h ++ [ev]) next := by
  apply hinv.keep hvalid
  · rw [Event.offersKey, htrace, List.any_cons, offersKey_of_not_isInit hrest]
    rfl
  · rw [replay_snoc, htrace, List.foldl_cons, Gcm.foldl_feed_key _ hrest]
    cases ok <;> rfl

/-- An init whose inner init and whose recording of the key, if it has one, succeed. -/
theorem KeyInv.taken {h : List Event} {ctx next : Ctx} {ev : Event} (hinv : KeyInv h ctx)
    {encrypt : Bool} {key iv : Buffer} {params : Option (List Param)} {rest : List ExtCall}
    (htrace : ev.trace =
      initRequest encrypt key iv params true :: (recordTrace key true ++ rest))
    (hrest : ∀ c ∈ rest, c.isInner = false)
    (hvalid : next.keyValid = (ctx.takeKey encrypt key).keyValid) : KeyInv (h ++ [ev]) next := by
  have hrest : ∀ c ∈ rest, c.isInit = false := fun c hc => isInit_of_not_isInner (hrest c hc)
  cases key with
  | null size => exact hinv.keyless htrace hrest hvalid
  | bytes k =>
      intro _
      refine ⟨k, ⟨h, ev, [], rfl, ?_, by simp⟩, ?_⟩
      · rw [Event.recordsKey, htrace]
        rfl
      · rw [replay_snoc, htrace, List.foldl_cons, List.foldl_append, Gcm.foldl_feed_key _ hrest]
        rfl

theorem KeyInv.step {h : List Event} {ctx next : Ctx} {ev : Event} (hinv : KeyInv h ctx)
    (hcase : StepCase ctx ev next) : KeyInv (h ++ [ev]) next := by
  cases hcase.keyCase with
  | kept htrace hkeys =>
      have hvalid : next.keyValid = ctx.keyValid := congrArg Keys.keyValid hkeys
      exact hinv.keep hvalid (offersKey_of_not_isInit htrace)
        (by rw [replay_snoc, Gcm.foldl_feed_key _ htrace])
  | @dropped encrypt ok key iv params rest hrest htrace hkeys =>
      have hvalid : next.keyValid = (ctx.dropKey key).keyValid := congrArg Keys.keyValid hkeys
      cases key with
      | null size =>
          exact hinv.keyless htrace (fun c hc => isInit_of_not_isInner (hrest c hc)) hvalid
      | bytes k =>
          intro hnext
          rw [hvalid] at hnext
          cases hnext
  | taken locks hlocks htrace hkeys =>
      refine hinv.taken htrace hlocks ?_
      obtain hkeys | hkeys := hkeys <;> exact congrArg Keys.keyValid hkeys

/-! ### The record -/

/-- A pending or active record and what the inner context has seen of it. -/
structure Fed (h : List Event) (ctx : Ctx) (pre : List Event) (first : Event) (mid : List Event) :
    Prop where
  record : InRecord h pre first mid
  encrypts : first.encrypts = ctx.encrypt
  started : ∃ key params locks,
    first.trace = .init key first.iv? first.encrypts params true :: locks ∧
    ∀ c ∈ locks, c.isInner = false
  keyValid : ctx.keyValid = true
  pending : ctx.phase = .manifestPending → innerCalls mid = [] ∧ ∀ out, chunks out mid = []
  active : ctx.phase = .active → innerCalls mid =
    manifestCall :: ((chunks false mid).map (dataCall false) ++
      (chunks true mid).map (dataCall true))
  payload : ctx.payloadStarted = false → chunks true mid = []

/-- Once the manifest is injected, the record has the form of an active one. -/
theorem Fed.inject {h pre mid : List Event} {ctx injected : Ctx} {first : Event}
    (hfed : Fed h ctx pre first mid) {trace : List ExtCall} {raised : List Reason}
    (hinject : Inject ctx trace raised true injected) :
    innerCalls mid ++ trace.filter (fun c => c.isInner && !c.deliversTag) =
      manifestCall :: ((chunks false mid).map (dataCall false) ++
        (chunks true mid).map (dataCall true)) := by
  obtain ⟨-, ⟨hphase, rfl⟩ | ⟨hphase, adds, hadds, rfl⟩⟩ := hinject.of_true
  · simpa using hfed.active hphase
  · obtain ⟨hcalls, hchunks⟩ := hfed.pending hphase
    rw [hcalls, hchunks, hchunks, List.filter_append, filter_of_not_isInner hadds]
    rfl

theorem innerCalls_snoc (h : List Event) (ev : Event) :
    innerCalls (h ++ [ev]) =
      innerCalls h ++ ev.trace.filter (fun c => c.isInner && !c.deliversTag) := by
  rw [innerCalls_append]
  simp [innerCalls]

theorem Fed.begun {h : List Event} {ctx next : Ctx} {ev : Event} {encrypt : Bool} {key : Buffer}
    {v : Bytes} {params : Option (List Param)} {locks : List ExtCall} {tagCurrent : Bool}
    (hcall : ev.call = .init encrypt key (.bytes v) params)
    (hadmits : ctx.Admits encrypt key (.bytes v) params)
    (hlocks : ∀ c ∈ locks, c.isInner = false) (hret : ev.ret = true)
    (htrace : ev.trace =
      initRequest encrypt key (.bytes v) params true :: (recordTrace key true ++ locks))
    (hnext : next = (if encrypt then (ctx.takeKey encrypt key).installKey
      else ctx.takeKey encrypt key).beginRecord tagCurrent) : Fed (h ++ [ev]) next h ev [] where
  record := .start (by simp [Event.begins, hcall, hret, Buffer.isNull])
  encrypts := by
    rw [Event.encrypts, hcall, hnext]
    cases encrypt <;> cases key <;> rfl
  started := by
    refine ⟨key.data?, filtered (ivOf params) (tagOf params), recordTrace key true ++ locks, ?_,
      locks_not_isInner key true hlocks⟩
    simp only [htrace, initRequest, Event.iv?, Event.encrypts, hcall]
  keyValid := by
    rw [hnext]
    have hvalid := takeKey_keyValid hadmits
    cases encrypt <;> exact hvalid
  pending := by simp
  active := by simp [hnext, Ctx.beginRecord]
  payload := by simp

/-- A record stays as it is under calls that feed it nothing. -/
theorem Fed.idle {h pre mid : List Event} {ctx : Ctx} {first ev : Event}
    (hfed : Fed h ctx pre first mid) (hbegins : ev.begins = false)
    (hinner : ∀ c ∈ ev.trace, c.deliversTag = true) (hchunk : ∀ out, ev.chunk out = none)
    (tagCurrent : Bool) :
    Fed (h ++ [ev]) { ctx with decryptTagCurrent := tagCurrent } pre first (mid ++ [ev]) := by
  have hchunks (out : Bool) : chunks out (mid ++ [ev]) = chunks out mid := by
    rw [chunks_snoc, hchunk]
    simp
  have hcalls : innerCalls (mid ++ [ev]) = innerCalls mid := by
    rw [innerCalls_snoc, List.append_right_eq_self, List.filter_eq_nil_iff]
    intro c hc
    simp [hinner c hc]
  refine ⟨hfed.record.snoc hbegins, hfed.encrypts, hfed.started, hfed.keyValid, ?_, ?_, ?_⟩
  · intro hphase
    rw [hcalls]
    exact ⟨(hfed.pending hphase).1, fun out => (hchunks out).trans ((hfed.pending hphase).2 out)⟩
  · rw [hcalls, hchunks, hchunks]
    exact hfed.active
  · rw [hchunks]
    exact hfed.payload

theorem Fed.fed {h pre mid : List Event} {ctx injected : Ctx} {first ev : Event}
    (hfed : Fed h ctx pre first mid) {out hasOutl : Bool} {outsize : ℕ} {data : Bytes}
    {trace : List ExtCall} (hcall : ev.call = .update out hasOutl outsize (.bytes data))
    (hdata : data ≠ []) (hpayload : out = false → ctx.payloadStarted = false)
    (hinject : Inject ctx trace [] true injected) (hret : ev.ret = true)
    (htrace : ev.trace = trace ++ [dataCall out data]) :
    Fed (h ++ [ev]) { injected with payloadStarted := out || injected.payloadStarted } pre first
      (mid ++ [ev]) := by
  have hchunk (out' : Bool) : ev.chunk out' = if out = out' then some data else none := by
    simp [Event.chunk, hcall, hret, hdata, Buffer.size, Buffer.data?]
  obtain ⟨⟨records, isReserved, rfl⟩, -⟩ := hinject.of_true
  refine ⟨hfed.record.snoc (by simp [Event.begins, hcall]), hfed.encrypts, hfed.started,
    hfed.keyValid, by simp, fun _ => ?_, fun hnone => ?_⟩
  · rw [innerCalls_snoc, htrace, List.filter_append, ← List.append_assoc, hfed.inject hinject,
      chunks_snoc, chunks_snoc, hchunk, hchunk]
    cases out with
    | false => simp [hfed.payload (hpayload rfl), dataCall, ExtCall.isInner, ExtCall.deliversTag]
    | true => simp [dataCall, ExtCall.isInner, ExtCall.deliversTag]
  · obtain ⟨rfl, hnone⟩ : out = false ∧ ctx.payloadStarted = false := by
      simpa using hnone
    rw [chunks_snoc, hchunk, hfed.payload hnone]
    rfl

theorem run_fed {lib : Libcrypto} {L : ℤ} {h : List Event} {ctx : Ctx}
    (run : Path (Cipher.Step lib) (Ctx.new L) h ctx) (hlive : ctx.refuses = false) :
    ∃ pre first mid, Fed h ctx pre first mid := by
  revert hlive
  refine run.invariant
    (P := fun h ctx => ctx.refuses = false → ∃ pre first mid, Fed h ctx pre first mid)
    (by simp [Ctx.new, Ctx.refuses]) ?_
  intro h ctx ev next _ ih hstep hlive
  cases live_cases (Cipher.step_cases hstep) hlive with
  | begun locks hcall hadmits hlocks hret htrace hnext =>
      exact ⟨_, _, _, .begun hcall hadmits hlocks hret htrace hnext⟩
  | idle tagCurrent hlive hbegins htrace hchunk _ hnext =>
      obtain ⟨pre, first, mid, hfed⟩ := ih hlive
      rw [hnext]
      exact ⟨pre, first, mid ++ [ev],
        hfed.idle hbegins (by simp [htrace]) hchunk tagCurrent⟩
  | @tagged params tag hlive hcall _ hok _ htrace hnext =>
      obtain ⟨pre, first, mid, hfed⟩ := ih hlive
      have hdelivers : ∀ c ∈ ev.trace, c.deliversTag = true := by
        intro c hc
        rw [htrace, List.mem_singleton] at hc
        obtain ⟨data, -, -, hbytes⟩ := tagBytes_of_isTag (ivOf params) hok
        rw [hc, ExtCall.deliversTag, hbytes]
        rfl
      rw [hnext]
      exact ⟨pre, first, mid ++ [ev], hfed.idle (by simp [Event.begins, hcall]) hdelivers
        (by simp [Event.chunk, hcall]) true⟩
  | fed hlive hcall hdata hpayload hinject hret htrace hnext =>
      obtain ⟨pre, first, mid, hfed⟩ := ih hlive
      rw [hnext]
      exact ⟨pre, first, mid ++ [ev], hfed.fed hcall hdata hpayload hinject hret htrace⟩

theorem run_keyInv {lib : Libcrypto} {L : ℤ} {h : List Event} {ctx : Ctx}
    (run : Path (Cipher.Step lib) (Ctx.new L) h ctx) : KeyInv h ctx := by
  refine run.invariant (P := KeyInv) (by intro hvalid; cases hvalid) ?_
  intro h ctx ev next _ ih hstep
  exact ih.step (Cipher.step_cases hstep)

/-! ### The contract -/

/-- The accumulator after the init that begins a record. -/
theorem replay_first (pre : List Event) {first : Event} (hbegins : first.begins = true)
    (hstarted : ∃ key params locks,
      first.trace = .init key first.iv? first.encrypts params true :: locks ∧
      ∀ c ∈ locks, c.isInner = false) :
    ∃ key, replay (pre ++ [first]) = ⟨key, first.iv?, first.encrypts, [], []⟩ := by
  obtain ⟨key, params, locks, htrace, hlocks⟩ := hstarted
  obtain ⟨v, hv⟩ : ∃ v, first.iv? = some v := by
    unfold Event.begins at hbegins
    split at hbegins
    case h_1 iv _ hcall =>
      rw [Bool.and_eq_true, Bool.not_eq_true'] at hbegins
      obtain ⟨v, rfl⟩ := Buffer.eq_bytes_of_isNull hbegins.2
      exact ⟨v, by rw [Event.iv?, hcall]; rfl⟩
    case h_2 => cases hbegins
  have hfold (gcm : Gcm) : locks.foldl Gcm.feed gcm = gcm := by
    rw [← Gcm.foldl_feed_filter, filter_of_not_isInner hlocks]
    rfl
  refine ⟨key <|> (replay pre).key, ?_⟩
  rw [replay_snoc, htrace, List.foldl_cons, hfold, hv]
  rfl

/-- What the inner context has seen once final succeeded: the requests of the record, and the
bytes that they amount to. -/
theorem Fed.finished {h pre mid : List Event} {ctx injected : Ctx} {first f : Event}
    {trace : List ExtCall} (hfed : Fed h ctx pre first mid) (hinv : KeyInv h ctx)
    (hinject : Inject ctx trace [] true injected) (htrace : f.trace = trace ++ [.final ⟨true, 0⟩]) :
    ∃ key, LatestKey h key ∧
      innerCalls (mid ++ [f]) = manifestCall :: ((chunks false mid).map (dataCall false) ++
        (chunks true mid).map (dataCall true)) ++ [.final ⟨true, 0⟩] ∧
      replay (h ++ [f]) = ⟨some key, first.iv?, first.encrypts,
        manifest ++ (chunks false mid).flatten, (chunks true mid).flatten⟩ := by
  obtain ⟨key, hlatest, hkey⟩ := hinv hfed.keyValid
  have hcalls : innerCalls (mid ++ [f]) = manifestCall ::
      ((chunks false mid).map (dataCall false) ++ (chunks true mid).map (dataCall true)) ++
        [.final ⟨true, 0⟩] := by
    rw [innerCalls_snoc, htrace, List.filter_append, ← List.append_assoc, hfed.inject hinject]
    rfl
  refine ⟨key, hlatest, hcalls, ?_⟩
  obtain ⟨key', hfirst⟩ := replay_first pre hfed.record.begins hfed.started
  have hreplay : replay (h ++ [f]) = ⟨key', first.iv?, first.encrypts,
      manifest ++ (chunks false mid).flatten, (chunks true mid).flatten⟩ := by
    have hcut : h ++ [f] = (pre ++ [first]) ++ (mid ++ [f]) := by simp [hfed.record.eq]
    rw [hcut, replay_append, hfirst, ← Gcm.foldl_feed_filter]
    show (innerCalls (mid ++ [f])).foldl Gcm.feed _ = _
    simp only [hcalls, List.foldl_append, List.foldl_cons, Gcm.foldl_feed_dataCall_aad,
      Gcm.foldl_feed_dataCall_payload]
    rfl
  have hsame : (replay (h ++ [f])).key = some key := by
    rw [replay_snoc, Gcm.foldl_feed_key, hkey]
    rw [htrace]
    exact not_isInit_snoc hinject.frame.2 rfl
  rw [hreplay] at hsame ⊢
  obtain rfl : key' = some key := hsame
  rfl

/-- **The byte contract.**  When final succeeds, what reached the inner context since the init
that began the record is exactly the manifest, the data of the caller's updates and one
final, under the IV and direction of that init and the latest key. -/
theorem final_contract {lib : Libcrypto} {L : ℤ} {h : List Event} {f : Event} {hasOutl : Bool}
    {ctx : Ctx} (run : Path (Cipher.Step lib) (Ctx.new L) (h ++ [f]) ctx)
    (hcall : f.call = .final hasOutl) (hret : f.ret = true) :
    ∃ pre first mid key, InRecord h pre first mid ∧ LatestKey h key ∧
      innerCalls (mid ++ [f]) = manifestCall :: ((chunks false mid).map (dataCall false) ++
        (chunks true mid).map (dataCall true)) ++ [.final ⟨true, 0⟩] ∧
      replay (h ++ [f]) = ⟨some key, first.iv?, first.encrypts,
        manifest ++ (chunks false mid).flatten, (chunks true mid).flatten⟩ := by
  obtain ⟨before, hrun, hstep⟩ := run.snoc_inv
  obtain ⟨trace, injected, hrefuses, hinject, htrace⟩ : ∃ trace injected,
      before.refuses = false ∧ Inject before trace [] true injected ∧
        f.trace = trace ++ [.final ⟨true, 0⟩] := by
    cases Cipher.step_cases hstep with
    | final _ hcase =>
        cases hcase with
        | done _ hrefuses _ hinject _ htrace => exact ⟨_, _, hrefuses, hinject, htrace⟩
        | refused _ hfailed => simp [hret] at hfailed
        | poisoned _ _ hfailed => simp [hret] at hfailed
        | injectFailed _ _ _ _ hfailed => simp [hret] at hfailed
        | failed _ _ _ _ _ _ hfailed => simp [hret] at hfailed
    | _ hother => simp [hcall] at hother
  obtain ⟨pre, first, mid, hfed⟩ := run_fed hrun hrefuses
  obtain ⟨key, hlatest, hcalls, hreplay⟩ := hfed.finished (run_keyInv hrun) hinject htrace
  exact ⟨pre, first, mid, key, hfed.record, hlatest, hcalls, hreplay⟩

theorem final_contract_encryptRecord : ∃ h f,
    (exec (Cipher.move littleEndian) (Ctx.new encryptRecordLimit) (encryptRecord keyA ivA)).1 =
      h ++ [f] ∧ f.ret = true ∧
    ∃ pre first mid key, InRecord h pre first mid ∧ LatestKey h key ∧
      innerCalls (mid ++ [f]) = manifestCall :: ((chunks false mid).map (dataCall false) ++
        (chunks true mid).map (dataCall true)) ++ [.final ⟨true, 0⟩] ∧
      replay (h ++ [f]) = ⟨some key, first.iv?, first.encrypts,
        manifest ++ (chunks false mid).flatten, (chunks true mid).flatten⟩ := by
  have run := Cipher.path_execute littleEndian (Ctx.new encryptRecordLimit) (encryptRecord keyA ivA)
  have hcut : (exec (Cipher.move littleEndian) (Ctx.new encryptRecordLimit)
      (encryptRecord keyA ivA)).1 = (exec (Cipher.move littleEndian) (Ctx.new encryptRecordLimit)
        ((encryptRecord keyA ivA).take 3)).1 ++
          [⟨.final true, true, some 0, none, [], [.final ⟨true, 0⟩]⟩] := by
    decide +kernel
  rw [hcut] at run
  exact ⟨_, _, hcut, rfl, final_contract run rfl rfl⟩

end G301.Outer
