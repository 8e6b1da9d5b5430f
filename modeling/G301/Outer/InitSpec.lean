import G301.Outer.Cipher

/-! # What an init can do

`init_eq` lists the exits of an init.  `init_cases` separates the inits that are rejected
before the inner context is asked from those that reach it, `init_accepts` says which are which,
`initInner_cases` lists what the latter do.  `InitCase` is both in terms of the event: the
return value, the requests made, the reasons raised and the next context.

The functions on `Ctx` state the changes of the key bookkeeping as functions of the context:
`recordKey` and `installKey` are what `recordCurrentKey` and `installWriteKey` do when they
succeed (`recordCurrentKey_eq`, `installWriteKey_eq`).  Each changes no field of the current
record but what `invalidateRecord` and `beginRecord` overwrite. -/

namespace G301.Outer

open ByteString Param

/-- What `recordCurrentKey` does under the lock. -/
def Ctx.recordKey (key : Bytes) (ctx : Ctx) : Ctx :=
  { ctx with
    currentKey := key, currentKeyValid := true,
    currentKeyChanged :=
      ctx.currentKeyChanged || !ctx.currentKeyValid || decide (ctx.currentKey ≠ key) }

/-- The current key is the write key already. -/
def Ctx.keepsWriteKey (ctx : Ctx) : Bool :=
  ctx.usageKeyValid && (!ctx.currentKeyChanged || decide (ctx.usageKey = ctx.currentKey))

/-- What `installWriteKey` does when it succeeds: another key starts a new count. -/
def Ctx.installKey (ctx : Ctx) : Ctx :=
  { ctx with
    usageKey := if ctx.keepsWriteKey then ctx.usageKey else ctx.currentKey
    usageKeyValid := true
    encryptedRecords := if ctx.keepsWriteKey then ctx.encryptedRecords else 0
    usageExhausted := ctx.keepsWriteKey && ctx.usageExhausted
    currentKeyChanged := false
    recordReserved := false }

/-- An inner init that passes a key and fails takes the key away. -/
def Ctx.dropKey (key : Buffer) (ctx : Ctx) : Ctx :=
  match key with
  | .null _ => ctx
  | .bytes _ => { ctx with keyValid := false }

/-- Direction and key after an inner init and the recording of its key. -/
def Ctx.takeKey (encrypt : Bool) (key : Buffer) (ctx : Ctx) : Ctx :=
  match key with
  | .null _ => { ctx with encrypt := encrypt, directionSet := true }
  | .bytes k =>
      { ctx.recordKey k with encrypt := encrypt, directionSet := true, keyValid := true }

/-- A new record, with or without a tag that came with the init. -/
def Ctx.beginRecord (tagCurrent : Bool) (ctx : Ctx) : Ctx :=
  { ctx with
    phase := .manifestPending, payloadStarted := false, decryptTagCurrent := tagCurrent,
    needsReinit := false }

section
variable (ctx : Ctx)

theorem Ctx.drop_eq : ctx.drop = ctx.invalidateRecord.poison := rfl

theorem Ctx.beginRecord_invalidateRecord (tagCurrent : Bool) :
    ctx.invalidateRecord.beginRecord tagCurrent = ctx.beginRecord tagCurrent := rfl

theorem Ctx.dropKey_invalidateRecord (key : Buffer) :
    ctx.invalidateRecord.dropKey key = (ctx.dropKey key).invalidateRecord := by
  cases key <;> rfl

theorem Ctx.dropKey_dropKey (key : Buffer) : (ctx.dropKey key).dropKey key = ctx.dropKey key := by
  cases key <;> rfl

theorem Ctx.takeKey_dropKey (encrypt : Bool) (key : Buffer) :
    (ctx.dropKey key).takeKey encrypt key = ctx.takeKey encrypt key := by
  cases key <;> rfl

theorem Ctx.takeKey_invalidateRecord (encrypt : Bool) (key : Buffer) :
    ctx.invalidateRecord.takeKey encrypt key = (ctx.takeKey encrypt key).invalidateRecord := by
  cases key <;> rfl

/-- Preparing for the inner init does not matter to the keys that are taken after it. -/
theorem Ctx.takeKey_of_dropKey {prepared : Ctx} {key : Buffer} (encrypt : Bool)
    (h : prepared.invalidateRecord = (ctx.dropKey key).invalidateRecord) :
    (prepared.takeKey encrypt key).invalidateRecord =
      (ctx.takeKey encrypt key).invalidateRecord := by
  rw [← takeKey_invalidateRecord, h, takeKey_invalidateRecord, takeKey_dropKey]

theorem Ctx.installKey_invalidateRecord :
    ctx.invalidateRecord.installKey = ctx.installKey.invalidateRecord := rfl

end

theorem recordCurrentKey_eq (ans : Answers) (key : Bytes) (e : Exec) :
    recordCurrentKey ans key e =
      (ans.recordLock,
        ⟨if ans.recordLock then e.ctx.recordKey key else e.ctx,
          e.trace ++ [.writeLock ans.recordLock], e.raised⟩) := by
  cases hlock : ans.recordLock
  · simp [recordCurrentKey, Exec.request, hlock]
  · cases hvalid : e.ctx.currentKeyValid
    · simp [recordCurrentKey, Ctx.recordKey, Exec.request, Exec.modify, hlock, hvalid]
    · by_cases hkey : e.ctx.currentKey = key
      · subst hkey
        simp [recordCurrentKey, Ctx.recordKey, Exec.request, hlock, hvalid]
        rw [← hvalid]
      · simp [recordCurrentKey, Ctx.recordKey, Exec.request, Exec.modify, hlock, hvalid, hkey]

theorem installWriteKey_eq (ans : Answers) (e : Exec) :
    ∃ ok locks, (∀ c ∈ locks, c.isInner = false) ∧
      installWriteKey ans e =
        (ok, ⟨if ok then e.ctx.installKey else e.ctx, e.trace ++ locks, e.raised⟩) := by
  have hlocks : ∀ c ∈ [ExtCall.writeLock ans.installLock], c.isInner = false := by
    simp [ExtCall.isInner]
  cases hvalid : e.ctx.currentKeyValid
  case false => exact ⟨false, [], by simp, by simp [installWriteKey, hvalid]⟩
  cases husage : e.ctx.usageKeyValid <;> cases hchanged : e.ctx.currentKeyChanged
  case true.false =>
    refine ⟨true, [], by simp, ?_⟩
    simp [installWriteKey, Ctx.installKey, Ctx.keepsWriteKey, Exec.modify, hvalid, husage, hchanged]
  all_goals
    refine ⟨ans.installLock, [.writeLock ans.installLock], hlocks, ?_⟩
    cases hlock : ans.installLock
    · simp [installWriteKey, Exec.request, hvalid, husage, hchanged, hlock]
    · by_cases hkey : e.ctx.usageKey = e.ctx.currentKey <;>
        simp [installWriteKey, Ctx.installKey, Ctx.keepsWriteKey, Exec.request, Exec.modify,
          hvalid, husage, hchanged, hlock, hkey]

structure Ctx.Admits (ctx : Ctx) (encrypt : Bool) (key iv : Buffer) (params : Option (List Param)) :
    Prop where
  key_size : key.isNull = false → key.size = keyLength
  iv_size : iv.isNull = false → iv.size = ivLength
  key_valid : iv.isNull = false → key.isNull = true → ctx.keyValid = true
  tag : ∀ tag, tagOf params = some tag → encrypt = false ∧ iv.isNull = false ∧ isTag tag = true

theorem takeKey_keyValid {ctx : Ctx} {encrypt : Bool} {key : Buffer} {v : Bytes}
    {params : Option (List Param)} (h : ctx.Admits encrypt key (.bytes v) params) :
    (ctx.takeKey encrypt key).keyValid = true := by
  cases key with
  | null size => exact h.key_valid rfl rfl
  | bytes k => rfl

theorem validateInitParams_snd (lib : Libcrypto) (params : Option (List Param))
    (encrypt newRecord : Bool) :
    (validateInitParams lib params encrypt newRecord).2 = (tagOf params).isSome := by
  cases params with
  | none => rfl
  | some params =>
      simp only [validateInitParams, tagOf, Option.bind_some]
      cases locate params aeadTag <;> simp only [] <;> split_ifs <;> rfl

theorem validateInitParams_tag {lib : Libcrypto} {params : Option (List Param)}
    {encrypt newRecord : Bool} (h : (validateInitParams lib params encrypt newRecord).1 = true)
    {tag : Param} (htag : tagOf params = some tag) :
    encrypt = false ∧ newRecord = true ∧ isTag tag = true := by
  cases params with
  | none => simp [tagOf] at htag
  | some params =>
      simp only [tagOf, Option.bind_some] at htag
      simp only [validateInitParams, htag] at h
      split_ifs at h
      simp at h
      exact ⟨h.1.1, h.1.2, h.2⟩

/-- An init that is rejected keeps the context, clears its tag or also drops the record. -/
def Ctx.Rejects (ctx : Ctx) (hasTag : Bool) (next : Ctx) : Prop :=
  (next = ctx ∨ next = ctx.clearTag ∨ next = ctx.invalidateRecord) ∧
    (hasTag = true → next.decryptTagCurrent = false)

theorem Ctx.Rejects.invalidateRecord_eq {ctx next : Ctx} {hasTag : Bool}
    (h : ctx.Rejects hasTag next) : next.invalidateRecord = ctx.invalidateRecord := by
  obtain ⟨rfl | rfl | rfl, -⟩ := h <;> rfl

theorem Exec.start_modify (ctx : Ctx) (f : Ctx → Ctx) :
    (Exec.start ctx).modify f = Exec.start (f ctx) := rfl

theorem Exec.ite_start (p : Prop) [Decidable p] (ctx ctx' : Ctx) :
    (if p then Exec.start ctx else Exec.start ctx') = Exec.start (if p then ctx else ctx') :=
  (apply_ite Exec.start p ctx ctx').symm

/-- A NULL pointer has size zero, any other the size of what it points at. -/
def sized (buffer : Buffer) (size : ℕ) : Bool :=
  if buffer.isNull then decide (buffer.size = 0) else decide (buffer.size = size)

theorem sized_iff (buffer : Buffer) (size : ℕ) :
    sized buffer size = true ↔ buffer.size = if buffer.isNull then 0 else size := by
  unfold sized
  cases buffer.isNull <;> simp

/-- The four comparisons of the source. -/
theorem sized_eq (key iv : Buffer) :
    ((!key.isNull && decide (key.size ≠ keyLength)) || (!!key.isNull && decide (key.size ≠ 0)) ||
      (!iv.isNull && decide (iv.size ≠ ivLength)) || (!!iv.isNull && decide (iv.size ≠ 0))) =
      !(sized key keyLength && sized iv ivLength) := by
  unfold sized
  cases key.isNull <;> cases iv.isNull <;> simp

/-- The context after an init whose arguments are not admitted. -/
def Ctx.rejectArgs (ctx : Ctx) (encrypt hasKey hasTag : Bool) : Ctx :=
  let directionChange := ctx.directionSet && decide (ctx.encrypt ≠ encrypt)
  if hasTag && (hasKey || directionChange) then ctx.invalidateRecord
  else if hasTag || directionChange then ctx.clearTag else ctx

/-- The context when the inner context is asked. -/
def Ctx.prepare (ctx : Ctx) (encrypt : Bool) (key : Buffer) (hasTag : Bool) : Ctx :=
  let directionChange := ctx.directionSet && decide (ctx.encrypt ≠ encrypt)
  let untagged := if hasTag then ctx.clearTag else ctx
  (if directionChange || !key.isNull then untagged.invalidateRecord else untagged).dropKey key

theorem Ctx.rejectArgs_rejects (ctx : Ctx) (encrypt hasKey hasTag : Bool) :
    ctx.Rejects hasTag (ctx.rejectArgs encrypt hasKey hasTag) := by
  unfold rejectArgs
  dsimp only
  split
  · exact ⟨.inr (.inr rfl), fun _ => rfl⟩
  split
  · exact ⟨.inr (.inl rfl), fun _ => rfl⟩
  case isFalse htagless =>
    refine ⟨.inl rfl, fun htag => ?_⟩
    rw [htag, Bool.true_or] at htagless
    exact absurd rfl htagless

theorem Ctx.prepare_invalidateRecord (ctx : Ctx) (encrypt : Bool) (key : Buffer) (hasTag : Bool) :
    (ctx.prepare encrypt key hasTag).invalidateRecord = (ctx.dropKey key).invalidateRecord := by
  rw [prepare, ← dropKey_invalidateRecord, ← dropKey_invalidateRecord]
  congr 1
  split <;> split <;> rfl

/-- A tag is valid only with an IV and with a key. -/
theorem newRecord_of_tag {lib : Libcrypto} {ctx : Ctx} {encrypt : Bool} {key iv : Buffer}
    {params : Option (List Param)} (h : (validateInitParams lib params encrypt
      (!iv.isNull && (!key.isNull || ctx.keyValid))).1 = true)
    (hsome : (tagOf params).isSome = true) :
    iv.isNull = false ∧ (key.isNull && !ctx.keyValid) = false := by
  obtain ⟨tag, htag⟩ := Option.isSome_iff_exists.mp hsome
  obtain ⟨hiv, hkey⟩ := Bool.and_eq_true_iff.mp (validateInitParams_tag h htag).2.1
  refine ⟨by simpa using hiv, ?_⟩
  cases hnull : key.isNull <;> simp_all

/-- The exits of an init.  The one for a tag without a new record is never taken: its
parameters are not valid. -/
theorem init_eq (lib : Libcrypto) (ans : Answers) (encrypt : Bool) (key iv : Buffer)
    (params : Option (List Param)) (ctx : Ctx) :
    init lib ans encrypt key iv params ctx =
      if !(sized key keyLength && sized iv ivLength &&
          (validateInitParams lib params encrypt
            (!iv.isNull && (!key.isNull || ctx.keyValid))).1) then
        (false, ⟨ctx.rejectArgs encrypt (!key.isNull) (tagOf params).isSome, [],
          [.invalidParameter]⟩)
      else if !iv.isNull && key.isNull && !ctx.keyValid then (false, ⟨ctx, [], [.invalidState]⟩)
      else initInner ans encrypt key iv params (tagOf params).isSome
        (Exec.start (ctx.prepare encrypt key (tagOf params).isSome)) := by
  have hkey : (if (tagOf params).isSome then ctx.clearTag else ctx).keyValid = ctx.keyValid := by
    split <;> rfl
  simp only [init, Exec.start_modify, Exec.ite_start, validateInitParams_snd, hkey, sized_eq]
  cases hsized : sized key keyLength && sized iv ivLength with
  | false =>
      simp only [Bool.not_false, Bool.false_and, if_true]
      unfold Ctx.rejectArgs
      generalize (ctx.directionSet && decide (ctx.encrypt ≠ encrypt)) = directionChange
      cases (tagOf params).isSome <;> cases key.isNull <;> cases directionChange <;> rfl
  | true =>
      simp only [Bool.not_true, Bool.true_and, Bool.false_eq_true, if_false]
      cases hvalid : (validateInitParams lib params encrypt
          (!iv.isNull && (!key.isNull || ctx.keyValid))).1 with
      | false =>
          simp only [Bool.not_false, if_true]
          unfold Ctx.rejectArgs
          generalize (ctx.directionSet && decide (ctx.encrypt ≠ encrypt)) = directionChange
          cases (tagOf params).isSome <;> cases key.isNull <;> cases directionChange <;> rfl
      | true =>
          simp only [Bool.not_true, Bool.false_eq_true, if_false, Bool.not_not]
          cases hsome : (tagOf params).isSome with
          | false =>
              simp only [Bool.false_and, Bool.false_eq_true, if_false]
              cases key <;> rfl
          | true =>
              obtain ⟨hiv, hstate⟩ := newRecord_of_tag hvalid hsome
              simp only [hiv, hstate, Bool.true_and, Bool.not_false, Bool.false_or,
                Bool.false_eq_true, if_false, if_true]
              cases key <;> rfl

/-- The init passes every check before the inner context is asked. -/
structure Ctx.Accepts (lib : Libcrypto) (ctx : Ctx) (encrypt : Bool) (key iv : Buffer)
    (params : Option (List Param)) : Prop where
  key_size : key.size = if key.isNull then 0 else keyLength
  iv_size : iv.size = if iv.isNull then 0 else ivLength
  key_valid : iv.isNull = false → key.isNull = true → ctx.keyValid = true
  params : (validateInitParams lib params encrypt
    (!iv.isNull && (!key.isNull || ctx.keyValid))).1 = true

theorem Ctx.Accepts.admits {lib : Libcrypto} {ctx : Ctx} {encrypt : Bool} {key iv : Buffer}
    {params : Option (List Param)} (h : ctx.Accepts lib encrypt key iv params) :
    ctx.Admits encrypt key iv params where
  key_size hkey := by simpa [hkey] using h.key_size
  iv_size hiv := by simpa [hiv] using h.iv_size
  key_valid := h.key_valid
  tag tag htag := by
    obtain ⟨hdecrypt, hnew, hok⟩ := validateInitParams_tag h.params htag
    exact ⟨hdecrypt, by simpa using (Bool.and_eq_true_iff.mp hnew).1, hok⟩

theorem accepts_iff_checks {lib : Libcrypto} {ctx : Ctx} {encrypt : Bool} {key iv : Buffer}
    {params : Option (List Param)} : ctx.Accepts lib encrypt key iv params ↔
      (sized key keyLength && sized iv ivLength && (validateInitParams lib params encrypt
        (!iv.isNull && (!key.isNull || ctx.keyValid))).1) = true ∧
      (!iv.isNull && key.isNull && !ctx.keyValid) = false := by
  rw [Bool.and_eq_true, Bool.and_eq_true, sized_iff, sized_iff]
  constructor
  · intro h
    refine ⟨⟨⟨h.key_size, h.iv_size⟩, h.params⟩, ?_⟩
    cases hiv : iv.isNull with
    | true => rfl
    | false =>
        cases hkey : key.isNull with
        | false => rfl
        | true => simp [h.key_valid hiv hkey]
  · rintro ⟨⟨⟨hkey, hiv⟩, hparams⟩, hstate⟩
    refine ⟨hkey, hiv, fun hiv hkey => ?_, hparams⟩
    simpa [hiv, hkey] using hstate

/-- An init is rejected, or reaches the inner context, according to its checks. -/
theorem init_accepts (lib : Libcrypto) (ans : Answers) (encrypt : Bool) (key iv : Buffer)
    (params : Option (List Param)) (ctx : Ctx) :
    (¬ ctx.Accepts lib encrypt key iv params ∧ ∃ next reason,
      init lib ans encrypt key iv params ctx = (false, ⟨next, [], [reason]⟩) ∧
      reason ≠ .keyUsageLimitExceeded ∧ ctx.Rejects (tagOf params).isSome next) ∨
    (ctx.Accepts lib encrypt key iv params ∧ ∃ prepared : Ctx,
      prepared.invalidateRecord = (ctx.dropKey key).invalidateRecord ∧
      init lib ans encrypt key iv params ctx =
        initInner ans encrypt key iv params (tagOf params).isSome (Exec.start prepared)) := by
  rw [init_eq, accepts_iff_checks]
  cases hargs : sized key keyLength && sized iv ivLength && (validateInitParams lib params encrypt
      (!iv.isNull && (!key.isNull || ctx.keyValid))).1 with
  | false =>
      exact .inl ⟨fun h => (Bool.false_ne_true h.1).elim, _, _, rfl, by decide,
        ctx.rejectArgs_rejects encrypt (!key.isNull) (tagOf params).isSome⟩
  | true =>
      cases hstate : !iv.isNull && key.isNull && !ctx.keyValid with
      | true =>
          refine .inl ⟨fun h => ?_, _, _, rfl, by decide, .inl rfl, fun htag => ?_⟩
          · cases h.2
          · obtain ⟨-, hnew⟩ :=
              newRecord_of_tag (Bool.and_eq_true_iff.mp hargs).2 htag
            rw [Bool.and_assoc, hnew, Bool.and_false] at hstate
            cases hstate
      | false =>
          exact .inr ⟨⟨rfl, rfl⟩, _, ctx.prepare_invalidateRecord encrypt key _, rfl⟩

theorem init_cases (lib : Libcrypto) (ans : Answers) (encrypt : Bool) (key iv : Buffer)
    (params : Option (List Param)) (ctx : Ctx) :
    (∃ next reason, init lib ans encrypt key iv params ctx = (false, ⟨next, [], [reason]⟩) ∧
      reason ≠ .keyUsageLimitExceeded ∧ ctx.Rejects (tagOf params).isSome next) ∨
    (ctx.Admits encrypt key iv params ∧ ∃ prepared : Ctx,
      prepared.invalidateRecord = (ctx.dropKey key).invalidateRecord ∧
      init lib ans encrypt key iv params ctx =
        initInner ans encrypt key iv params (tagOf params).isSome (Exec.start prepared)) := by
  obtain ⟨-, hrejected⟩ | ⟨haccepts, hprepared⟩ := init_accepts lib ans encrypt key iv params ctx
  · exact .inl hrejected
  · exact .inr ⟨haccepts.admits, hprepared⟩

/-- The request that an init makes of the inner context. -/
def initRequest (encrypt : Bool) (key iv : Buffer) (params : Option (List Param)) (ok : Bool) :
    ExtCall :=
  .init key.data? iv.data? encrypt (filtered (ivOf params) (tagOf params)) ok

/-- The lock that guards the recording of a key. -/
def recordTrace (key : Buffer) (ok : Bool) : List ExtCall :=
  if key.isNull then [] else [.writeLock ok]

theorem recordTrace_not_isInner (key : Buffer) (ok : Bool) :
    ∀ c ∈ recordTrace key ok, c.isInner = false := by
  cases key <;> simp [recordTrace, Buffer.isNull, ExtCall.isInner]

theorem locks_not_isInner (key : Buffer) (ok : Bool) {locks : List ExtCall}
    (h : ∀ c ∈ locks, c.isInner = false) :
    ∀ c ∈ recordTrace key ok ++ locks, c.isInner = false := by
  intro c hc
  obtain hc | hc := List.mem_append.mp hc
  · exact recordTrace_not_isInner key ok c hc
  · exact h c hc

/-- What an init can do, seen from its event. -/
inductive InitCase (ctx : Ctx) (encrypt : Bool) (key iv : Buffer) (params : Option (List Param))
    (ev : Event) (next : Ctx) : Prop
  | rejected (hret : ev.ret = false) (htrace : ev.trace = [])
      (hraised : .keyUsageLimitExceeded ∉ ev.raised)
      (hnext : ctx.Rejects (tagOf params).isSome next)
  | innerFailed (hadmits : ctx.Admits encrypt key iv params) (hret : ev.ret = false)
      (htrace : ev.trace = [initRequest encrypt key iv params false]) (hraised : ev.raised = [])
      (hnext : next = (ctx.dropKey key).drop)
  | recordFailed (hadmits : ctx.Admits encrypt key iv params) (hkey : key.isNull = false)
      (hret : ev.ret = false)
      (htrace : ev.trace = initRequest encrypt key iv params true :: recordTrace key false)
      (hraised : ev.raised = [.internalError]) (hnext : next = (ctx.dropKey key).drop)
  | installFailed (locks : List ExtCall) (hadmits : ctx.Admits encrypt key iv params)
      (hencrypt : encrypt = true) (hiv : iv.isNull = false)
      (hlocks : ∀ c ∈ locks, c.isInner = false) (hret : ev.ret = false)
      (htrace : ev.trace =
        initRequest encrypt key iv params true :: (recordTrace key true ++ locks))
      (hraised : ev.raised = [.internalError]) (hnext : next = (ctx.takeKey encrypt key).drop)
  | staged (hadmits : ctx.Admits encrypt key iv params) (hiv : iv.isNull = true)
      (hret : ev.ret = true)
      (htrace : ev.trace = initRequest encrypt key iv params true :: recordTrace key true)
      (hraised : ev.raised = []) (hnext : next = (ctx.takeKey encrypt key).invalidateRecord)
  | begun (locks : List ExtCall) (hadmits : ctx.Admits encrypt key iv params)
      (hiv : iv.isNull = false) (hlocks : ∀ c ∈ locks, c.isInner = false) (hret : ev.ret = true)
      (htrace : ev.trace =
        initRequest encrypt key iv params true :: (recordTrace key true ++ locks))
      (hraised : ev.raised = [])
      (hnext : next = (if encrypt then (ctx.takeKey encrypt key).installKey
        else ctx.takeKey encrypt key).beginRecord (!encrypt && (tagOf params).isSome))

/-- `g301_init` once direction and key are taken. -/
def startRecord (ans : Answers) (encrypt : Bool) (iv : Buffer) (hasTag : Bool) (e : Exec) :
    Bool × Exec :=
  if iv.isNull then (true, e.modify Ctx.invalidateRecord)
  else if !e.ctx.keyValid then (false, (e.modify Ctx.drop).raise .invalidState)
  else
    let (installed, e) := if encrypt then installWriteKey ans e else (true, e)
    if !installed then (false, (e.modify Ctx.drop).raise .internalError)
    else (true, e.modify (Ctx.beginRecord (!encrypt && hasTag)))

theorem initInner_eq (ans : Answers) (encrypt : Bool) (key iv : Buffer)
    (params : Option (List Param)) (hasTag : Bool) (e : Exec) :
    initInner ans encrypt key iv params hasTag e =
      if ans.init = false then
        (false, ⟨(e.ctx.dropKey key).drop,
          e.trace ++ [initRequest encrypt key iv params false], e.raised⟩)
      else if key.isNull = false ∧ ans.recordLock = false then
        (false, ⟨e.ctx.drop, e.trace ++ initRequest encrypt key iv params true ::
          recordTrace key false, e.raised ++ [.internalError]⟩)
      else
        startRecord ans encrypt iv hasTag ⟨e.ctx.takeKey encrypt key,
          e.trace ++ initRequest encrypt key iv params true :: recordTrace key true,
          e.raised⟩ := by
  unfold initInner startRecord
  cases ans.init with
  | false => cases key <;> cases iv <;> rfl
  | true =>
      cases key with
      | null size => cases iv <;> rfl
      | bytes k =>
          simp only [Buffer.data?, recordCurrentKey_eq]
          cases hlock : ans.recordLock with
          | false =>
              simp [recordTrace, initRequest, Exec.request, Exec.modify, Exec.raise, Buffer.isNull,
                Buffer.data?]
          | true =>
              cases iv <;>
                simp [recordTrace, initRequest, Ctx.takeKey, Ctx.beginRecord, Exec.request,
                  Exec.modify, Exec.raise, Buffer.isNull, Buffer.data?]

theorem installWriteKey_trace (ans : Answers) (e : Exec) :
    ∃ locks, (installWriteKey ans e).2.trace = e.trace ++ locks ∧
      ∀ c ∈ locks, ∃ ok, c = .writeLock ok := by
  unfold installWriteKey
  dsimp only
  split
  · exact ⟨[], by simp⟩
  split
  · exact ⟨[], by simp [Exec.modify]⟩
  refine ⟨[.writeLock ans.installLock], ?_, by simp⟩
  split
  · rfl
  split
  · rfl
  · split <;> rfl

/-- After its request to the inner context an init only locks. -/
theorem initInner_trace (ans : Answers) (encrypt : Bool) (key iv : Buffer)
    (params : Option (List Param)) (hasTag : Bool) (e : Exec) :
    ∃ ok locks, (initInner ans encrypt key iv params hasTag e).2.trace =
      e.trace ++ initRequest encrypt key iv params ok :: locks ∧
      ∀ c ∈ locks, ∃ ok, c = .writeLock ok := by
  have hrecord (ok : Bool) : ∀ c ∈ recordTrace key ok, ∃ ok, c = .writeLock ok := by
    cases key <;> simp [recordTrace, Buffer.isNull]
  rw [initInner_eq]
  split
  · exact ⟨false, [], rfl, by simp⟩
  split
  · exact ⟨true, _, rfl, hrecord false⟩
  refine ⟨true, ?_⟩
  unfold startRecord
  split
  · exact ⟨_, rfl, hrecord true⟩
  split
  · exact ⟨_, rfl, hrecord true⟩
  cases encrypt with
  | false => exact ⟨_, rfl, hrecord true⟩
  | true =>
      obtain ⟨locks, htrace, hlocks⟩ := installWriteKey_trace ans ⟨e.ctx.takeKey true key,
        e.trace ++ initRequest true key iv params true :: recordTrace key true, e.raised⟩
      refine ⟨recordTrace key true ++ locks, ?_, fun c hc => ?_⟩
      · rw [if_pos rfl]
        dsimp only
        split <;> simpa [Exec.modify, Exec.raise] using htrace
      · obtain hc | hc := List.mem_append.mp hc
        · exact hrecord true c hc
        · exact hlocks c hc

theorem startRecord_cases {ans : Answers} {encrypt : Bool} {iv : Buffer} {hasTag : Bool}
    {e : Exec} {ret : Bool} {e' : Exec} (hvalid : iv.isNull = false → e.ctx.keyValid = true)
    (h : startRecord ans encrypt iv hasTag e = (ret, e')) :
    (iv.isNull = true ∧ ret = true ∧ e' = ⟨e.ctx.invalidateRecord, e.trace, e.raised⟩) ∨
    ∃ locks, (∀ c ∈ locks, c.isInner = false) ∧ iv.isNull = false ∧
      ((encrypt = true ∧ ret = false ∧
          e' = ⟨e.ctx.drop, e.trace ++ locks, e.raised ++ [.internalError]⟩) ∨
        (ret = true ∧ e' = ⟨(if encrypt then e.ctx.installKey else e.ctx).beginRecord
          (!encrypt && hasTag), e.trace ++ locks, e.raised⟩)) := by
  unfold startRecord at h
  cases hiv : iv.isNull with
  | true =>
      simp only [hiv, if_true] at h
      obtain ⟨rfl, rfl⟩ := Prod.mk.inj h
      exact .inl ⟨rfl, rfl, rfl⟩
  | false =>
      right
      obtain ⟨ok, locks, hlocks, heq⟩ := installWriteKey_eq ans e
      simp only [hiv, hvalid hiv, Bool.not_true, Bool.false_eq_true, if_false] at h
      cases encrypt with
      | false =>
          obtain ⟨rfl, rfl⟩ := Prod.mk.inj h
          exact ⟨[], by simp, rfl, .inr ⟨rfl, by simp [Exec.modify]⟩⟩
      | true =>
          rw [if_pos rfl, heq] at h
          refine ⟨locks, hlocks, rfl, ?_⟩
          cases ok with
          | false =>
              obtain ⟨rfl, rfl⟩ := Prod.mk.inj h
              exact .inl ⟨rfl, rfl, rfl⟩
          | true =>
              obtain ⟨rfl, rfl⟩ := Prod.mk.inj h
              exact .inr ⟨rfl, rfl⟩

theorem initInner_cases {ans : Answers} {encrypt : Bool} {key iv : Buffer}
    {params : Option (List Param)} {ctx prepared next : Ctx} {ev : Event}
    (hadmits : ctx.Admits encrypt key iv params)
    (hprepared : prepared.invalidateRecord = (ctx.dropKey key).invalidateRecord)
    (h : initInner ans encrypt key iv params (tagOf params).isSome (Exec.start prepared) =
      (ev.ret, ⟨next, ev.trace, ev.raised⟩)) :
    InitCase ctx encrypt key iv params ev next := by
  have htaken := ctx.takeKey_of_dropKey encrypt hprepared
  have hdropped : (prepared.dropKey key).drop = (ctx.dropKey key).drop := by
    rw [Ctx.drop_eq, ← Ctx.dropKey_invalidateRecord, hprepared, Ctx.dropKey_invalidateRecord,
      Ctx.dropKey_dropKey, Ctx.drop_eq]
  rw [initInner_eq] at h
  split at h
  case isTrue =>
    simp only [List.nil_append, Prod.mk.injEq, Exec.mk.injEq, hdropped] at h
    obtain ⟨hret, hnext, htrace, hraised⟩ := h
    exact .innerFailed hadmits hret.symm htrace.symm hraised.symm hnext.symm
  case isFalse =>
    split at h
    case isTrue hlock =>
      simp only [List.nil_append, Prod.mk.injEq, Exec.mk.injEq] at h
      obtain ⟨hret, hnext, htrace, hraised⟩ := h
      refine .recordFailed hadmits hlock.1 hret.symm htrace.symm hraised.symm ?_
      rw [← hnext, Ctx.drop_eq, hprepared, Ctx.drop_eq]
    case isFalse =>
      have hvalid : iv.isNull = false → (prepared.takeKey encrypt key).keyValid = true := by
        intro hiv
        cases key with
        | null size =>
            have hsame := congrArg Ctx.keyValid hprepared
            exact Eq.trans hsame (hadmits.key_valid hiv rfl)
        | bytes k => rfl
      obtain ⟨hiv, hret, heq⟩ | ⟨locks, hlocks, hiv, ⟨hencrypt, hret, heq⟩ | ⟨hret, heq⟩⟩ :=
        startRecord_cases hvalid h
      all_goals
        simp only [List.nil_append, List.cons_append, Exec.mk.injEq] at heq
        obtain ⟨hnext, htrace, hraised⟩ := heq
      · exact .staged hadmits hiv hret htrace hraised (hnext.trans htaken)
      · refine .installFailed locks hadmits hencrypt hiv hlocks hret htrace hraised ?_
        rw [hnext, Ctx.drop_eq, htaken, Ctx.drop_eq]
      · refine .begun locks hadmits hiv hlocks hret htrace hraised ?_
        rw [hnext, ← Ctx.beginRecord_invalidateRecord, ← Ctx.beginRecord_invalidateRecord
          (if encrypt then (ctx.takeKey encrypt key).installKey else ctx.takeKey encrypt key)]
        cases encrypt
        · exact congrArg _ htaken
        · simp only [if_true, ← Ctx.installKey_invalidateRecord, htaken]

end G301.Outer
