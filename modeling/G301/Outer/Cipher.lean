import G301.Outer.Params

/-! # The outer cipher context

The entry points of `g301_cipher.c` on one context.  What the code outside answers during
one call, the inner operations, the lock and `CRYPTO_atomic_add`, is an `Answers` value: a
call makes each of these requests at most once, so that `step` is a function of the
context, the answers and the call.  Any inner implementation, failing or misbehaving as it
likes, is some answer to every call (`Cipher.Step`).

`Exec` is the state inside a call: the context, the requests made so far with their answers
(`trace`) and the error reasons raised.  A C `int` is an `Int`. -/

namespace G301.Outer

open ByteString Param

inductive Phase where
  | noRecord
  | manifestPending
  | active
  | finalized
deriving DecidableEq, Repr

inductive Reason where
  | invalidParameter
  | invalidState
  | outputBufferTooSmall
  | internalError
  | keyUsageLimitExceeded
deriving DecidableEq, Repr

abbrev intMax : ℤ := 2 ^ 31 - 1

/-- `G301_ENCRYPT_RECORD_LIMIT`. -/
def encryptRecordLimit : ℤ := 23680450

/-- A 32-bit two's complement `int`. -/
def wrapInt (n : ℤ) : ℤ := (n + 2 ^ 31) % 2 ^ 32 - 2 ^ 31

theorem wrapInt_of_le {n : ℤ} (h0 : -2 ^ 31 ≤ n) (h : n ≤ intMax) : wrapInt n = n := by
  simp only [wrapInt, intMax] at *
  omega

structure Ctx where
  phase : Phase
  encrypt : Bool
  directionSet : Bool
  keyValid : Bool
  needsReinit : Bool
  decryptTagCurrent : Bool
  payloadStarted : Bool
  currentKey : Bytes
  usageKey : Bytes
  encryptedRecords : ℤ
  recordLimit : ℤ
  currentKeyValid : Bool
  currentKeyChanged : Bool
  usageKeyValid : Bool
  usageExhausted : Bool
  recordReserved : Bool
deriving DecidableEq, Repr

/-- `g301_cipher_newctx`: all fields zero but the limit. -/
def Ctx.new (recordLimit : ℤ) : Ctx where
  phase := .noRecord
  encrypt := false
  directionSet := false
  keyValid := false
  needsReinit := false
  decryptTagCurrent := false
  payloadStarted := false
  currentKey := List.replicate keyLength 0
  usageKey := List.replicate keyLength 0
  encryptedRecords := 0
  recordLimit := recordLimit
  currentKeyValid := false
  currentKeyChanged := false
  usageKeyValid := false
  usageExhausted := false
  recordReserved := false

/-- Success and output length of an inner update or final. -/
structure Reply where
  ok : Bool
  outl : ℤ
deriving DecidableEq, Repr

/-- Success, reported size and buffer of an inner tag fetch. -/
structure TagReply where
  ok : Bool
  returnSize : ℕ
  tag : Vector UInt8 tagLength
deriving DecidableEq, Repr

/-- What the code outside answers during one call. -/
structure Answers where
  init : Bool
  recordLock : Bool
  installLock : Bool
  atomicAdd : Bool
  manifest : Reply
  data : Reply
  final : Reply
  getParams : TagReply
  setParams : Bool
deriving DecidableEq, Repr

/-- A request to the code outside, with its answer. -/
inductive ExtCall where
  | init (key iv : Option Bytes) (encrypt : Bool) (params : List Param) (ok : Bool)
  | update (out : Bool) (data : Bytes) (reply : Reply)
  | final (reply : Reply)
  | getParams (reply : TagReply)
  | setParams (params : List Param) (ok : Bool)
  | writeLock (ok : Bool)
  | atomicAdd (ok : Bool)
deriving DecidableEq, Repr

/-- The request goes to the inner context. -/
def ExtCall.isInner : ExtCall → Bool
  | writeLock _ | atomicAdd _ => false
  | _ => true

structure Exec where
  ctx : Ctx
  trace : List ExtCall
  raised : List Reason

namespace Exec

abbrev start (ctx : Ctx) : Exec := ⟨ctx, [], []⟩

def raise (e : Exec) (reason : Reason) : Exec := { e with raised := e.raised ++ [reason] }

def request (e : Exec) (call : ExtCall) : Exec := { e with trace := e.trace ++ [call] }

def modify (e : Exec) (f : Ctx → Ctx) : Exec := { e with ctx := f e.ctx }

end Exec

/-- `g301_manifest`: the 32 bytes that open the associated data of every record. -/
def manifest : Bytes :=
  beBytes manifestLength 0x473330312d544c5331332d41454144010401012d0100630101740100af0203b3

def Ctx.invalidateRecord (ctx : Ctx) : Ctx :=
  { ctx with phase := .noRecord, payloadStarted := false, decryptTagCurrent := false }

def Ctx.poison (ctx : Ctx) : Ctx :=
  { ctx with needsReinit := true, decryptTagCurrent := false }

def Ctx.clearTag (ctx : Ctx) : Ctx := { ctx with decryptTagCurrent := false }

/-- Poisoned and without a record. -/
def Ctx.drop (ctx : Ctx) : Ctx := ctx.poison.invalidateRecord

/-! ### Write-key bookkeeping -/

def recordCurrentKey (ans : Answers) (key : Bytes) (e : Exec) : Bool × Exec :=
  let e := e.request (.writeLock ans.recordLock)
  if !ans.recordLock then (false, e)
  else
    let changed := !e.ctx.currentKeyValid || decide (e.ctx.currentKey ≠ key)
    if changed then
      (true, e.modify fun ctx =>
        { ctx with currentKey := key, currentKeyValid := true, currentKeyChanged := true })
    else (true, e)

def installWriteKey (ans : Answers) (e : Exec) : Bool × Exec :=
  if !e.ctx.currentKeyValid then (false, e)
  else if e.ctx.usageKeyValid && !e.ctx.currentKeyChanged then
    (true, e.modify fun ctx => { ctx with recordReserved := false })
  else
    let e := e.request (.writeLock ans.installLock)
    if !ans.installLock then (false, e)
    else if !e.ctx.currentKeyValid then (false, e)
    else
      let sameKey := e.ctx.usageKeyValid && decide (e.ctx.usageKey = e.ctx.currentKey)
      let e := if !sameKey then
          e.modify fun ctx => { ctx with
            usageKey := ctx.currentKey, usageKeyValid := true, encryptedRecords := 0,
            usageExhausted := false }
        else e
      (true, e.modify fun ctx => { ctx with currentKeyChanged := false, recordReserved := false })

def reserveEncryptionRecord (ans : Answers) (e : Exec) : Bool × Exec :=
  if e.ctx.recordReserved then (true, e)
  else if !e.ctx.usageKeyValid || e.ctx.usageExhausted then
    (false, (e.modify Ctx.drop).raise .keyUsageLimitExceeded)
  else
    let e := e.request (.atomicAdd ans.atomicAdd)
    if !ans.atomicAdd then (false, (e.modify Ctx.drop).raise .internalError)
    else
      let records := wrapInt (e.ctx.encryptedRecords + 1)
      let e := e.modify fun ctx => { ctx with encryptedRecords := records }
      if records ≤ e.ctx.recordLimit then
        (true, e.modify fun ctx => { ctx with recordReserved := true })
      else
        let e := e.modify fun ctx => { ctx with usageExhausted := true }
        (false, (e.modify Ctx.drop).raise .keyUsageLimitExceeded)

/-! ### Initialisation -/

section
variable (lib : Libcrypto)

/-- Whether the parameters are admitted, and whether they carry a tag. -/
def validateInitParams (params : Option (List Param)) (encrypt newRecord : Bool) : Bool × Bool :=
  match params with
  | none => (true, false)
  | some params =>
      let tagParam := locate params aeadTag
      let hasTag := tagParam.isSome
      if hasForbiddenLegacyParam params || initParamsHaveDuplicates params then (false, hasTag)
      else if !lengthsAdmitted lib params then (false, hasTag)
      else
        match tagParam with
        | none => (true, hasTag)
        | some tag => (!(encrypt || !newRecord || !isTag tag), hasTag)

/-- `g301_init` from the inner init on. -/
def initInner (ans : Answers) (encrypt : Bool) (key iv : Buffer)
    (params : Option (List Param)) (hasTag : Bool) (e : Exec) : Bool × Exec :=
  let hasKey := !key.isNull
  let hasIv := !iv.isNull
  let e := e.request
    (.init key.data? iv.data? encrypt (filtered (ivOf params) (tagOf params)) ans.init)
  if !ans.init then
    let e := if hasKey then e.modify fun ctx => { ctx with keyValid := false } else e
    (false, e.modify Ctx.drop)
  else
    let (recorded, e) :=
      match key.data? with
      | some key => recordCurrentKey ans key e
      | none => (true, e)
    if !recorded then (false, (e.modify Ctx.drop).raise .internalError)
    else
      let e := e.modify fun ctx => { ctx with encrypt := encrypt, directionSet := true }
      let e := if hasKey then e.modify fun ctx => { ctx with keyValid := true } else e
      if hasIv then
        if !e.ctx.keyValid then (false, (e.modify Ctx.drop).raise .invalidState)
        else
          let (installed, e) := if encrypt then installWriteKey ans e else (true, e)
          if !installed then (false, (e.modify Ctx.drop).raise .internalError)
          else
            (true, e.modify fun ctx => { ctx with
              phase := .manifestPending, payloadStarted := false,
              decryptTagCurrent := !encrypt && hasTag, needsReinit := false })
      else (true, e.modify Ctx.invalidateRecord)

/-- `g301_init`; the two init entries of the dispatch table fix the direction. -/
def init (ans : Answers) (encrypt : Bool) (key iv : Buffer) (params : Option (List Param))
    (ctx : Ctx) : Bool × Exec :=
  let e := Exec.start ctx
  let hasKey := !key.isNull
  let hasIv := !iv.isNull
  let directionChange := ctx.directionSet && decide (ctx.encrypt ≠ encrypt)
  let tagParam := tagOf params
  let e := if tagParam.isSome then e.modify Ctx.clearTag else e
  if (hasKey && decide (key.size ≠ keyLength)) || (!hasKey && decide (key.size ≠ 0)) ||
      (hasIv && decide (iv.size ≠ ivLength)) || (!hasIv && decide (iv.size ≠ 0)) then
    let e := if tagParam.isSome && (hasKey || directionChange) then e.modify Ctx.invalidateRecord
      else e
    let e := if directionChange then e.modify Ctx.clearTag else e
    (false, e.raise .invalidParameter)
  else
    let (valid, hasTag) :=
      validateInitParams lib params encrypt (hasIv && (hasKey || e.ctx.keyValid))
    if !valid then
      let e := if hasTag && (hasKey || directionChange) then e.modify Ctx.invalidateRecord else e
      let e := if directionChange || hasTag then e.modify Ctx.clearTag else e
      (false, e.raise .invalidParameter)
    else if hasTag && (!hasIv || (!hasKey && !e.ctx.keyValid)) then
      let e := e.modify Ctx.clearTag
      let e := if hasKey || directionChange then e.modify Ctx.invalidateRecord else e
      (false, e.raise .invalidState)
    else if hasIv && !hasKey && !e.ctx.keyValid then (false, e.raise .invalidState)
    else
      let e := if directionChange || hasKey then e.modify Ctx.invalidateRecord else e
      let e := if hasKey then e.modify fun ctx => { ctx with keyValid := false } else e
      initInner ans encrypt key iv params hasTag e

end

/-! ### Update and final -/

def injectManifest (ans : Answers) (e : Exec) : Bool × Exec :=
  if e.ctx.phase ≠ .manifestPending then (decide (e.ctx.phase = .active), e)
  else
    let (reserved, e) := if e.ctx.encrypt then reserveEncryptionRecord ans e else (true, e)
    if !reserved then (false, e)
    else
      let e := e.request (.update false manifest ans.manifest)
      if !ans.manifest.ok then (false, e.modify Ctx.poison)
      else if ans.manifest.outl ≠ manifestLength then
        (false, (e.modify Ctx.poison).raise .internalError)
      else (true, e.modify fun ctx => { ctx with phase := .active })

/-- The context takes neither update nor final. -/
def Ctx.refuses (ctx : Ctx) : Bool :=
  ctx.needsReinit || decide (ctx.phase = .noRecord) || decide (ctx.phase = .finalized)

/-- The result is the return value and, if `outl` is not NULL, what it holds afterwards. -/
def update (ans : Answers) (out hasOutl : Bool) (outsize : ℕ) (input : Buffer) (ctx : Ctx) :
    Bool × Option ℕ × Exec :=
  let e := Exec.start ctx
  if !hasOutl then (false, none, e)
  else if e.ctx.refuses then (false, some 0, e.raise .invalidState)
  else if (input.isNull && decide (input.size ≠ 0)) || decide (intMax < input.size) then
    (false, some 0, e.raise .invalidParameter)
  else if input.size = 0 then (true, some 0, e)
  else if out && decide (outsize < input.size) then
    (false, some 0, e.raise .outputBufferTooSmall)
  else if !out && e.ctx.payloadStarted then (false, some 0, e.raise .invalidState)
  else
    match injectManifest ans e with
    | (false, e) => (false, some 0, e)
    | (true, e) =>
        let e := e.request (.update out ((input.data?).getD []) ans.data)
        if !ans.data.ok then (false, some 0, e.modify Ctx.poison)
        else if ans.data.outl < 0 ∨ ans.data.outl ≠ input.size ∨
            (out = true ∧ (outsize : ℤ) < ans.data.outl) then
          (false, some 0, (e.modify Ctx.poison).raise .internalError)
        else
          let e := if out then e.modify fun ctx => { ctx with payloadStarted := true } else e
          (true, some input.size, e)

def final (ans : Answers) (hasOutl : Bool) (ctx : Ctx) : Bool × Option ℕ × Exec :=
  let e := Exec.start ctx
  if !hasOutl then
    let e := if !e.ctx.needsReinit &&
        (decide (e.ctx.phase = .manifestPending) || decide (e.ctx.phase = .active)) then
        e.modify Ctx.poison
      else e
    (false, none, e.raise .invalidParameter)
  else if e.ctx.refuses then (false, some 0, e.raise .invalidState)
  else if !e.ctx.encrypt && !e.ctx.decryptTagCurrent then
    (false, some 0, (e.modify Ctx.poison).raise .invalidState)
  else
    match injectManifest ans e with
    | (false, e) => (false, some 0, e)
    | (true, e) =>
        let e := e.modify Ctx.clearTag
        let e := e.request (.final ans.final)
        if !ans.final.ok then (false, some 0, e.modify Ctx.poison)
        else if ans.final.outl ≠ 0 then
          (false, some 0, (e.modify Ctx.poison).raise .internalError)
        else (true, some 0, e.modify fun ctx => { ctx with phase := .finalized })

/-! ### Context parameters -/

/-- The return value and the parameter afterwards. -/
def getEncryptionTag (ans : Answers) (param : Param) (e : Exec) : Bool × Param × Exec :=
  if param.dataType ≠ .octetString then (false, param, e.raise .invalidParameter)
  else if param.buffer.isNull then (true, { param with returnSize := tagLength }, e)
  else if param.buffer.size ≠ tagLength then
    (false, { param with returnSize := tagLength }, e.raise .invalidParameter)
  else
    let e := e.request (.getParams ans.getParams)
    if !ans.getParams.ok then (false, param, e.modify Ctx.poison)
    else if ans.getParams.returnSize ≠ tagLength then
      (false, param, (e.modify Ctx.poison).raise .internalError)
    else
      (true, { param with buffer := .bytes ans.getParams.tag.toList, returnSize := tagLength }, e)

section
variable (lib : Libcrypto)

/-- Answers one requested size; the result is the array afterwards. -/
def setSize (params : List Param) (key : String) (value : ℕ) : Bool × List Param :=
  match locate params key with
  | none => (true, params)
  | some param =>
      let (ok, buffer, returnSize) := lib.setSizeT param value
      (ok, replace params key { param with buffer := buffer, returnSize := returnSize })

/-- The return value and the caller's array afterwards. -/
def getCtxParams (ans : Answers) (params : Option (List Param)) (ctx : Ctx) :
    Bool × Option (List Param) × Exec :=
  let e := Exec.start ctx
  match params with
  | none => (true, none, e)
  | some params =>
      if hasForbiddenLegacyParam params || getCtxParamsHaveDuplicates params then
        (false, some params, e.raise .invalidParameter)
      else
        match setSize lib params ivlen ivLength with
        | (false, params) => (false, some params, e.raise .invalidParameter)
        | (true, params) =>
        match setSize lib params keylen keyLength with
        | (false, params) => (false, some params, e.raise .invalidParameter)
        | (true, params) =>
        match setSize lib params aeadTaglen tagLength with
        | (false, params) => (false, some params, e.raise .invalidParameter)
        | (true, params) =>
            match locate params aeadTag with
            | none => (true, some params, e)
            | some param =>
                if !e.ctx.encrypt || decide (e.ctx.phase ≠ .finalized) || e.ctx.needsReinit then
                  (false, some params, e.raise .invalidState)
                else
                  let r := getEncryptionTag ans param e
                  (r.1, some (replace params aeadTag r.2.1), r.2.2)

/-- Whether the parameters are admitted, and the tag parameter that was looked at. -/
def validateSetParams (ctx : Ctx) (params : List Param) : Bool × Option Param :=
  if initParamsHaveDuplicates params then (false, none)
  else if !lengthsAdmitted lib params then (false, none)
  else
    match locate params aeadTag with
    | none => (true, none)
    | some tag =>
        (!(ctx.encrypt || ctx.needsReinit ||
          (decide (ctx.phase ≠ .manifestPending) && decide (ctx.phase ≠ .active)) || !isTag tag),
          some tag)

def setCtxParams (ans : Answers) (params : Option (List Param)) (ctx : Ctx) : Bool × Exec :=
  let e := Exec.start ctx
  match params with
  | none => (true, e)
  | some params =>
      let e := if (locate params aeadTag).isSome then e.modify Ctx.clearTag else e
      if hasForbiddenLegacyParam params then (false, e.raise .invalidParameter)
      else
        match validateSetParams lib e.ctx params with
        | (false, _) => (false, e.raise .invalidParameter)
        | (true, none) => (true, e)
        | (true, some tag) =>
            let e := e.request
              (.setParams (filtered (locate params ivlen) (some tag)) ans.setParams)
            if !ans.setParams then (false, e.modify Ctx.poison)
            else (true, e.modify fun ctx => { ctx with decryptTagCurrent := true })

end

/-! ### Calls -/

/-- A call of the provider's dispatch table on the context. -/
inductive Call where
  | init (encrypt : Bool) (key iv : Buffer) (params : Option (List Param))
  | update (out hasOutl : Bool) (outsize : ℕ) (input : Buffer)
  | final (hasOutl : Bool)
  | getCtxParams (params : Option (List Param))
  | setCtxParams (params : Option (List Param))
deriving DecidableEq, Repr

/-- A call with everything that can be seen of it: its return value, `outl` and the caller's
array afterwards, the reasons raised and the requests made. -/
structure Event where
  call : Call
  ret : Bool
  outl : Option ℕ
  params : Option (List Param)
  raised : List Reason
  trace : List ExtCall
deriving DecidableEq, Repr

namespace Cipher

/-- One call on a context. -/
def step (lib : Libcrypto) (ctx : Ctx) (ans : Answers) (call : Call) : Event × Ctx :=
  match call with
  | .init encrypt key iv params =>
      let (ret, e) := Outer.init lib ans encrypt key iv params ctx
      (⟨call, ret, none, none, e.raised, e.trace⟩, e.ctx)
  | .update out hasOutl outsize input =>
      let (ret, outl, e) := Outer.update ans out hasOutl outsize input ctx
      (⟨call, ret, outl, none, e.raised, e.trace⟩, e.ctx)
  | .final hasOutl =>
      let (ret, outl, e) := Outer.final ans hasOutl ctx
      (⟨call, ret, outl, none, e.raised, e.trace⟩, e.ctx)
  | .getCtxParams params =>
      let (ret, params, e) := Outer.getCtxParams lib ans params ctx
      (⟨call, ret, none, params, e.raised, e.trace⟩, e.ctx)
  | .setCtxParams params =>
      let (ret, e) := Outer.setCtxParams lib ans params ctx
      (⟨call, ret, none, none, e.raised, e.trace⟩, e.ctx)

/-- One call, whatever the code outside answers. -/
def Step (lib : Libcrypto) (ctx : Ctx) (ev : Event) (next : Ctx) : Prop :=
  ∃ ans, step lib ctx ans ev.call = (ev, next)

end Cipher

end G301.Outer
