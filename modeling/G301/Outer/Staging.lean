import G301.Outer.TagFreshness

/-! # Staged and one-shot initialisation

`staging_agrees`: one init with key and IV, a key followed by an IV, a direction followed by
both, and an init followed by its tag end in the same context and leave the inner context with
the same key, IV, direction and tag, from any context, as long as no request fails.

Each init is described by what it makes of the context and of the inner context
(`Performs.init`); the scripts are compositions of these descriptions. -/

namespace G301.Outer

open ByteString Param Lts

/-! ### Inits none of whose requests fails -/

def ExtCall.fails : ExtCall → Bool
  | init _ _ _ _ ok | setParams _ ok | writeLock ok | atomicAdd ok => !ok
  | update _ _ reply | final reply => !reply.ok
  | getParams reply => !reply.ok

theorem installWriteKey_succeeds {ans : Answers} {e : Exec} (hvalid : e.ctx.currentKeyValid = true)
    (hsound : ∀ c ∈ (installWriteKey ans e).2.trace, c.fails = false) :
    (installWriteKey ans e).1 = true := by
  unfold installWriteKey at *
  dsimp only at *
  split at hsound
  case isTrue hinvalid => simp [hvalid] at hinvalid
  case isFalse =>
    split at hsound
    case isTrue hkept => rw [if_neg (by simp [hvalid]), if_pos hkept]
    case isFalse hkept =>
      cases hlock : ans.installLock with
      | false =>
          have hfails := hsound (.writeLock false) (by simp [hlock, Exec.request])
          cases hfails
      | true => simp [hvalid, hkept, Exec.request]

theorem startRecord_succeeds {ans : Answers} {encrypt : Bool} {iv : Buffer} {hasTag : Bool}
    {e : Exec}
    (hvalid : iv.isNull = false → e.ctx.keyValid = true ∧ e.ctx.currentKeyValid = true)
    (hsound : ∀ c ∈ (startRecord ans encrypt iv hasTag e).2.trace, c.fails = false) :
    (startRecord ans encrypt iv hasTag e).1 = true := by
  cases hiv : iv.isNull with
  | true => simp [startRecord, hiv]
  | false =>
      obtain ⟨hkey, hcurrent⟩ := hvalid hiv
      cases encrypt with
      | false => simp [startRecord, hiv, hkey]
      | true =>
          have hinstalled : (installWriteKey ans e).1 = true := by
            refine installWriteKey_succeeds hcurrent fun c hc => hsound c ?_
            cases hok : (installWriteKey ans e).1 <;>
              simpa [startRecord, hiv, hkey, hok, Exec.modify, Exec.raise] using hc
          simp [startRecord, hiv, hkey, hinstalled]

theorem initInner_succeeds {ans : Answers} {encrypt : Bool} {key iv : Buffer}
    {params : Option (List Param)} {hasTag : Bool} {e : Exec}
    (hvalid : iv.isNull = false → (e.ctx.takeKey encrypt key).keyValid = true ∧
      (e.ctx.takeKey encrypt key).currentKeyValid = true)
    (hsound : ∀ c ∈ (initInner ans encrypt key iv params hasTag e).2.trace, c.fails = false) :
    (initInner ans encrypt key iv params hasTag e).1 = true := by
  rw [initInner_eq] at hsound ⊢
  split at hsound
  case isTrue =>
    have hfails := hsound (initRequest encrypt key iv params false) (by simp)
    cases hfails
  case isFalse hinit =>
    split at hsound
    case isTrue hlock =>
      have hfails := hsound (.writeLock false) (by simp [recordTrace, hlock.1])
      cases hfails
    case isFalse hlock =>
      rw [if_neg hinit, if_neg hlock]
      exact startRecord_succeeds hvalid hsound

/-! ### Both contexts -/

/-- The outer context, and the inner one with the tag it holds. -/
structure Both where
  ctx : Ctx
  gcm : Gcm
  held : Option Bytes

/-- Both contexts after a history. -/
def both (h : List Event) (ctx : Ctx) : Both := ⟨ctx, replay h, heldTag h⟩

/-- What a successful init makes of the context. -/
def Ctx.afterInit (encrypt : Bool) (key iv : Buffer) (hasTag : Bool) (ctx : Ctx) : Ctx :=
  let taken := ctx.takeKey encrypt key
  if iv.isNull then taken.invalidateRecord
  else (if encrypt then taken.installKey else taken).beginRecord (!encrypt && hasTag)

def Both.init (encrypt : Bool) (key iv : Buffer) (params : Option (List Param)) (b : Both) :
    Both where
  ctx := b.ctx.afterInit encrypt key iv (tagOf params).isSome
  gcm := b.gcm.feed (initRequest encrypt key iv params true)
  held := tagBytes (filtered (ivOf params) (tagOf params)) <|> b.held

/-- The tag as the only parameter. -/
def tagParams (tag : Option Bytes) : Option (List Param) :=
  tag.map fun tag => [constructOctetString aeadTag (.bytes tag)]

@[simp] theorem tagOf_tagParams (tag : Option Bytes) :
    tagOf (tagParams tag) = tag.map fun tag => constructOctetString aeadTag (.bytes tag) := by
  cases tag <;> simp [tagOf, tagParams, locate, constructOctetString]

@[simp] theorem ivOf_tagParams (tag : Option Bytes) : ivOf (tagParams tag) = none := by
  cases tag <;> simp [ivOf, tagParams, locate, constructOctetString, aeadTag, ivlen]

/-- What a setting of the tag makes of them. -/
def Both.setTag (tag : Option Bytes) (b : Both) : Both where
  ctx := { b.ctx with decryptTagCurrent := tag.isSome || b.ctx.decryptTagCurrent }
  gcm := b.gcm
  held := tag <|> b.held

namespace Both

variable (b : Both) (encrypt : Bool) (k v : Bytes) (params : Option (List Param))

theorem init_key_iv (m n : ℕ) :
    (b.init encrypt (.bytes k) (.null m) none).init encrypt (.null n) (.bytes v) params =
      b.init encrypt (.bytes k) (.bytes v) params := by
  cases encrypt <;> rfl

theorem init_direction_key (l m n : ℕ) :
    (b.init encrypt (.null l) (.null m) none).init encrypt (.bytes k) (.null n) none =
      b.init encrypt (.bytes k) (.null n) none := rfl

theorem init_setTag (tag : Option Bytes) (hdecrypt : tag.isSome = true → encrypt = false) :
    (b.init encrypt (.bytes k) (.bytes v) none).setTag tag =
      b.init encrypt (.bytes k) (.bytes v) (tagParams tag) := by
  cases tag with
  | none => rfl
  | some t =>
      obtain rfl := hdecrypt rfl
      rw [setTag, init, init, Both.mk.injEq]
      refine ⟨?_, rfl, ?_⟩
      · simp [Ctx.afterInit, Ctx.beginRecord, Buffer.isNull]
      · simp [tagBytes_filtered, constructOctetString, Buffer.data?]

end Both

/-! ### Scripts -/

/-- The calls of the script, none of whose requests to the code outside fails. -/
structure Performs (lib : Libcrypto) (ctx : Ctx) (script : List Call) (done : List Event)
    (next : Ctx) : Prop where
  run : Path (Cipher.Step lib) ctx done next
  calls : done.map Event.call = script
  sound : ∀ ev ∈ done, ∀ c ∈ ev.trace, c.fails = false

namespace Performs

variable {lib : Libcrypto} {ctx next : Ctx} {script : List Call} {done : List Event}

theorem nil_inv (h : Performs lib ctx [] done next) : done = [] ∧ next = ctx := by
  obtain rfl := List.map_eq_nil_iff.mp h.calls
  exact ⟨rfl, h.run.nil_inv⟩

theorem cons_inv {call : Call} (h : Performs lib ctx (call :: script) done next) :
    ∃ ev mid rest, done = ev :: rest ∧ ev.call = call ∧ Cipher.Step lib ctx ev mid ∧
      (∀ c ∈ ev.trace, c.fails = false) ∧ Performs lib mid script rest next := by
  obtain ⟨ev, rest, rfl, hcall, hcalls⟩ := List.map_eq_cons_iff.mp h.calls
  obtain ⟨mid, hstep, hrun⟩ := h.run.cons_inv
  exact ⟨ev, mid, rest, rfl, hcall, hstep, h.sound ev (by simp),
    ⟨hrun, hcalls, fun x hx => h.sound x (List.mem_cons_of_mem _ hx)⟩⟩

end Performs

/-- An init that passes its checks fails only through a request that fails. -/
theorem init_succeeds {lib : Libcrypto} {ctx next : Ctx} {ev : Event} {encrypt : Bool}
    {key iv : Buffer} {params : Option (List Param)} (hstep : Cipher.Step lib ctx ev next)
    (hcall : ev.call = .init encrypt key iv params)
    (haccepts : ctx.Accepts lib encrypt key iv params)
    (hcurrent : iv.isNull = false → key.isNull = true → ctx.currentKeyValid = true)
    (hsound : ∀ c ∈ ev.trace, c.fails = false) : ev.ret = true := by
  obtain ⟨ans, hstep⟩ := hstep
  rw [hcall] at hstep
  have hret : (init lib ans encrypt key iv params ctx).1 = ev.ret :=
    congrArg (fun r => r.1.ret) hstep
  have htrace : (init lib ans encrypt key iv params ctx).2.trace = ev.trace :=
    congrArg (fun r => r.1.trace) hstep
  obtain ⟨hrejects, -⟩ | ⟨-, prepared, hprepared, heq⟩ :=
    init_accepts lib ans encrypt key iv params ctx
  · exact absurd haccepts hrejects
  rw [heq] at hret htrace
  rw [← htrace] at hsound
  rw [← hret]
  refine initInner_succeeds (fun hiv => ?_) hsound
  have htaken := ctx.takeKey_of_dropKey encrypt hprepared
  have hkey := congrArg Ctx.keyValid htaken
  have hrecorded := congrArg Ctx.currentKeyValid htaken
  refine ⟨Eq.trans hkey ?_, Eq.trans hrecorded ?_⟩ <;> cases key with
  | null size => first | exact haccepts.key_valid hiv rfl | exact hcurrent hiv rfl
  | bytes k => rfl

/-- An init that succeeds, seen from its event. -/
theorem InitCase.of_true {ctx next : Ctx} {encrypt : Bool} {key iv : Buffer}
    {params : Option (List Param)} {ev : Event}
    (h : InitCase ctx encrypt key iv params ev next) (hret : ev.ret = true) :
    next = ctx.afterInit encrypt key iv (tagOf params).isSome ∧
      ∃ rest, ev.trace = initRequest encrypt key iv params true :: rest ∧
        ∀ c ∈ rest, c.isInner = false := by
  have hfailed (hfalse : ev.ret = false) : False := by
    rw [hret] at hfalse
    cases hfalse
  unfold Ctx.afterInit
  cases h with
  | rejected hfalse => exact (hfailed hfalse).elim
  | innerFailed _ hfalse => exact (hfailed hfalse).elim
  | recordFailed _ _ hfalse => exact (hfailed hfalse).elim
  | installFailed _ _ _ _ _ hfalse => exact (hfailed hfalse).elim
  | staged _ hiv _ htrace _ hnext =>
      rw [if_pos hiv]
      exact ⟨hnext, _, htrace, recordTrace_not_isInner key true⟩
  | begun locks _ hiv hlocks _ htrace _ hnext =>
      rw [if_neg (by simp [hiv])]
      exact ⟨hnext, _, htrace, locks_not_isInner key true hlocks⟩

theorem both_init {lib : Libcrypto} {ctx next : Ctx} {ev : Event} {encrypt : Bool}
    {key iv : Buffer} {params : Option (List Param)} (h : List Event)
    (hstep : Cipher.Step lib ctx ev next) (hcall : ev.call = .init encrypt key iv params)
    (hret : ev.ret = true) :
    both (h ++ [ev]) next = (both h ctx).init encrypt key iv params := by
  obtain ⟨encrypt', key', iv', params', hcall', hinit⟩ | ⟨hother, -⟩ :=
    (Cipher.step_cases hstep).frame
  case inr => exact absurd hcall (hother _ _ _ _)
  rw [hcall] at hcall'
  obtain ⟨rfl, rfl, rfl, rfl⟩ := Call.init.inj hcall'
  obtain ⟨hnext, rest, htrace, hrest⟩ := hinit.of_true hret
  rw [both, Both.init, Both.mk.injEq]
  refine ⟨hnext, ?_, ?_⟩
  · rw [replay_snoc, htrace, List.foldl_cons, ← Gcm.foldl_feed_filter,
      filter_of_not_isInner hrest]
    rfl
  · rw [heldTag_snoc, htrace, List.foldl_cons,
      foldl_holdTag _ fun c hc => tag?_of_not_isInner (hrest c hc)]
    cases htag : tagBytes (filtered (ivOf params) (tagOf params)) <;>
      simp [holdTag, initRequest, ExtCall.tag?, htag, both]

/-! ### Parameters with nothing but a tag -/

theorem validateInitParams_tagParams (lib : Libcrypto) {tag : Option Bytes}
    {encrypt newRecord : Bool}
    (h : ∀ t, tag = some t → encrypt = false ∧ newRecord = true ∧ t.length = tagLength) :
    (validateInitParams lib (tagParams tag) encrypt newRecord).1 = true := by
  cases tag with
  | none => rfl
  | some t =>
      obtain ⟨rfl, rfl, hlength⟩ := h t rfl
      simp [validateInitParams, tagParams, hasForbiddenLegacyParam, initParamsHaveDuplicates,
        hasDuplicate, lengthsAdmitted, sizeAdmitted, locate, constructOctetString, isTag, hlength,
        Buffer.isNull, Buffer.size, forbidden, aeadTag, keylen, ivlen, aeadTaglen]

theorem validateSetParams_tagParams (lib : Libcrypto) {ctx : Ctx} {t : Bytes}
    (hlive : ctx.refuses = false) (hencrypt : ctx.encrypt = false)
    (hlength : t.length = tagLength) :
    (validateSetParams lib ctx [constructOctetString aeadTag (.bytes t)]).1 = true := by
  obtain ⟨hinit, hphase⟩ := Ctx.refuses_eq_false_iff.mp hlive
  have hrecord : (decide (ctx.phase ≠ .manifestPending) && decide (ctx.phase ≠ .active)) =
      false := by
    obtain hphase | hphase := hphase <;> rw [hphase] <;> rfl
  unfold validateSetParams
  rw [hencrypt, hinit, hrecord]
  simp [initParamsHaveDuplicates, hasDuplicate, lengthsAdmitted, sizeAdmitted, locate,
    constructOctetString, isTag, hlength, Buffer.isNull, Buffer.size, aeadTag, keylen, ivlen,
    aeadTaglen]

theorem both_setTag {lib : Libcrypto} {ctx next : Ctx} {ev : Event} {tag : Option Bytes}
    (h : List Event) (hstep : Cipher.Step lib ctx ev next)
    (hcall : ev.call = .setCtxParams (tagParams tag))
    (hready : ∀ t, tag = some t →
      ctx.refuses = false ∧ ctx.encrypt = false ∧ t.length = tagLength)
    (hsound : ∀ c ∈ ev.trace, c.fails = false) :
    ev.ret = true ∧ both (h ++ [ev]) next = (both h ctx).setTag tag := by
  obtain ⟨ans, hstep⟩ := hstep
  rw [hcall] at hstep
  cases tag with
  | none =>
      obtain ⟨rfl, rfl⟩ := Prod.mk.inj hstep
      refine ⟨rfl, ?_⟩
      rw [both, replay_snoc, heldTag_snoc]
      rfl
  | some t =>
      obtain ⟨hlive, hencrypt, hlength⟩ := hready t rfl
      have hforbidden :
          hasForbiddenLegacyParam [constructOctetString aeadTag (.bytes t)] = false := by
        simp [hasForbiddenLegacyParam, constructOctetString, forbidden, aeadTag]
      have htag : locate [constructOctetString aeadTag (.bytes t)] aeadTag =
          some (constructOctetString aeadTag (.bytes t)) := by
        simp [locate, constructOctetString]
      have heq := setCtxParams_of_valid ans hforbidden
        (validateSetParams_tagParams lib hlive hencrypt hlength) htag
      simp only [Cipher.step, tagParams, Option.map_some, heq] at hstep
      obtain ⟨rfl, rfl⟩ := Prod.mk.inj hstep
      have hset : ans.setParams = true := by
        simpa [ExtCall.fails] using hsound
      refine ⟨hset, ?_⟩
      rw [both, Both.setTag, Both.mk.injEq]
      refine ⟨?_, ?_, ?_⟩
      · rw [if_pos hset]
        rfl
      · rw [replay_snoc]
        rfl
      · rw [heldTag_snoc, hset]
        simp [holdTag, ExtCall.tag?, tagBytes_filtered, constructOctetString, Buffer.data?]

/-! ### Every script agrees with the one init -/

/-- The ways to begin a record with a key, an IV and, for decryption, a tag. -/
def scripts (encrypt : Bool) (key iv : Bytes) (tag : Option Bytes) : List (List Call) :=
  [[.init encrypt (.bytes key) (.bytes iv) (tagParams tag)],
    [.init encrypt (.bytes key) (.null 0) none,
      .init encrypt (.null 0) (.bytes iv) (tagParams tag)],
    [.init encrypt (.null 0) (.null 0) none, .init encrypt (.bytes key) (.null 0) none,
      .init encrypt (.null 0) (.bytes iv) (tagParams tag)],
    [.init encrypt (.bytes key) (.bytes iv) none, .setCtxParams (tagParams tag)]]

theorem Performs.init {lib : Libcrypto} {ctx next : Ctx} {script : List Call}
    {done : List Event} {encrypt : Bool} {key iv : Buffer} {params : Option (List Param)}
    (hp : Performs lib ctx (.init encrypt key iv params :: script) done next)
    (haccepts : ctx.Accepts lib encrypt key iv params)
    (hcurrent : iv.isNull = false → key.isNull = true → ctx.currentKeyValid = true)
    (h : List Event) :
    ∃ ev mid rest, done = ev :: rest ∧ ev.ret = true ∧ Performs lib mid script rest next ∧
      both (h ++ [ev]) mid = (both h ctx).init encrypt key iv params := by
  obtain ⟨ev, mid, rest, rfl, hcall, hstep, hsound, hrest⟩ := hp.cons_inv
  have hret := init_succeeds hstep hcall haccepts hcurrent hsound
  exact ⟨ev, mid, rest, rfl, hret, hrest, both_init h hstep hcall hret⟩

theorem accepts_tagParams (lib : Libcrypto) {ctx : Ctx} {encrypt : Bool} {key iv : Buffer}
    {tag : Option Bytes} (hkey : key.size = if key.isNull then 0 else keyLength)
    (hiv : iv.size = if iv.isNull then 0 else ivLength)
    (hvalid : iv.isNull = false → key.isNull = true → ctx.keyValid = true)
    (htag : ∀ t, tag = some t →
      encrypt = false ∧ iv.isNull = false ∧ t.length = tagLength) :
    ctx.Accepts lib encrypt key iv (tagParams tag) := by
  refine ⟨hkey, hiv, hvalid, validateInitParams_tagParams lib fun t ht => ?_⟩
  obtain ⟨hdecrypt, hnew, hlength⟩ := htag t ht
  refine ⟨hdecrypt, ?_, hlength⟩
  cases hnull : key.isNull with
  | false => simp [hnew]
  | true => simp [hnew, hvalid hnew hnull]

section
variable {lib : Libcrypto} {ctx next : Ctx} {done : List Event} {encrypt : Bool}
  {key iv : Bytes} {tag : Option Bytes} (hkey : key.length = keyLength)
  (hiv : iv.length = ivLength)
include hkey hiv

theorem Performs.oneShot (htag : ∀ t, tag = some t → encrypt = false ∧ t.length = tagLength)
    {script : List Call} (h : List Event)
    (hp : Performs lib ctx (.init encrypt (.bytes key) (.bytes iv) (tagParams tag) :: script)
      done next) :
    ∃ ev mid rest, done = ev :: rest ∧ ev.ret = true ∧ Performs lib mid script rest next ∧
      both (h ++ [ev]) mid =
        (both h ctx).init encrypt (.bytes key) (.bytes iv) (tagParams tag) := by
  have haccepts : ctx.Accepts lib encrypt (.bytes key) (.bytes iv) (tagParams tag) :=
    accepts_tagParams lib hkey hiv (fun _ hnull => by cases hnull)
      fun t ht => ⟨(htag t ht).1, rfl, (htag t ht).2⟩
  exact hp.init haccepts (fun _ hnull => by cases hnull) h

theorem Performs.key_then_iv (htag : ∀ t, tag = some t → encrypt = false ∧ t.length = tagLength)
    (h : List Event)
    (hp : Performs lib ctx [.init encrypt (.bytes key) (.null 0) none,
      .init encrypt (.null 0) (.bytes iv) (tagParams tag)] done next) :
    (∀ ev ∈ done, ev.ret = true) ∧ both (h ++ done) next =
      (both h ctx).init encrypt (.bytes key) (.bytes iv) (tagParams tag) := by
  have hkeyOnly : ctx.Accepts lib encrypt (.bytes key) (.null 0) (tagParams none) :=
    accepts_tagParams lib hkey rfl (fun hnull => by cases hnull) (by simp)
  obtain ⟨ev, mid, rest, rfl, hret, hrest, hboth⟩ :=
    hp.init hkeyOnly (fun hnull => by cases hnull) h
  -- the key is in place when the IV comes
  have hmid : mid = ctx.afterInit encrypt (.bytes key) (.null 0) false := congrArg Both.ctx hboth
  have hivOnly : mid.Accepts lib encrypt (.null 0) (.bytes iv) (tagParams tag) :=
    accepts_tagParams lib rfl hiv (fun _ _ => by rw [hmid]; rfl)
      fun t ht => ⟨(htag t ht).1, rfl, (htag t ht).2⟩
  obtain ⟨ev', after, rest', rfl, hret', hrest', hboth'⟩ :=
    hrest.init hivOnly (fun _ _ => by rw [hmid]; rfl) (h ++ [ev])
  obtain ⟨rfl, rfl⟩ := hrest'.nil_inv
  refine ⟨by simp [hret, hret'], ?_⟩
  rw [← Both.init_key_iv, ← hboth, ← hboth', List.append_assoc]
  rfl

/-- Every script has the effect of its first one. -/
theorem Performs.agrees (htag : ∀ t, tag = some t → encrypt = false ∧ t.length = tagLength)
    {script : List Call} (hscript : script ∈ scripts encrypt key iv tag) (h : List Event)
    (hp : Performs lib ctx script done next) :
    (∀ ev ∈ done, ev.ret = true) ∧ both (h ++ done) next =
      (both h ctx).init encrypt (.bytes key) (.bytes iv) (tagParams tag) := by
  simp only [scripts, List.mem_cons, List.not_mem_nil, or_false] at hscript
  obtain rfl | rfl | rfl | rfl := hscript
  · obtain ⟨ev, mid, rest, rfl, hret, hrest, hboth⟩ := hp.oneShot hkey hiv htag h
    obtain ⟨rfl, rfl⟩ := hrest.nil_inv
    exact ⟨by simpa using hret, hboth⟩
  · exact hp.key_then_iv hkey hiv htag h
  · have hdirection : ctx.Accepts lib encrypt (.null 0) (.null 0) (tagParams none) :=
      accepts_tagParams lib rfl rfl (fun hnull => by cases hnull) (by simp)
    obtain ⟨ev, mid, rest, rfl, hret, hrest, hboth⟩ :=
      hp.init hdirection (fun hnull => by cases hnull) h
    obtain ⟨hrets, hafter⟩ := hrest.key_then_iv hkey hiv htag (h ++ [ev])
    refine ⟨by simpa [hret] using hrets, ?_⟩
    rw [List.append_assoc, List.singleton_append, hboth] at hafter
    rw [hafter, ← Both.init_key_iv _ _ _ _ _ 0 0, ← Both.init_key_iv _ _ _ _ _ 0 0,
      Both.init_direction_key]
  · have hnone : ∀ t : Bytes, none = some t → encrypt = false ∧ t.length = tagLength := by simp
    obtain ⟨ev, mid, rest, rfl, hret, hrest, hboth⟩ := hp.oneShot hkey hiv hnone h
    obtain ⟨ev', after, rest', rfl, hcall, hstep, hsound, hrest'⟩ := hrest.cons_inv
    obtain ⟨rfl, rfl⟩ := hrest'.nil_inv
    have hmid : mid = ctx.afterInit encrypt (.bytes key) (.bytes iv) false :=
      congrArg Both.ctx hboth
    have hready : ∀ t, tag = some t →
        mid.refuses = false ∧ mid.encrypt = false ∧ t.length = tagLength := by
      intro t ht
      obtain ⟨rfl, hlength⟩ := htag t ht
      rw [hmid]
      exact ⟨rfl, rfl, hlength⟩
    obtain ⟨hret', hset⟩ := both_setTag (h ++ [ev]) hstep hcall hready hsound
    refine ⟨by simp [hret, hret'], ?_⟩
    rw [List.append_assoc, List.singleton_append, hboth] at hset
    rw [hset]
    exact Both.init_setTag _ _ _ _ _ fun hsome => by
      obtain ⟨t, ht⟩ := Option.isSome_iff_exists.mp hsome
      exact (htag t ht).1

end

/-- From any context with any history `h`, all scripts with one key, IV and tag end in the same
context, and leave the inner context with that key, IV, direction and tag. -/
theorem staging_agrees {lib : Libcrypto} {ctx next next' : Ctx} {encrypt : Bool} {key iv : Bytes}
    {tag : Option Bytes} {script script' : List Call} {done done' : List Event}
    (hkey : key.length = keyLength) (hiv : iv.length = ivLength)
    (htag : ∀ t, tag = some t → encrypt = false ∧ t.length = tagLength)
    (hscript : script ∈ scripts encrypt key iv tag)
    (hscript' : script' ∈ scripts encrypt key iv tag)
    (hp : Performs lib ctx script done next) (hp' : Performs lib ctx script' done' next')
    (h : List Event) :
    (∀ ev ∈ done ++ done', ev.ret = true) ∧ next = next' ∧
      replay (h ++ done) = ⟨some key, some iv, encrypt, [], []⟩ ∧
      replay (h ++ done') = replay (h ++ done) ∧
      heldTag (h ++ done) = (tag <|> heldTag h) ∧ heldTag (h ++ done') = heldTag (h ++ done) := by
  obtain ⟨hrets, hboth⟩ := hp.agrees hkey hiv htag hscript h
  obtain ⟨hrets', hboth'⟩ := hp'.agrees hkey hiv htag hscript' h
  have heq : both (h ++ done') next' = both (h ++ done) next := hboth'.trans hboth.symm
  have hheld : heldTag (h ++ done) =
      (tagBytes (filtered (ivOf (tagParams tag)) (tagOf (tagParams tag))) <|> heldTag h) :=
    congrArg Both.held hboth
  refine ⟨?_, (congrArg Both.ctx heq).symm, congrArg Both.gcm hboth, congrArg Both.gcm heq, ?_,
    congrArg Both.held heq⟩
  · intro ev hev
    obtain hev | hev := List.mem_append.mp hev
    · exact hrets ev hev
    · exact hrets' ev hev
  · rw [hheld, tagBytes_filtered, tagOf_tagParams]
    cases tag <;> rfl

/-- A decryption record begun in the middle of an encryption record, at once or in stages. -/
def turned (script : List Call) : List Event × Ctx :=
  exec (Cipher.move littleEndian) activeRecord (script.map (compliant 0, ·))

theorem staging_agrees_midRecord :
    let key := 2 :: List.replicate 31 0
    let iv := 4 :: List.replicate 11 0
    let once := [.init false (.bytes key) (.bytes iv) (tagParams (some tag))]
    let staged := [.init false (.null 0) (.null 0) none, .init false (.bytes key) (.null 0) none,
      .init false (.null 0) (.bytes iv) (tagParams (some tag))]
    (turned once).2 = (turned staged).2 ∧
      replay (turned staged).1 = replay (turned once).1 ∧
      heldTag (turned staged).1 = heldTag (turned once).1 := by
  intro key iv once staged
  have honce : Performs littleEndian activeRecord once (turned once).1 (turned once).2 :=
    ⟨Cipher.path_execute _ _ _, by decide +kernel, by decide +kernel⟩
  have hstaged : Performs littleEndian activeRecord staged (turned staged).1 (turned staged).2 :=
    ⟨Cipher.path_execute _ _ _, by decide +kernel, by decide +kernel⟩
  have htag : ∀ t, some tag = some t → false = false ∧ t.length = tagLength := by
    intro t ht
    obtain rfl := Option.some.inj ht
    exact ⟨rfl, by decide⟩
  have hmem : once ∈ scripts false key iv (some tag) := by simp [scripts, once]
  have hmem' : staged ∈ scripts false key iv (some tag) := by simp [scripts, staged]
  obtain ⟨-, hctx, -, hreplay, -, hheld⟩ :=
    staging_agrees (by decide) (by decide) htag hmem hmem' honce hstaged []
  exact ⟨hctx, hreplay, hheld⟩

end G301.Outer
