import G301.Lib.Lookup
import G301.Outer.Execution
import G301.Outer.Records

/-! # The parameter policy

`parameter_policy`: init and set_ctx_params fail without asking the inner context exactly when
the array breaks the policy, give the inner context only its IV length and the caller's tag
otherwise, and do not depend on the order of the array.

`Proper` is the policy on the array as a set of parameters: it says what may occur and how
often, where the code looks for first matches.  `proper_iff` ties the two together; on a
proper array the first match is the only one. -/

namespace G301.Outer

open ByteString Param

/-! ### The policy -/

/-- The parameters that may occur once. -/
def singletons : List String := [keylen, ivlen, aeadTaglen, aeadTag]

/-- The sizes that the parameters of that key have to read as. -/
def fixedSizes : List (String × ℕ) :=
  [(keylen, keyLength), (ivlen, ivLength), (aeadTaglen, tagLength)]

def HasTag (params : List Param) : Prop := ∃ param ∈ params, param.key = aeadTag

structure Proper (lib : Libcrypto) (params : List Param) : Prop where
  allowed : ∀ param ∈ params, param.key ∉ forbidden
  once : ∀ name ∈ singletons, params.countP (fun param => param.key = name) ≤ 1
  sizes : ∀ param ∈ params, ∀ size, (param.key, size) ∈ fixedSizes →
    lib.getSizeT param = some size
  tags : ∀ param ∈ params, param.key = aeadTag →
    param.dataType = .octetString ∧ ∃ tag, param.buffer = .bytes tag ∧ tag.length = tagLength

/-- The policy of init: a tag comes with a record to decrypt. -/
structure InitPolicy (lib : Libcrypto) (ctx : Ctx) (encrypt : Bool) (key iv : Buffer)
    (params : List Param) : Prop where
  proper : Proper lib params
  tag : HasTag params →
    encrypt = false ∧ iv.isNull = false ∧ (key.isNull = false ∨ ctx.keyValid = true)

/-- The policy of set_ctx_params: a tag comes while a record is decrypted. -/
structure SetPolicy (lib : Libcrypto) (ctx : Ctx) (params : List Param) : Prop where
  proper : Proper lib params
  tag : HasTag params → ctx.encrypt = false ∧ ctx.needsReinit = false ∧
    (ctx.phase = .manifestPending ∨ ctx.phase = .active)

/-- At most one IV length of 12, at most one tag with the caller's 16 bytes, nothing else. -/
structure Minimal (params given : List Param) : Prop where
  entries : ∀ param ∈ given, param = constructSizeT ivlen ivLength ∨
    ∃ tag ∈ params, tag.key = aeadTag ∧ ∃ data, tag.buffer = .bytes data ∧
      data.length = tagLength ∧ param = constructOctetString aeadTag (.bytes data)
  ivlen_once : given.countP (fun param => param.key = ivlen) ≤ 1
  tag_once : given.countP (fun param => param.key = aeadTag) ≤ 1

/-! ### The checks of the code -/

section
variable {lib : Libcrypto} {params : List Param}

theorem hasForbiddenLegacyParam_eq_false_iff :
    hasForbiddenLegacyParam params = false ↔ ∀ param ∈ params, param.key ∉ forbidden := by
  simp [hasForbiddenLegacyParam]

theorem initParamsHaveDuplicates_eq_false_iff :
    initParamsHaveDuplicates params = false ↔
      ∀ name ∈ singletons, params.countP (fun param => param.key = name) ≤ 1 := by
  simp [initParamsHaveDuplicates, hasDuplicate, singletons, and_assoc]

theorem locate_eq_some_iff {name : String}
    (hone : params.countP (fun param => param.key = name) ≤ 1) (param : Param) :
    locate params name = some param ↔ param ∈ params ∧ param.key = name := by
  rw [locate, Lookup.find?_eq_some_iff hone, decide_eq_true_iff]

theorem locate_isSome_iff (name : String) :
    (locate params name).isSome = true ↔ ∃ param ∈ params, param.key = name := by
  simp [locate]

theorem sizeAdmitted_iff {name : String} {size : ℕ}
    (hone : params.countP (fun param => param.key = name) ≤ 1) :
    sizeAdmitted lib params name size = true ↔
      ∀ param ∈ params, param.key = name → lib.getSizeT param = some size := by
  unfold sizeAdmitted
  cases hlocate : locate params name with
  | none =>
      simp only [true_iff]
      intro param hparam hkey
      rw [(locate_eq_some_iff hone param).mpr ⟨hparam, hkey⟩] at hlocate
      cases hlocate
  | some found =>
      simp only [decide_eq_true_iff]
      constructor
      · intro hsize param hparam hkey
        rw [(locate_eq_some_iff hone param).mpr ⟨hparam, hkey⟩] at hlocate
        rwa [Option.some.inj hlocate]
      · intro hsizes
        obtain ⟨hfound, hkey⟩ := (locate_eq_some_iff hone found).mp hlocate
        exact hsizes found hfound hkey

theorem isTag_iff (param : Param) :
    isTag param = true ↔ param.dataType = .octetString ∧
      ∃ tag, param.buffer = .bytes tag ∧ tag.length = tagLength := by
  unfold isTag
  cases hbuffer : param.buffer with
  | null size => simp [Buffer.isNull]
  | bytes tag =>
      simp only [Bool.and_eq_true, decide_eq_true_iff]
      simp [Buffer.isNull, Buffer.size]

theorem lengthsAdmitted_iff
    (hone : ∀ name ∈ singletons, params.countP (fun param => param.key = name) ≤ 1) :
    lengthsAdmitted lib params = true ↔
      ∀ param ∈ params, ∀ size, (param.key, size) ∈ fixedSizes →
        lib.getSizeT param = some size := by
  have hkeylen := @sizeAdmitted_iff lib params keylen keyLength (hone keylen (by simp [singletons]))
  have hivlen := @sizeAdmitted_iff lib params ivlen ivLength (hone ivlen (by simp [singletons]))
  have htaglen := @sizeAdmitted_iff lib params aeadTaglen tagLength
    (hone aeadTaglen (by simp [singletons]))
  rw [lengthsAdmitted, Bool.and_eq_true, Bool.and_eq_true, hkeylen, hivlen, htaglen]
  constructor
  · rintro ⟨⟨hkeylen, hivlen⟩, htaglen⟩ param hparam size hsize
    simp only [fixedSizes, List.mem_cons, Prod.mk.injEq, List.not_mem_nil, or_false] at hsize
    obtain ⟨hkey, rfl⟩ | ⟨hkey, rfl⟩ | ⟨hkey, rfl⟩ := hsize
    · exact hkeylen param hparam hkey
    · exact hivlen param hparam hkey
    · exact htaglen param hparam hkey
  · intro hsizes
    refine ⟨⟨?_, ?_⟩, ?_⟩ <;> intro param hparam hkey <;>
      exact hsizes param hparam _ (by simp [fixedSizes, hkey])

/-- What the code checks of the array alone. -/
theorem proper_iff : Proper lib params ↔
    hasForbiddenLegacyParam params = false ∧ initParamsHaveDuplicates params = false ∧
      lengthsAdmitted lib params = true ∧
      ∀ tag, locate params aeadTag = some tag → isTag tag = true := by
  rw [hasForbiddenLegacyParam_eq_false_iff, initParamsHaveDuplicates_eq_false_iff]
  constructor
  · intro h
    refine ⟨h.allowed, h.once, (lengthsAdmitted_iff h.once).mpr h.sizes, fun tag htag => ?_⟩
    obtain ⟨hmem, hkey⟩ := (locate_eq_some_iff (h.once aeadTag (by simp [singletons])) tag).mp htag
    exact (isTag_iff tag).mpr (h.tags tag hmem hkey)
  · rintro ⟨hallowed, honce, hlengths, htags⟩
    refine ⟨hallowed, honce, (lengthsAdmitted_iff honce).mp hlengths, fun tag hmem hkey => ?_⟩
    exact (isTag_iff tag).mp (htags tag
      ((locate_eq_some_iff (honce aeadTag (by simp [singletons])) tag).mpr ⟨hmem, hkey⟩))

theorem hasTag_iff : HasTag params ↔ (tagOf (some params)).isSome = true :=
  (locate_isSome_iff aeadTag).symm

theorem validateInitParams_iff {encrypt newRecord : Bool} :
    (validateInitParams lib (some params) encrypt newRecord).1 = true ↔
      Proper lib params ∧ (HasTag params → encrypt = false ∧ newRecord = true) := by
  rw [proper_iff, hasTag_iff, tagOf, Option.bind_some]
  unfold validateInitParams
  cases hforbidden : hasForbiddenLegacyParam params with
  | true => simp [hforbidden]
  | false =>
      cases hdup : initParamsHaveDuplicates params with
      | true => simp [hforbidden, hdup]
      | false =>
          cases hlengths : lengthsAdmitted lib params with
          | false => simp [hforbidden, hdup, hlengths]
          | true =>
              cases htag : locate params aeadTag with
              | none => simp [hforbidden, hdup, hlengths, htag]
              | some tag => simp [hforbidden, hdup, hlengths, htag, and_comm]

theorem validateSetParams_iff {ctx : Ctx} :
    hasForbiddenLegacyParam params = false ∧ (validateSetParams lib ctx params).1 = true ↔
      SetPolicy lib ctx params := by
  have hpolicy : SetPolicy lib ctx params ↔ Proper lib params ∧ (HasTag params →
      ctx.encrypt = false ∧ ctx.needsReinit = false ∧
        (ctx.phase = .manifestPending ∨ ctx.phase = .active)) :=
    ⟨fun h => ⟨h.proper, h.tag⟩, fun h => ⟨h.1, h.2⟩⟩
  rw [hpolicy, proper_iff, hasTag_iff, tagOf, Option.bind_some]
  unfold validateSetParams
  cases hforbidden : hasForbiddenLegacyParam params with
  | true => simp
  | false =>
      cases hdup : initParamsHaveDuplicates params with
      | true => simp
      | false =>
          cases hlengths : lengthsAdmitted lib params with
          | false => simp
          | true =>
              cases htag : locate params aeadTag with
              | none => simp
              | some tag =>
                  cases hphase : ctx.phase <;> simp [and_comm]

theorem initPolicy_iff {ctx : Ctx} {encrypt : Bool} {key iv : Buffer} :
    (validateInitParams lib (some params) encrypt
      (!iv.isNull && (!key.isNull || ctx.keyValid))).1 = true ↔
      InitPolicy lib ctx encrypt key iv params := by
  rw [validateInitParams_iff]
  constructor
  · rintro ⟨hproper, htag⟩
    refine ⟨hproper, fun hsome => ?_⟩
    simpa using htag hsome
  · rintro ⟨hproper, htag⟩
    refine ⟨hproper, fun hsome => ?_⟩
    simpa using htag hsome

/-! ### What the inner context is given -/

/-- The array that a request hands to the inner context. -/
def ExtCall.given : ExtCall → Option (List Param)
  | init _ _ _ params _ => some params
  | setParams params _ => some params
  | _ => none

theorem Proper.minimal (h : Proper lib params) :
    Minimal params (filtered (ivOf (some params)) (tagOf (some params))) := by
  refine ⟨fun param hparam => ?_, ?_, ?_⟩
  · rw [filtered, List.mem_append, Option.mem_toList, Option.mem_toList, Option.map_eq_some_iff,
      Option.map_eq_some_iff] at hparam
    obtain ⟨_, -, rfl⟩ | ⟨tag, htag, rfl⟩ := hparam
    · exact .inl rfl
    · obtain ⟨hmem, hkey⟩ :=
        (locate_eq_some_iff (h.once aeadTag (by simp [singletons])) tag).mp htag
      obtain ⟨-, data, hbuffer, hlength⟩ := h.tags tag hmem hkey
      exact .inr ⟨tag, hmem, hkey, data, hbuffer, hlength, by rw [hbuffer]⟩
  · unfold filtered
    cases ivOf (some params) <;> cases tagOf (some params) <;>
      simp [constructSizeT, constructOctetString, ivlen, aeadTag]
  · unfold filtered
    cases ivOf (some params) <;> cases tagOf (some params) <;>
      simp [constructSizeT, constructOctetString, ivlen, aeadTag]

/-! ### The order of the array -/

variable {params' : List Param} (hperm : params.Perm params')
include hperm

theorem HasTag.perm (h : HasTag params) : HasTag params' := by
  obtain ⟨param, hmem, hkey⟩ := h
  exact ⟨param, hperm.mem_iff.mp hmem, hkey⟩

theorem Proper.perm (h : Proper lib params) : Proper lib params' where
  allowed param hmem := h.allowed param (hperm.mem_iff.mpr hmem)
  once name hname := by
    rw [← hperm.countP_eq]
    exact h.once name hname
  sizes param hmem := h.sizes param (hperm.mem_iff.mpr hmem)
  tags param hmem := h.tags param (hperm.mem_iff.mpr hmem)

theorem SetPolicy.perm {ctx : Ctx} (h : SetPolicy lib ctx params) : SetPolicy lib ctx params' :=
  ⟨h.proper.perm hperm, fun htag => h.tag (htag.perm hperm.symm)⟩

theorem Proper.locate_eq (h : Proper lib params) {name : String} (hname : name ∈ singletons) :
    locate params name = locate params' name :=
  Lookup.find?_of_perm (h.once name hname) hperm

theorem validateInitParams_perm (encrypt newRecord : Bool) :
    (validateInitParams lib (some params) encrypt newRecord).1 =
      (validateInitParams lib (some params') encrypt newRecord).1 := by
  rw [Bool.eq_iff_iff, validateInitParams_iff, validateInitParams_iff]
  constructor
  · rintro ⟨hproper, htag⟩
    exact ⟨hproper.perm hperm, fun hsome => htag (hsome.perm hperm.symm)⟩
  · rintro ⟨hproper, htag⟩
    exact ⟨hproper.perm hperm.symm, fun hsome => htag (hsome.perm hperm)⟩

/-- Where the code asks only whether there is a tag, any match will do; where it looks at the
tag, there is only one. -/
theorem init_perm (ans : Answers) (encrypt : Bool) (key iv : Buffer) (ctx : Ctx) :
    init lib ans encrypt key iv (some params) ctx =
      init lib ans encrypt key iv (some params') ctx := by
  have hsome : (tagOf (some params)).isSome = (tagOf (some params')).isSome :=
    Lookup.find?_isSome_of_perm hperm
  have hinner (hproper : Proper lib params) (hasTag : Bool) (e : Exec) :
      initInner ans encrypt key iv (some params) hasTag e =
        initInner ans encrypt key iv (some params') hasTag e := by
    have hiv : ivOf (some params) = ivOf (some params') :=
      hproper.locate_eq hperm (by simp [singletons])
    have htag : tagOf (some params) = tagOf (some params') :=
      hproper.locate_eq hperm (by simp [singletons])
    rw [initInner, initInner, hiv, htag]
  rw [init_eq, init_eq, hsome, validateInitParams_perm hperm]
  split
  case isTrue => rfl
  case isFalse hargs =>
    split
    case isTrue => rfl
    case isFalse =>
      rw [Bool.not_eq_true, Bool.not_eq_false', Bool.and_eq_true,
        ← validateInitParams_perm hperm, validateInitParams_iff] at hargs
      exact hinner hargs.2.1 _ _

theorem setCtxParams_perm (ans : Answers) (ctx : Ctx) :
    setCtxParams lib ans (some params) ctx = setCtxParams lib ans (some params') ctx := by
  by_cases hpolicy : SetPolicy lib ctx params
  · have hiv := hpolicy.proper.locate_eq hperm (by simp [singletons] : ivlen ∈ singletons)
    have htag := hpolicy.proper.locate_eq hperm (by simp [singletons] : aeadTag ∈ singletons)
    obtain ⟨hforbidden, hvalid⟩ := validateSetParams_iff.mpr hpolicy
    obtain ⟨hforbidden', hvalid'⟩ := validateSetParams_iff.mpr (hpolicy.perm hperm)
    cases hlocate : locate params' aeadTag with
    | none =>
        rw [setCtxParams_of_tagless ans hforbidden hvalid (htag.trans hlocate),
          setCtxParams_of_tagless ans hforbidden' hvalid' hlocate]
    | some tag =>
        rw [setCtxParams_of_valid ans hforbidden hvalid (htag.trans hlocate),
          setCtxParams_of_valid ans hforbidden' hvalid' hlocate, hiv]
  · have hpolicy' : ¬ SetPolicy lib ctx params' := fun h => hpolicy (h.perm hperm.symm)
    have hsome : (locate params aeadTag).isSome = (locate params' aeadTag).isSome :=
      Lookup.find?_isSome_of_perm hperm
    rw [setCtxParams_of_invalid ans (hpolicy ∘ validateSetParams_iff.mp),
      setCtxParams_of_invalid ans (hpolicy' ∘ validateSetParams_iff.mp), hsome]

end

/-! ### Both calls enforce it -/

/-- A call enforces the policy on its array: it fails without asking the inner context if the
array breaks the policy; else the array is valid, the inner context is asked if nothing else is
in the way, and is given no more than the policy allows.  The order of the array is nothing to
the call. -/
structure Enforces (policy : Prop) (valid : Bool) (clear : Prop) (params : List Param)
    (call : List Param → Bool × Exec) : Prop where
  refused : ¬ policy → (call params).1 = false ∧ (call params).2.trace = []
  validated : policy → valid = true
  asked : policy → clear → ∃ c ∈ (call params).2.trace, c.given.isSome = true
  given : policy → ∀ c ∈ (call params).2.trace, ∀ given, c.given = some given →
    Minimal params given
  order : ∀ params', params.Perm params' → call params' = call params

theorem init_enforces (lib : Libcrypto) (ans : Answers) (ctx : Ctx) (params : List Param)
    (encrypt : Bool) (key iv : Buffer) :
    Enforces (InitPolicy lib ctx encrypt key iv params)
      (validateInitParams lib (some params) encrypt
        (!iv.isNull && (!key.isNull || ctx.keyValid))).1
      (key.size = (if key.isNull then 0 else keyLength) ∧
        iv.size = (if iv.isNull then 0 else ivLength) ∧
        (iv.isNull = false → key.isNull = true → ctx.keyValid = true))
      params (fun params => init lib ans encrypt key iv (some params) ctx) := by
  have hcases := init_accepts lib ans encrypt key iv (some params) ctx
  have htrace (prepared : Ctx) := initInner_trace ans encrypt key iv (some params)
    (tagOf (some params)).isSome (Exec.start prepared)
  constructor
  · intro hpolicy
    obtain ⟨-, next, reason, heq, -⟩ | ⟨haccepts, -⟩ := hcases
    · rw [heq]
      exact ⟨rfl, rfl⟩
    · exact absurd (initPolicy_iff.mp haccepts.params) hpolicy
  · exact initPolicy_iff.mpr
  · rintro hpolicy ⟨hkey, hiv, hvalid⟩
    obtain ⟨hrejects, -⟩ | ⟨-, prepared, -, heq⟩ := hcases
    · exact absurd ⟨hkey, hiv, hvalid, initPolicy_iff.mpr hpolicy⟩ hrejects
    · obtain ⟨ok, locks, htrace, -⟩ := htrace prepared
      rw [heq, htrace]
      exact ⟨_, List.mem_cons_self, rfl⟩
  · intro hpolicy c hc given hgiven
    obtain ⟨-, next, reason, heq, -⟩ | ⟨-, prepared, -, heq⟩ := hcases
    · rw [heq] at hc
      cases hc
    · obtain ⟨ok, locks, htrace, hlocks⟩ := htrace prepared
      rw [heq, htrace] at hc
      obtain rfl | hc := List.mem_cons.mp hc
      · rw [← Option.some.inj hgiven]
        exact hpolicy.proper.minimal
      · obtain ⟨ok, rfl⟩ := hlocks c hc
        cases hgiven
  · exact fun params' hperm => (init_perm hperm ans encrypt key iv ctx).symm

theorem setCtxParams_enforces (lib : Libcrypto) (ans : Answers) (ctx : Ctx)
    (params : List Param) :
    Enforces (SetPolicy lib ctx params)
      (!hasForbiddenLegacyParam params && (validateSetParams lib ctx params).1) (HasTag params)
      params (fun params => setCtxParams lib ans (some params) ctx) := by
  constructor
  · intro hpolicy
    rw [setCtxParams_of_invalid ans (hpolicy ∘ validateSetParams_iff.mp)]
    exact ⟨rfl, rfl⟩
  · intro hpolicy
    obtain ⟨hforbidden, hvalid⟩ := validateSetParams_iff.mpr hpolicy
    rw [hforbidden, hvalid]
    rfl
  · intro hpolicy htag
    obtain ⟨hforbidden, hvalid⟩ := validateSetParams_iff.mpr hpolicy
    obtain ⟨tag, htag⟩ := Option.isSome_iff_exists.mp (hasTag_iff.mp htag)
    rw [setCtxParams_of_valid ans hforbidden hvalid htag]
    exact ⟨_, List.mem_cons_self, rfl⟩
  · intro hpolicy c hc given hgiven
    obtain ⟨hforbidden, hvalid⟩ := validateSetParams_iff.mpr hpolicy
    cases htag : locate params aeadTag with
    | none =>
        rw [setCtxParams_of_tagless ans hforbidden hvalid htag] at hc
        cases hc
    | some tag =>
        rw [setCtxParams_of_valid ans hforbidden hvalid htag] at hc
        obtain rfl := List.mem_singleton.mp hc
        rw [← Option.some.inj hgiven, ← htag]
        exact hpolicy.proper.minimal
  · exact fun params' hperm => (setCtxParams_perm hperm ans ctx).symm

/-- Init and set_ctx_params enforce their policies on any array, in any context, whatever the
code outside answers. -/
theorem parameter_policy (lib : Libcrypto) (ans : Answers) (ctx : Ctx) (params : List Param) :
    (∀ encrypt key iv, Enforces (InitPolicy lib ctx encrypt key iv params)
      (validateInitParams lib (some params) encrypt
        (!iv.isNull && (!key.isNull || ctx.keyValid))).1
      (key.size = (if key.isNull then 0 else keyLength) ∧
        iv.size = (if iv.isNull then 0 else ivLength) ∧
        (iv.isNull = false → key.isNull = true → ctx.keyValid = true))
      params (fun params => init lib ans encrypt key iv (some params) ctx)) ∧
    Enforces (SetPolicy lib ctx params)
      (!hasForbiddenLegacyParam params && (validateSetParams lib ctx params).1) (HasTag params)
      params (fun params => setCtxParams lib ans (some params) ctx) :=
  ⟨init_enforces lib ans ctx params, setCtxParams_enforces lib ans ctx params⟩

/-- Parameters that the cipher does not know pass, also twice. -/
example :
    let unknown : Param := ⟨"mode", .utf8String, .bytes [0x67], unmodified⟩
    (init littleEndian (compliant 0) false keyA ivA
      (some [unknown, constructSizeT ivlen ivLength, tagParam, unknown])
      (Ctx.new encryptRecordLimit)).2.trace.map ExtCall.given =
      [some [constructSizeT ivlen ivLength, tagParam], none] := by
  decide +kernel

end G301.Outer
