import G301.Lib.StreamAead
import G301.Outer.Staging

/-! # The inner context over EVP

`g301_inner_evp.c`: the inner operations as calls of libcrypto on one `EVP_CIPHER_CTX`.  The
calls are the parameter `Evp`; a C `int` is an `Int` again, and positive is success.

What libcrypto documents of AES-256-GCM is stated of an `Evp` and a `view` of its state:
`Evp.Lawful` says what a successful call has done, `Evp.Serving` which calls succeed.
`EvpView.evp` is an AES-256-GCM context made of a key stream and a tag that has both. -/

namespace G301.Outer

open ByteString Param

/-- The calls of libcrypto on an `EVP_CIPHER_CTX` of AES-256-GCM, in state `σ`. -/
structure Evp (σ : Type) where
  /-- `EVP_CipherInit_ex2`; the first flag says whether a cipher is given. -/
  cipherInit : σ → Bool → Option Bytes → Option Bytes → Bool → List Param → ℤ × σ
  /-- `EVP_CipherUpdate`: the return value, `*outl` and what is written to a buffer. -/
  cipherUpdate : σ → Bool → Bytes → (ℤ × ℤ × Bytes) × σ
  /-- `EVP_CipherFinal_ex`: the return value and `*outl`. -/
  cipherFinal : σ → (ℤ × ℤ) × σ
  /-- `EVP_CIPHER_CTX_get_params` on a tag buffer of 16 bytes: the return value, the returned
  size and the buffer. -/
  getParams : σ → (ℤ × ℕ × Vector UInt8 tagLength) × σ
  /-- `EVP_CIPHER_CTX_set_params`. -/
  setParams : σ → List Param → ℤ × σ

/-! ### The inner operations -/

/-- `G301_EVP_INNER_CTX`. -/
structure EvpInner (σ : Type) where
  cipherCtx : σ
  initialized : Bool

namespace EvpInner

variable {σ : Type} (evp : Evp σ) (inner : EvpInner σ)

/-- `g301_evp_init`: the cipher is given until an init succeeds. -/
def init (key iv : Option Bytes) (encrypt : Bool) (params : List Param) : Bool × EvpInner σ :=
  let cipher := !inner.initialized
  let r := evp.cipherInit inner.cipherCtx cipher key iv encrypt params
  (decide (0 < r.1), ⟨r.2, inner.initialized || decide (0 < r.1)⟩)

/-- `g301_evp_update`; without a buffer nothing is written. -/
def update (out : Bool) (input : Bytes) : Reply × Bytes × EvpInner σ :=
  let r := evp.cipherUpdate inner.cipherCtx out input
  (⟨decide (0 < r.1.1), r.1.2.1⟩, if out then r.1.2.2 else [], { inner with cipherCtx := r.2 })

/-- `g301_evp_final`. -/
def final : Reply × EvpInner σ :=
  let r := evp.cipherFinal inner.cipherCtx
  (⟨decide (0 < r.1.1), r.1.2⟩, { inner with cipherCtx := r.2 })

/-- `g301_evp_get_params`. -/
def getParams : TagReply × EvpInner σ :=
  let r := evp.getParams inner.cipherCtx
  (⟨decide (0 < r.1.1), r.1.2.1, r.1.2.2⟩, { inner with cipherCtx := r.2 })

/-- `g301_evp_set_params`. -/
def setParams (params : List Param) : Bool × EvpInner σ :=
  let r := evp.setParams inner.cipherCtx params
  (decide (0 < r.1), { inner with cipherCtx := r.2 })

/-! ### Serving requests -/

/-- The request with the answer that the inner context gives to it, what the context writes
and the context afterwards.  Locks and counters are not its business. -/
def serve : ExtCall → ExtCall × Bytes × EvpInner σ
  | .init key iv encrypt params _ =>
      let r := inner.init evp key iv encrypt params
      (.init key iv encrypt params r.1, [], r.2)
  | .update out data _ =>
      let r := inner.update evp out data
      (.update out data r.1, r.2)
  | .final _ => let r := inner.final evp; (.final r.1, [], r.2)
  | .getParams _ => let r := inner.getParams evp; (.getParams r.1, [], r.2)
  | .setParams params _ =>
      let r := inner.setParams evp params
      (.setParams params r.1, [], r.2)
  | .writeLock ok => (.writeLock ok, [], inner)
  | .atomicAdd ok => (.atomicAdd ok, [], inner)

/-- What the context writes while it serves a trace, and the context afterwards. -/
def serveAll (inner : EvpInner σ) : List ExtCall → Bytes × EvpInner σ
  | [] => ([], inner)
  | c :: trace =>
      let r := inner.serve evp c
      let r' := r.2.2.serveAll trace
      (r.2.1 ++ r'.1, r'.2)

/-- The answers in a trace are those of the inner context. -/
def Answered (inner : EvpInner σ) : List ExtCall → Prop
  | [] => True
  | c :: trace => (inner.serve evp c).1 = c ∧ (inner.serve evp c).2.2.Answered trace

@[simp] theorem serveAll_nil : inner.serveAll evp [] = ([], inner) := rfl

@[simp] theorem serveAll_single (c : ExtCall) :
    inner.serveAll evp [c] = (inner.serve evp c).2 := by
  simp [serveAll]

theorem serveAll_append (trace trace' : List ExtCall) :
    inner.serveAll evp (trace ++ trace') =
      ((inner.serveAll evp trace).1 ++ ((inner.serveAll evp trace).2.serveAll evp trace').1,
        ((inner.serveAll evp trace).2.serveAll evp trace').2) := by
  induction trace generalizing inner with
  | nil => simp
  | cons c trace ih => simp [serveAll, ih]

theorem answered_append (trace trace' : List ExtCall) :
    inner.Answered evp (trace ++ trace') ↔
      inner.Answered evp trace ∧ (inner.serveAll evp trace).2.Answered evp trace' := by
  induction trace generalizing inner with
  | nil => simp [Answered]
  | cons c trace ih => simp [Answered, serveAll, ih, and_assoc]

theorem serve_of_not_isInner {c : ExtCall} (h : c.isInner = false) :
    inner.serve evp c = (c, [], inner) := by
  cases c <;> first | rfl | cases h

/-- Locks and counters leave the inner context alone. -/
theorem serveAll_of_not_isInner {trace : List ExtCall} (h : ∀ c ∈ trace, c.isInner = false) :
    inner.serveAll evp trace = ([], inner) ∧ inner.Answered evp trace := by
  induction trace with
  | nil => exact ⟨rfl, trivial⟩
  | cons c trace ih =>
      have hc := inner.serve_of_not_isInner evp (h c (by simp))
      obtain ⟨hserve, hanswered⟩ := ih fun x hx => h x (List.mem_cons_of_mem _ hx)
      simp only [serveAll, Answered, hc, hserve, true_and, List.nil_append]
      exact hanswered

end EvpInner

/-! ### AES-256-GCM -/

abbrev Scheme := StreamAead Bytes Bytes (Vector UInt8 tagLength)

/-- What is known of an `EVP_CIPHER_CTX`: whether it has its cipher, what it has been given
since the latest init with an IV, the tag set for decryption, and whether its final
succeeded. -/
structure EvpView where
  hasCipher : Bool
  gcm : Gcm
  tag : Option Bytes
  finished : Bool
deriving DecidableEq, Repr

/-- Key and IV are set and the message is not finished. -/
structure EvpView.Ready (v : EvpView) (key iv : Bytes) : Prop where
  key_eq : v.gcm.key = some key
  iv_eq : v.gcm.iv = some iv
  finished_eq : v.finished = false

/-- The bytes of payload and of associated data that GCM takes. -/
abbrev payloadMax : ℕ := 2 ^ 36 - 32
abbrev aadMax : ℕ := 2 ^ 61

/-- One message is given in pieces, within the bounds of GCM. -/
def Gcm.Takes (gcm : Gcm) (out : Bool) (size : ℕ) : Prop :=
  if out then gcm.payload.length + size ≤ payloadMax
  else gcm.payload = [] ∧ gcm.aad.length + size ≤ aadMax

instance (gcm : Gcm) (out : Bool) (size : ℕ) : Decidable (gcm.Takes out size) := by
  unfold Gcm.Takes
  infer_instance

section
variable {σ : Type}

/-- What a successful call has done; a call without a key leaves the key as it is, unless it sets
the cipher, and a request for parameters leaves everything. -/
structure Evp.Lawful (evp : Evp σ) (scheme : Scheme) (view : σ → EvpView) : Prop where
  init_key {ctx next : σ} {cipher encrypt : Bool} {key : Bytes} {iv : Option Bytes}
    {params : List Param} {ret : ℤ}
    (h : evp.cipherInit ctx cipher (some key) iv encrypt params = (ret, next)) (hok : 0 < ret) :
    (view next).gcm.key = some key
  init_keyless {ctx next : σ} {encrypt : Bool} {iv : Option Bytes} {params : List Param} {ret : ℤ}
    (h : evp.cipherInit ctx false none iv encrypt params = (ret, next)) :
    (view next).gcm.key = (view ctx).gcm.key
  init_iv {ctx next : σ} {cipher encrypt : Bool} {key : Option Bytes} {iv : Bytes}
    {params : List Param} {ret : ℤ}
    (h : evp.cipherInit ctx cipher key (some iv) encrypt params = (ret, next)) (hok : 0 < ret) :
    (view next).finished = false ∧
      (view next).gcm = ⟨(view next).gcm.key, some iv, encrypt, [], []⟩
  init_tag {ctx next : σ} {cipher encrypt : Bool} {key iv : Option Bytes} {params : List Param}
    {ret : ℤ} {tag : Bytes}
    (h : evp.cipherInit ctx cipher key iv encrypt params = (ret, next)) (hok : 0 < ret)
    (htag : tagBytes params = some tag) : (view next).tag = some tag
  update_aad {ctx next : σ} {data written key iv : Bytes} {ret outl : ℤ}
    (h : evp.cipherUpdate ctx false data = ((ret, outl, written), next)) (hok : 0 < ret)
    (hready : (view ctx).Ready key iv) :
    view next = { view ctx with
      gcm := { (view ctx).gcm with aad := (view ctx).gcm.aad ++ data } }
  update_payload {ctx next : σ} {data written key iv : Bytes} {ret : ℤ}
    (h : evp.cipherUpdate ctx true data = ((ret, (data.length : ℤ), written), next)) (hok : 0 < ret)
    (hready : (view ctx).Ready key iv) :
    view next = { view ctx with
      gcm := { (view ctx).gcm with payload := (view ctx).gcm.payload ++ data } } ∧
    written = scheme.crypt key iv (view ctx).gcm.payload.length data
  final_encrypt {ctx next : σ} {key iv : Bytes} {ret outl : ℤ}
    (h : evp.cipherFinal ctx = ((ret, outl), next)) (hok : 0 < ret)
    (hready : (view ctx).Ready key iv) (hencrypt : (view ctx).gcm.encrypt = true) :
    view next = { view ctx with finished := true }
  final_decrypt {ctx next : σ} {key iv tag : Bytes} {ret outl : ℤ}
    (h : evp.cipherFinal ctx = ((ret, outl), next)) (hok : 0 < ret)
    (hready : (view ctx).Ready key iv) (hdecrypt : (view ctx).gcm.encrypt = false)
    (htag : (view ctx).tag = some tag) :
    (scheme.mac key iv (view ctx).gcm.aad (view ctx).gcm.payload).toList = tag
  getParams_tag {ctx next : σ} {key iv : Bytes} {ret : ℤ} {size : ℕ}
    {tag : Vector UInt8 tagLength}
    (h : evp.getParams ctx = ((ret, size, tag), next)) (hok : 0 < ret)
    (hfinished : (view ctx).finished = true) (hencrypt : (view ctx).gcm.encrypt = true)
    (hkey : (view ctx).gcm.key = some key) (hiv : (view ctx).gcm.iv = some iv) :
    tag = scheme.mac key iv (view ctx).gcm.aad (scheme.crypt key iv 0 (view ctx).gcm.payload)
  getParams_view (ctx : σ) : view (evp.getParams ctx).2 = view ctx
  setParams_tag {ctx next : σ} {params : List Param} {tag : Bytes} {ret : ℤ}
    (h : evp.setParams ctx params = (ret, next)) (hok : 0 < ret)
    (htag : tagBytes params = some tag) : view next = { view ctx with tag := some tag }
  update_key (ctx : σ) (out : Bool) (data : Bytes) :
    (view (evp.cipherUpdate ctx out data).2).gcm.key = (view ctx).gcm.key
  final_key (ctx : σ) : (view (evp.cipherFinal ctx).2).gcm.key = (view ctx).gcm.key
  setParams_key (ctx : σ) (params : List Param) :
    (view (evp.setParams ctx params).2).gcm.key = (view ctx).gcm.key

/-- Which calls succeed, with the lengths they report; and the cipher stays set. -/
structure Evp.Serving (evp : Evp σ) (scheme : Scheme) (view : σ → EvpView) : Prop where
  init_ok {ctx : σ} {cipher encrypt : Bool} {key iv : Bytes} {params : List Param}
    (hcipher : cipher = true ∨ (view ctx).hasCipher = true) (hkey : key.length = keyLength)
    (hiv : iv.length = ivLength)
    (htag : ∀ tag, tagBytes params = some tag → encrypt = false ∧ tag.length = tagLength) :
    0 < (evp.cipherInit ctx cipher (some key) (some iv) encrypt params).1
  update_ok {ctx : σ} {out : Bool} {data key iv : Bytes} (hready : (view ctx).Ready key iv)
    (htakes : (view ctx).gcm.Takes out data.length) :
    ∃ (ret : ℤ) (written : Bytes) (next : σ), 0 < ret ∧
      evp.cipherUpdate ctx out data = ((ret, (data.length : ℤ), written), next)
  final_encrypt_ok {ctx : σ} {key iv : Bytes} (hready : (view ctx).Ready key iv)
    (hencrypt : (view ctx).gcm.encrypt = true) :
    ∃ ret next, 0 < ret ∧ evp.cipherFinal ctx = ((ret, 0), next)
  final_decrypt_ok {ctx : σ} {key iv : Bytes} (hready : (view ctx).Ready key iv)
    (hdecrypt : (view ctx).gcm.encrypt = false)
    (htag : (view ctx).tag =
      some (scheme.mac key iv (view ctx).gcm.aad (view ctx).gcm.payload).toList) :
    ∃ ret next, 0 < ret ∧ evp.cipherFinal ctx = ((ret, 0), next)
  getParams_ok {ctx : σ} (hfinished : (view ctx).finished = true)
    (hencrypt : (view ctx).gcm.encrypt = true) :
    ∃ ret tag next, 0 < ret ∧ evp.getParams ctx = ((ret, tagLength, tag), next)
  setParams_ok {ctx : σ} {key iv tag : Bytes} {params : List Param}
    (hready : (view ctx).Ready key iv) (hdecrypt : (view ctx).gcm.encrypt = false)
    (htag : tagBytes params = some tag) (hlength : tag.length = tagLength) :
    0 < (evp.setParams ctx params).1
  init_hasCipher {ctx next : σ} {cipher encrypt : Bool} {key iv : Option Bytes}
    {params : List Param} {ret : ℤ}
    (h : evp.cipherInit ctx cipher key iv encrypt params = (ret, next))
    (hcipher : cipher = true ∧ 0 < ret ∨ cipher = false ∧ (view ctx).hasCipher = true) :
    (view next).hasCipher = true
  update_hasCipher (ctx : σ) (out : Bool) (data : Bytes) :
    (view (evp.cipherUpdate ctx out data).2).hasCipher = (view ctx).hasCipher
  final_hasCipher (ctx : σ) : (view (evp.cipherFinal ctx).2).hasCipher = (view ctx).hasCipher
  setParams_hasCipher (ctx : σ) (params : List Param) :
    (view (evp.setParams ctx params).2).hasCipher = (view ctx).hasCipher

end

/-! ### A context that keeps to this -/

/-- The context is ready, with this key and IV. -/
def EvpView.ready? (v : EvpView) : Option (Bytes × Bytes) :=
  if v.finished then none else v.gcm.key.bind fun key => v.gcm.iv.map fun iv => (key, iv)

/-- AES-256-GCM made of a key stream and a tag. -/
def EvpView.evp (scheme : Scheme) : Evp EvpView where
  cipherInit v cipher key iv encrypt params :=
    if cipher || v.hasCipher then
      (1, ⟨true, ⟨key <|> (if cipher then none else v.gcm.key), iv, encrypt, [], []⟩,
        tagBytes params <|> v.tag, false⟩)
    else (0, v)
  cipherUpdate v out data :=
    match v.ready? with
    | none => ((0, 0, []), v)
    | some (key, iv) =>
        if v.gcm.Takes out data.length then
          if out then
            ((1, data.length, scheme.crypt key iv v.gcm.payload.length data),
              { v with gcm := { v.gcm with payload := v.gcm.payload ++ data } })
          else ((1, data.length, []), { v with gcm := { v.gcm with aad := v.gcm.aad ++ data } })
        else ((0, 0, []), v)
  cipherFinal v :=
    match v.ready? with
    | none => ((0, 0), v)
    | some (key, iv) =>
        if v.gcm.encrypt ∨ v.tag = some (scheme.mac key iv v.gcm.aad v.gcm.payload).toList then
          ((1, 0), { v with finished := true })
        else ((0, 0), v)
  getParams v :=
    if v.finished && v.gcm.encrypt then
      let key := v.gcm.key.getD []
      let iv := v.gcm.iv.getD []
      ((1, tagLength, scheme.mac key iv v.gcm.aad (scheme.crypt key iv 0 v.gcm.payload)), v)
    else ((0, 0, Vector.replicate tagLength 0), v)
  setParams v params :=
    match tagBytes params with
    | none => (1, v)
    | some tag =>
        if tag.length = tagLength ∧ v.gcm.encrypt = false then (1, { v with tag := some tag })
        else (0, v)

theorem EvpView.Ready.ready?_eq {v : EvpView} {key iv : Bytes} (h : v.Ready key iv) :
    v.ready? = some (key, iv) := by
  simp [ready?, h.key_eq, h.iv_eq, h.finished_eq]

theorem EvpView.lawful (scheme : Scheme) : (EvpView.evp scheme).Lawful scheme id where
  init_key h hok := by
    simp only [evp] at h
    split at h
    · obtain ⟨-, rfl⟩ := Prod.mk.inj h
      rfl
    · obtain ⟨rfl, -⟩ := Prod.mk.inj h
      omega
  init_keyless h := by
    simp only [evp] at h
    split at h <;> obtain ⟨-, rfl⟩ := Prod.mk.inj h <;> rfl
  init_iv h hok := by
    simp only [evp] at h
    split at h
    · obtain ⟨-, rfl⟩ := Prod.mk.inj h
      exact ⟨rfl, rfl⟩
    · obtain ⟨rfl, -⟩ := Prod.mk.inj h
      omega
  init_tag h hok htag := by
    simp only [evp, htag] at h
    split at h
    · obtain ⟨-, rfl⟩ := Prod.mk.inj h
      rfl
    · obtain ⟨rfl, -⟩ := Prod.mk.inj h
      omega
  update_aad h hok hready := by
    have hready := EvpView.Ready.ready?_eq hready
    simp only [id_eq] at hready
    simp only [evp, hready] at h
    split at h
    · simp only [Bool.false_eq_true, if_false, Prod.mk.injEq] at h
      exact h.2.symm
    · obtain ⟨⟨rfl, -⟩, -⟩ := by simpa only [Prod.mk.injEq] using h
      omega
  update_payload h hok hready := by
    have hready := EvpView.Ready.ready?_eq hready
    simp only [id_eq] at hready
    simp only [evp, hready] at h
    split at h
    · simp only [if_true, Prod.mk.injEq] at h
      exact ⟨h.2.symm, h.1.2.2.symm⟩
    · obtain ⟨⟨rfl, -⟩, -⟩ := by simpa only [Prod.mk.injEq] using h
      omega
  final_encrypt h hok hready hencrypt := by
    have hready := EvpView.Ready.ready?_eq hready
    simp only [id_eq] at hready
    simp only [evp, hready] at h
    split at h
    · simp only [Prod.mk.injEq] at h
      exact h.2.symm
    · obtain ⟨⟨rfl, -⟩, -⟩ := by simpa only [Prod.mk.injEq] using h
      omega
  final_decrypt h hok hready hdecrypt htag := by
    have hready := EvpView.Ready.ready?_eq hready
    simp only [id_eq] at hready
    simp only [evp, hready] at h
    split at h
    case isTrue hmac =>
      simp only [id_eq] at hdecrypt htag
      rw [hdecrypt, htag] at hmac
      simpa [eq_comm] using hmac
    case isFalse =>
      obtain ⟨⟨rfl, -⟩, -⟩ := by simpa only [Prod.mk.injEq] using h
      omega
  getParams_tag h hok hfinished hencrypt hkey hiv := by
    simp only [id_eq] at hfinished hencrypt hkey hiv
    simp only [evp, hfinished, hencrypt, hkey, hiv, Bool.and_true, if_true, Option.getD_some,
      Prod.mk.injEq] at h
    exact h.1.2.2.symm
  getParams_view ctx := by
    simp only [evp]
    split <;> rfl
  setParams_tag h hok htag := by
    simp only [evp, htag] at h
    split at h
    · obtain ⟨-, rfl⟩ := Prod.mk.inj h
      rfl
    · obtain ⟨rfl, -⟩ := Prod.mk.inj h
      omega
  update_key ctx out data := by
    simp only [evp]
    split
    · rfl
    · split
      · split <;> rfl
      · rfl
  final_key ctx := by
    simp only [evp]
    split
    · rfl
    · split <;> rfl
  setParams_key ctx params := by
    simp only [evp]
    split
    · rfl
    · split <;> rfl

theorem EvpView.serving (scheme : Scheme) : (EvpView.evp scheme).Serving scheme id where
  init_ok hcipher hkey hiv htag := by
    have hset := Bool.or_eq_true_iff.mpr hcipher
    simp only [id_eq] at hset
    simp only [evp, hset, if_true]
    decide
  update_ok hready htakes := by
    have hready := EvpView.Ready.ready?_eq hready
    simp only [id_eq] at hready htakes
    simp only [evp, hready, if_pos htakes]
    split
    · exact ⟨1, _, _, by decide, rfl⟩
    · exact ⟨1, _, _, by decide, rfl⟩
  final_encrypt_ok hready hencrypt := by
    have hready := EvpView.Ready.ready?_eq hready
    simp only [id_eq] at hready hencrypt
    exact ⟨1, _, by decide, by simp only [evp, hready, hencrypt, true_or, if_true]; rfl⟩
  final_decrypt_ok hready hdecrypt htag := by
    have hready := EvpView.Ready.ready?_eq hready
    simp only [id_eq] at hready htag
    exact ⟨1, _, by decide, by simp only [evp, hready, htag, or_true, if_true]; rfl⟩
  getParams_ok hfinished hencrypt := by
    simp only [id_eq] at hfinished hencrypt
    exact ⟨1, _, _, by decide, by simp only [evp, hfinished, hencrypt, Bool.and_true, if_true]; rfl⟩
  setParams_ok hready hdecrypt htag hlength := by
    simp only [id_eq] at hdecrypt
    simp [evp, htag, hlength, hdecrypt]
  init_hasCipher h hcipher := by
    simp only [evp] at h
    split at h
    · obtain ⟨-, rfl⟩ := Prod.mk.inj h
      rfl
    case isFalse hunset =>
      obtain ⟨rfl, rfl⟩ := Prod.mk.inj h
      obtain ⟨-, hok⟩ | ⟨-, hset⟩ := hcipher
      · omega
      · exact hset
  update_hasCipher ctx out data := by
    simp only [evp]
    split
    · rfl
    · split
      · split <;> rfl
      · rfl
  final_hasCipher ctx := by
    simp only [evp]
    split
    · rfl
    · split <;> rfl
  setParams_hasCipher ctx params := by
    simp only [evp]
    split
    · rfl
    · split <;> rfl

end G301.Outer
