import G301.Lib.StreamAead
import G301.Inner.Execution

/-! # Records over a cipher context

`CryptoContext::seal` and `CryptoContext::open` call by call: the calls on a `CipherCtx` are the
parameter `CipherApi`.

* `calls_refine`: whatever the calls do, these are `CryptoContext.seal` and
  `CryptoContext.open` over the AES-256-GCM that the calls amount to, `Aead.ofCalls`.
* `open_iff_seal`: over calls that do what OpenSSL documents (`CipherApi.Serving`), a record opens
  to a plaintext exactly when it is what sealing the plaintext gives. -/

namespace G301.Inner

open ByteString

/-- The calls on a `CipherCtx`, in state `σ`; `none` is an error. -/
structure CipherApi (σ : Type) where
  /-- `CipherCtx::new`. -/
  new : Option σ
  /-- `encrypt_init` and `decrypt_init`: the direction, whether a cipher is given, key and IV. -/
  init : σ → Bool → Bool → Option (Vector UInt8 keyLen × Bytes) → Option σ
  setIvLength : σ → ℕ → Option σ
  /-- `cipher_update` without an output. -/
  updateAad : σ → Bytes → Option σ
  /-- `cipher_update_vec`: the returned count and the bytes appended. -/
  update : σ → Bytes → Option (ℕ × Bytes × σ)
  /-- `cipher_final_vec`: the same. -/
  final : σ → Option (ℕ × Bytes × σ)
  tag : σ → Option (Vector UInt8 tagLen)
  setTag : σ → Vector UInt8 tagLen → Option σ

/-- `map_err(|_| e)`. -/
def orError {α : Type} (e : Error) : Option α → Except Error α
  | none => .error e
  | some a => .ok a

namespace CipherApi

variable {σ : Type} (api : CipherApi σ)

def initCtx (encrypt : Bool) (key : Vector UInt8 keyLen) (iv : Bytes) : Except Error σ := do
  let ctx ← orError .crypto api.new
  let ctx ← orError .crypto (api.init ctx encrypt true none)
  let ctx ← orError .crypto (api.setIvLength ctx ivLen)
  orError .crypto (api.init ctx encrypt false (some (key, iv)))

def initEncrypt (key : Vector UInt8 keyLen) (iv : Bytes) : Except Error σ :=
  api.initCtx true key iv

def initDecrypt (key : Vector UInt8 keyLen) (iv : Bytes) : Except Error σ :=
  api.initCtx false key iv

end CipherApi

namespace CryptoContext

variable {σ : Type}

def sealCalls (context : CryptoContext) (api : CipherApi σ) (recordType : RecordType)
    (channel : Channel) (sequence : ℕ) (plaintext : Bytes) : Except Error Bytes := do
  let header ← Header.new recordType channel sequence plaintext.length
  let aad := aad context.manifestHash context.contextHash context.direction header.encoded
  let nonce := nonce context.traffic.iv sequence
  let ctx ← api.initEncrypt context.traffic.key nonce
  let ctx ← orError .crypto (api.updateAad ctx aad)
  let output := header.encoded.toList
  let (written, bytes, ctx) ← orError .crypto (api.update ctx plaintext)
  let output := output ++ bytes
  if written ≠ plaintext.length then .error .crypto
  else
    let (finalWritten, bytes, ctx) ← orError .crypto (api.final ctx)
    let output := output ++ bytes
    if finalWritten ≠ 0 ∨ output.length ≠ headerLen + plaintext.length then .error .crypto
    else
      let tag ← orError .crypto (api.tag ctx)
      return output ++ tag.toList

def openCalls (context : CryptoContext) (api : CipherApi σ) (parsed : ParsedRecord) :
    Except Error Bytes := do
  let aad := aad context.manifestHash context.contextHash context.direction parsed.header.encoded
  let nonce := nonce context.traffic.iv parsed.header.sequence
  let ctx ← api.initDecrypt context.traffic.key nonce
  let ctx ← orError .crypto (api.updateAad ctx aad)
  let (written, plaintext, ctx) ← orError .authenticationFailed (api.update ctx parsed.ciphertext)
  if written ≠ parsed.header.plaintextLen then .error .authenticationFailed
  else
    let ctx ← orError .authenticationFailed (api.setTag ctx parsed.tag)
    let (finalWritten, bytes, _) ← orError .authenticationFailed (api.final ctx)
    let plaintext := plaintext ++ bytes
    if finalWritten ≠ 0 ∨ plaintext.length ≠ parsed.header.plaintextLen then
      .error .authenticationFailed
    else return plaintext

end CryptoContext

/-! ### The AEAD of the calls -/

namespace Aead

variable {σ : Type}

/-- The encryption calls up to the tag. -/
def encryptCalls (api : CipherApi σ) (key : Vector UInt8 keyLen) (nonce aad plaintext : Bytes) :
    Option (Bytes × Vector UInt8 tagLen) := do
  let ctx ← (api.initEncrypt key nonce).toOption
  let ctx ← api.updateAad ctx aad
  let (written, bytes, ctx) ← api.update ctx plaintext
  if written ≠ plaintext.length then none
  else
    let (finalWritten, rest, ctx) ← api.final ctx
    if finalWritten ≠ 0 then none
    else
      let tag ← api.tag ctx
      return (bytes ++ rest, tag)

/-- The decryption calls from the ciphertext on. -/
def decryptText (api : CipherApi σ) (ctx : σ) (ciphertext : Bytes) (tag : Vector UInt8 tagLen) :
    Option Bytes := do
  let (written, bytes, ctx) ← api.update ctx ciphertext
  if written ≠ ciphertext.length then none
  else
    let ctx ← api.setTag ctx tag
    let (finalWritten, rest, _) ← api.final ctx
    if finalWritten ≠ 0 then none else return bytes ++ rest

/-- What the calls amount to. -/
def ofCalls (api : CipherApi σ) : Aead where
  encrypt := encryptCalls api
  decrypt key nonce aad ciphertext tag :=
    match (api.initDecrypt key nonce).toOption.bind fun ctx => api.updateAad ctx aad with
    | none => .failed
    | some ctx =>
        match decryptText api ctx ciphertext tag with
        | none => .rejected
        | some plaintext => .plaintext plaintext

end Aead

/-! ### The refinement -/

section
variable {σ : Type} {api : CipherApi σ}

/-- Every error of an init is `Error::Crypto`. -/
theorem initCtx_eq (encrypt : Bool) (key : Vector UInt8 keyLen) (iv : Bytes) :
    api.initCtx encrypt key iv = orError .crypto (api.initCtx encrypt key iv).toOption := by
  unfold CipherApi.initCtx
  cases hnew : api.new with
  | none => rfl
  | some ctx =>
      cases hinit : api.init ctx encrypt true none with
      | none => simp [orError, hinit, bind, Except.bind, Except.toOption]
      | some ctx =>
          cases hlength : api.setIvLength ctx ivLen with
          | none => simp [orError, hinit, hlength, bind, Except.bind, Except.toOption]
          | some ctx =>
              cases hkey : api.init ctx encrypt false (some (key, iv)) <;>
                simp [orError, hinit, hlength, hkey, bind, Except.bind, Except.toOption]

variable (context : CryptoContext)

theorem sealCalls_eq (recordType : RecordType) (channel : Channel) (sequence : ℕ)
    (plaintext : Bytes) :
    context.sealCalls api recordType channel sequence plaintext =
      context.seal (Aead.ofCalls api) recordType channel sequence plaintext := by
  unfold CryptoContext.sealCalls CryptoContext.seal
  cases Header.new recordType channel sequence plaintext.length with
  | error e => rfl
  | ok header =>
      simp only [bind, Except.bind, Aead.ofCalls, Aead.encryptCalls]
      generalize aad context.manifestHash context.contextHash context.direction header.encoded =
        aad
      generalize nonce context.traffic.iv sequence = nonce
      rw [CipherApi.initEncrypt, initCtx_eq]
      cases (api.initCtx true context.traffic.key nonce).toOption with
      | none => rfl
      | some ctx =>
      cases haad : api.updateAad ctx aad with
      | none => simp [orError, Except.toOption, haad]
      | some ctx =>
      cases hupdate : api.update ctx plaintext with
      | none => simp [orError, Except.toOption, haad, hupdate]
      | some r =>
      obtain ⟨written, bytes, ctx⟩ := r
      by_cases hwritten : written = plaintext.length
      case neg => simp [orError, Except.toOption, haad, hupdate, hwritten]
      cases hfinal : api.final ctx with
      | none => simp [orError, Except.toOption, haad, hupdate, hwritten, hfinal]
      | some r =>
      obtain ⟨finalWritten, rest, ctx⟩ := r
      by_cases hnone : finalWritten = 0
      case neg => simp [orError, Except.toOption, haad, hupdate, hwritten, hfinal, hnone]
      cases htag : api.tag ctx with
      | none => simp [orError, Except.toOption, haad, hupdate, hwritten, hfinal, hnone, htag]
      | some tag =>
          simp [orError, Except.toOption, haad, hupdate, hwritten, hfinal, hnone, htag, pure,
            Except.pure]

/-- `parse` returns a ciphertext of the length in the header. -/
theorem openCalls_eq {parsed : ParsedRecord}
    (hlength : parsed.ciphertext.length = parsed.header.plaintextLen) :
    context.openCalls api parsed = context.open (Aead.ofCalls api) parsed := by
  unfold CryptoContext.openCalls CryptoContext.open
  simp only [bind, Except.bind, Aead.ofCalls, Aead.decryptText, ← hlength]
  generalize aad context.manifestHash context.contextHash context.direction
    parsed.header.encoded = aad
  generalize nonce context.traffic.iv parsed.header.sequence = nonce
  rw [CipherApi.initDecrypt, initCtx_eq]
  cases (api.initCtx false context.traffic.key nonce).toOption with
  | none => rfl
  | some ctx =>
  cases haad : api.updateAad ctx aad with
  | none => simp [orError, Except.toOption, haad]
  | some ctx =>
  cases hupdate : api.update ctx parsed.ciphertext with
  | none => simp [orError, Except.toOption, haad, hupdate]
  | some r =>
  obtain ⟨written, bytes, ctx⟩ := r
  by_cases hwritten : written = parsed.ciphertext.length
  case neg => simp [orError, Except.toOption, haad, hupdate, hwritten]
  cases htag : api.setTag ctx parsed.tag with
  | none => simp [orError, Except.toOption, haad, hupdate, hwritten, htag]
  | some ctx =>
  cases hfinal : api.final ctx with
  | none => simp [orError, Except.toOption, haad, hupdate, hwritten, htag, hfinal]
  | some r =>
  obtain ⟨finalWritten, rest, ctx⟩ := r
  by_cases hnone : finalWritten = 0
  case neg => simp [orError, Except.toOption, haad, hupdate, hwritten, htag, hfinal, hnone]
  simp [orError, Except.toOption, haad, hupdate, hwritten, htag, hfinal, hnone, pure, Except.pure]

/-- **Refinement.**  Whatever the calls on a `CipherCtx` do, sealing by calls, and opening by calls
what `parse` returns, are sealing and opening over `Aead.ofCalls`: the same bytes or the same
error. -/
theorem calls_refine (api : CipherApi σ) :
    (∀ recordType channel sequence plaintext,
      context.sealCalls api recordType channel sequence plaintext =
        context.seal (Aead.ofCalls api) recordType channel sequence plaintext) ∧
    ∀ input parsed, parse input = .ok parsed →
      context.openCalls api parsed = context.open (Aead.ofCalls api) parsed :=
  ⟨sealCalls_eq context, fun _ _ hparse => openCalls_eq context (parse_eq_ok hparse).2.1⟩

end

/-! ### AES-256-GCM -/

/-- What is known of a `CipherCtx`. -/
structure CipherView where
  cipher : Bool
  encrypt : Bool
  ivLength : ℕ
  keyed : Option (Vector UInt8 keyLen × Bytes)
  aad : Bytes
  text : Bytes
  tag : Option (Vector UInt8 tagLen)
  finished : Bool
deriving DecidableEq, Repr

/-- A `CipherCtx` just made. -/
def CipherView.fresh : CipherView := ⟨false, false, ivLen, none, [], [], none, false⟩

/-- Key and IV are set and the message is not finished. -/
structure CipherView.Ready (v : CipherView) (key : Vector UInt8 keyLen) (iv : Bytes) : Prop where
  keyed_eq : v.keyed = some (key, iv)
  finished_eq : v.finished = false

abbrev RecordScheme := StreamAead (Vector UInt8 keyLen) Bytes (Vector UInt8 tagLen)

/-- What OpenSSL documents of AES-256-GCM on a `CipherCtx`: the calls in this order succeed, but
for the final of a decryption under another tag. -/
structure CipherApi.Serving {σ : Type} (api : CipherApi σ) (scheme : RecordScheme)
    (view : σ → CipherView) : Prop where
  new : ∃ ctx, api.new = some ctx ∧ view ctx = .fresh
  init_cipher {ctx : σ} {encrypt : Bool} (h : view ctx = .fresh) :
    ∃ next, api.init ctx encrypt true none = some next ∧
      view next = { CipherView.fresh with cipher := true, encrypt := encrypt }
  setIvLength {ctx : σ} {n : ℕ} (hcipher : (view ctx).cipher = true) (hn : 0 < n) :
    ∃ next, api.setIvLength ctx n = some next ∧ view next = { view ctx with ivLength := n }
  init_key {ctx : σ} {encrypt : Bool} {key : Vector UInt8 keyLen} {iv : Bytes}
    (hcipher : (view ctx).cipher = true) (hiv : iv.length = (view ctx).ivLength) :
    ∃ next, api.init ctx encrypt false (some (key, iv)) = some next ∧
      view next = { view ctx with
        encrypt := encrypt, keyed := some (key, iv), aad := [], text := [], finished := false }
  updateAad {ctx : σ} {key : Vector UInt8 keyLen} {iv data : Bytes} (hready : (view ctx).Ready key iv)
    (htext : (view ctx).text = []) (hroom : (view ctx).aad.length + data.length ≤ 2 ^ 61) :
    ∃ next, api.updateAad ctx data = some next ∧
      view next = { view ctx with aad := (view ctx).aad ++ data }
  update {ctx : σ} {key : Vector UInt8 keyLen} {iv data : Bytes} (hready : (view ctx).Ready key iv)
    (hroom : (view ctx).text.length + data.length ≤ 2 ^ 36 - 32) :
    ∃ next, api.update ctx data =
        some (data.length, scheme.crypt key iv (view ctx).text.length data, next) ∧
      view next = { view ctx with text := (view ctx).text ++ data }
  setTag {ctx : σ} {tag : Vector UInt8 tagLen} (hdecrypt : (view ctx).encrypt = false)
    (hcipher : (view ctx).cipher = true) :
    ∃ next, api.setTag ctx tag = some next ∧ view next = { view ctx with tag := some tag }
  final_encrypt {ctx : σ} {key : Vector UInt8 keyLen} {iv : Bytes}
    (hready : (view ctx).Ready key iv) (hencrypt : (view ctx).encrypt = true) :
    ∃ next, api.final ctx = some (0, [], next) ∧ view next = { view ctx with finished := true }
  final_decrypt {ctx : σ} {key : Vector UInt8 keyLen} {iv : Bytes} {tag : Vector UInt8 tagLen}
    (hready : (view ctx).Ready key iv) (hdecrypt : (view ctx).encrypt = false)
    (htag : (view ctx).tag = some tag) :
    if scheme.mac key iv (view ctx).aad (view ctx).text = tag then
      ∃ next, api.final ctx = some (0, [], next)
    else api.final ctx = none
  tag {ctx : σ} {key : Vector UInt8 keyLen} {iv : Bytes}
    (hkeyed : (view ctx).keyed = some (key, iv)) (hfinished : (view ctx).finished = true)
    (hencrypt : (view ctx).encrypt = true) :
    api.tag ctx = some (scheme.mac key iv (view ctx).aad (scheme.crypt key iv 0 (view ctx).text))

section
variable {σ : Type} {api : CipherApi σ} {scheme : RecordScheme} {view : σ → CipherView}
  (context : CryptoContext)

/-- The three calls of an init leave a context ready. -/
theorem CipherApi.Serving.initCtx (hserving : api.Serving scheme view) (encrypt : Bool)
    (key : Vector UInt8 keyLen) {iv : Bytes} (hiv : iv.length = ivLen) :
    ∃ ctx, api.initCtx encrypt key iv = .ok ctx ∧
      view ctx = ⟨true, encrypt, ivLen, some (key, iv), [], [], none, false⟩ := by
  obtain ⟨ctx₁, hnew, hview₁⟩ := hserving.new
  obtain ⟨ctx₂, hcipher, hview₂⟩ :=
    @CipherApi.Serving.init_cipher _ api scheme view hserving ctx₁ encrypt hview₁
  obtain ⟨ctx₃, hlength, hview₃⟩ :=
    @CipherApi.Serving.setIvLength _ api scheme view hserving ctx₂ ivLen (by rw [hview₂])
      (by decide)
  rw [hview₂] at hview₃
  obtain ⟨ctx₄, hkey, hview₄⟩ := @CipherApi.Serving.init_key _ api scheme view hserving ctx₃ encrypt
    key iv (by rw [hview₃]) (by rw [hview₃]; exact hiv)
  rw [hview₃] at hview₄
  refine ⟨ctx₄, ?_, hview₄⟩
  simp [CipherApi.initCtx, orError, hnew, hcipher, hlength, hkey, bind, Except.bind]

/-- The encryption calls give the one-piece encryption. -/
theorem CipherApi.Serving.encryptCalls (hserving : api.Serving scheme view)
    (key : Vector UInt8 keyLen) {nonce aad plaintext : Bytes} (hnonce : nonce.length = ivLen)
    (haad : aad.length ≤ 2 ^ 61) (hplaintext : plaintext.length ≤ 2 ^ 36 - 32) :
    Aead.encryptCalls api key nonce aad plaintext =
      some (scheme.encrypt key nonce aad plaintext) := by
  obtain ⟨ctx₁, hinit, hview₁⟩ := hserving.initCtx true key hnonce
  have hready : (view ctx₁).Ready key nonce := by
    rw [hview₁]
    exact ⟨rfl, rfl⟩
  obtain ⟨ctx₂, hupdateAad, hview₂⟩ := @CipherApi.Serving.updateAad _ api scheme view hserving ctx₁
    key nonce aad hready (by rw [hview₁]) (by rw [hview₁]; simpa using haad)
  rw [hview₁] at hview₂
  obtain ⟨ctx₃, hupdate, hview₃⟩ := @CipherApi.Serving.update _ api scheme view hserving ctx₂ key
    nonce plaintext (by rw [hview₂]; exact ⟨rfl, rfl⟩) (by rw [hview₂]; simpa using hplaintext)
  rw [hview₂] at hview₃ hupdate
  obtain ⟨ctx₄, hfinal, hview₄⟩ := @CipherApi.Serving.final_encrypt _ api scheme view hserving ctx₃
    key nonce (by rw [hview₃]; exact ⟨rfl, rfl⟩) (by rw [hview₃])
  rw [hview₃] at hview₄
  have htag := @CipherApi.Serving.tag _ api scheme view hserving ctx₄ key nonce (by rw [hview₄])
    (by rw [hview₄]) (by rw [hview₄])
  rw [hview₄] at htag
  simp only [List.nil_append, List.length_nil] at hupdate htag
  simp [Aead.encryptCalls, CipherApi.initEncrypt, hinit, Except.toOption, hupdateAad, hupdate,
    hfinal, htag, StreamAead.encrypt]

/-- The decryption calls give the one-piece decryption. -/
theorem CipherApi.Serving.decrypt (hserving : api.Serving scheme view)
    (key : Vector UInt8 keyLen) {nonce aad ciphertext : Bytes} (tag : Vector UInt8 tagLen)
    (hnonce : nonce.length = ivLen) (haad : aad.length ≤ 2 ^ 61)
    (hciphertext : ciphertext.length ≤ 2 ^ 36 - 32) :
    (Aead.ofCalls api).decrypt key nonce aad ciphertext tag =
      match scheme.decrypt key nonce aad ciphertext tag with
      | none => .rejected
      | some plaintext => .plaintext plaintext := by
  obtain ⟨ctx₁, hinit, hview₁⟩ := hserving.initCtx false key hnonce
  have hready : (view ctx₁).Ready key nonce := by
    rw [hview₁]
    exact ⟨rfl, rfl⟩
  obtain ⟨ctx₂, hupdateAad, hview₂⟩ := @CipherApi.Serving.updateAad _ api scheme view hserving ctx₁
    key nonce aad hready (by rw [hview₁]) (by rw [hview₁]; simpa using haad)
  rw [hview₁] at hview₂
  obtain ⟨ctx₃, hupdate, hview₃⟩ := @CipherApi.Serving.update _ api scheme view hserving ctx₂ key
    nonce ciphertext (by rw [hview₂]; exact ⟨rfl, rfl⟩) (by rw [hview₂]; simpa using hciphertext)
  rw [hview₂] at hview₃ hupdate
  obtain ⟨ctx₄, hsetTag, hview₄⟩ := @CipherApi.Serving.setTag _ api scheme view hserving ctx₃ tag
    (by rw [hview₃]) (by rw [hview₃])
  rw [hview₃] at hview₄
  have hfinal := @CipherApi.Serving.final_decrypt _ api scheme view hserving ctx₄ key nonce tag
    (by rw [hview₄]; exact ⟨rfl, rfl⟩) (by rw [hview₄]) (by rw [hview₄])
  rw [hview₄] at hfinal
  simp only [List.nil_append, List.length_nil] at hupdate hfinal
  unfold StreamAead.decrypt
  split at hfinal
  case isTrue hmac =>
    obtain ⟨ctx₅, hfinal⟩ := hfinal
    rw [if_pos hmac]
    simp [Aead.ofCalls, Aead.decryptText, CipherApi.initDecrypt, hinit, Except.toOption, hupdateAad,
      hupdate, hsetTag, hfinal]
  case isFalse hmac =>
    rw [if_neg hmac]
    simp [Aead.ofCalls, Aead.decryptText, CipherApi.initDecrypt, hinit, Except.toOption, hupdateAad,
      hupdate, hsetTag, hfinal]

theorem length_aad (m c : Vector UInt8 hashLen) (d : Direction) (e : Vector UInt8 headerLen) :
    (aad m c d e).length = 2 + suite.length + 2 * hashLen + 1 + headerLen := by
  simp [aad]
  omega

theorem length_nonce (iv : Vector UInt8 ivLen) (sequence : ℕ) :
    (nonce iv sequence).length = ivLen := by
  simp [nonce, ivLen]

theorem gcmRoom {text : Bytes} (h : text.length ≤ maxPlaintext) :
    text.length ≤ 2 ^ 36 - 32 := by
  simp only [maxPlaintext] at h
  omega

theorem aadRoom (m c : Vector UInt8 hashLen) (d : Direction) (e : Vector UInt8 headerLen) :
    (aad m c d e).length ≤ 2 ^ 61 := by
  rw [length_aad]
  decide

/-- Sealing gives the record of the one-piece encryption. -/
theorem sealCalls_eq_wire (hserving : api.Serving scheme view) (t : RecordType) (c : Channel)
    (s : ℕ) {plaintext : Bytes} (hmax : plaintext.length ≤ maxPlaintext) :
    context.sealCalls api t c s plaintext =
      let sealed := scheme.encrypt context.traffic.key (nonce context.traffic.iv s)
        (aad context.manifestHash context.contextHash context.direction
          (encodeHeader t c s plaintext.length)) plaintext
      .ok (wire t c s sealed.1 sealed.2) := by
  have hencrypt := hserving.encryptCalls context.traffic.key (length_nonce context.traffic.iv s)
    (aadRoom context.manifestHash context.contextHash context.direction
      (encodeHeader t c s plaintext.length)) (gcmRoom hmax)
  rw [sealCalls_eq]
  simp only [CryptoContext.seal, new_eq_ok hmax, Aead.ofCalls, hencrypt]
  have hlength : (scheme.encrypt context.traffic.key (nonce context.traffic.iv s)
      (aad context.manifestHash context.contextHash context.direction
        (encodeHeader t c s plaintext.length)) plaintext).1.length = plaintext.length :=
    scheme.length_crypt _ _ _ _
  rw [if_neg (not_not.mpr hlength), wire, hlength]

/-- **Acceptance.**  A record that parses opens to a plaintext exactly when it is, byte for byte,
what sealing that plaintext gives with the type, channel and sequence number of its header. -/
theorem open_iff_seal (hserving : api.Serving scheme view) {input plaintext : Bytes}
    {parsed : ParsedRecord} (hparse : parse input = .ok parsed) :
    context.openCalls api parsed = .ok plaintext ↔
      context.sealCalls api parsed.header.recordType parsed.header.channel
        parsed.header.sequence plaintext = .ok input := by
  obtain ⟨hcanonical, hlength, rfl⟩ := parse_eq_ok hparse
  obtain ⟨⟨t, c, s, n, e⟩, ciphertext, tag⟩ := parsed
  obtain rfl : ciphertext.length = n := hlength
  obtain rfl : e = encodeHeader t c s ciphertext.length := hcanonical.encoded_eq
  have hs : s < 256 ^ 8 := hcanonical.sequence_lt
  have hmax : ciphertext.length ≤ maxPlaintext := hcanonical.plaintextLen_le
  have hiff := @StreamAead.decrypt_eq_some_iff _ _ _ scheme context.traffic.key
    (nonce context.traffic.iv s) _ (aad context.manifestHash context.contextHash context.direction
      (encodeHeader t c s ciphertext.length)) ciphertext plaintext tag
  have hopens : context.openCalls api
      ⟨⟨t, c, s, ciphertext.length, encodeHeader t c s ciphertext.length⟩, ciphertext, tag⟩ =
        .ok plaintext ↔ scheme.decrypt context.traffic.key (nonce context.traffic.iv s)
          (aad context.manifestHash context.contextHash context.direction
            (encodeHeader t c s ciphertext.length)) ciphertext tag = some plaintext ∧
          plaintext.length = ciphertext.length := by
    rw [openCalls_eq context rfl]
    simp only [CryptoContext.open]
    rw [hserving.decrypt _ tag (length_nonce context.traffic.iv s) (aadRoom _ _ _ _) (gcmRoom hmax)]
    cases scheme.decrypt context.traffic.key (nonce context.traffic.iv s)
        (aad context.manifestHash context.contextHash context.direction
          (encodeHeader t c s ciphertext.length)) ciphertext tag with
    | none => simp
    | some text =>
        by_cases htext : text.length = ciphertext.length
        · simp only [htext, ne_eq, not_true_eq_false, if_false, Except.ok.injEq, Option.some.injEq]
          constructor
          · rintro rfl
            exact ⟨rfl, htext⟩
          · exact fun h => h.1
        · simp only [htext, ne_eq, not_false_eq_true, if_true, reduceCtorEq, Option.some.injEq,
            false_iff, not_and]
          rintro rfl
          exact htext
  rw [hopens, hiff]
  constructor
  · rintro ⟨hsealed, hlength⟩
    rw [sealCalls_eq_wire context hserving t c s (by rw [hlength]; exact hmax), hlength]
    simp only [hsealed]
  · intro hsealed
    have hplaintext : plaintext.length ≤ maxPlaintext := by
      by_contra hlarge
      rw [sealCalls_eq, CryptoContext.seal, Header.new, if_pos (not_le.mp hlarge)] at hsealed
      cases hsealed
    rw [sealCalls_eq_wire context hserving t c s hplaintext] at hsealed
    have hwire := Except.ok.inj hsealed
    have hlength := scheme.length_crypt context.traffic.key (nonce context.traffic.iv s) 0 plaintext
    obtain ⟨-, -, -, hciphertext, htag⟩ :=
      wire_inj hs (by rw [StreamAead.encrypt, hlength]; exact hplaintext) hs hmax hwire
    have hsame : plaintext.length = ciphertext.length := by
      rw [← hciphertext, StreamAead.encrypt, hlength]
    rw [hsame] at hciphertext htag
    exact ⟨Prod.ext hciphertext htag, hsame⟩

end

/-! ### A context that keeps to this -/

/-- AES-256-GCM made of a key stream and a tag. -/
def CipherView.api (scheme : RecordScheme) : CipherApi CipherView where
  new := some .fresh
  init v encrypt cipher keyed :=
    if cipher then some { CipherView.fresh with cipher := true, encrypt := encrypt }
    else if v.cipher ∧ ∀ key ∈ keyed, key.2.length = v.ivLength then
      some { v with encrypt := encrypt, keyed := keyed, aad := [], text := [], finished := false }
    else none
  setIvLength v n := if v.cipher ∧ 0 < n then some { v with ivLength := n } else none
  updateAad v data :=
    if v.keyed.isSome ∧ v.finished = false ∧ v.text = [] then some { v with aad := v.aad ++ data }
    else none
  update v data :=
    match v.keyed with
    | none => none
    | some (key, iv) =>
        if v.finished then none
        else some (data.length, scheme.crypt key iv v.text.length data,
          { v with text := v.text ++ data })
  final v :=
    match v.keyed with
    | none => none
    | some (key, iv) =>
        if v.finished = false ∧ (v.encrypt ∨ v.tag = some (scheme.mac key iv v.aad v.text)) then
          some (0, [], { v with finished := true })
        else none
  tag v :=
    match v.keyed with
    | none => none
    | some (key, iv) =>
        if v.finished ∧ v.encrypt then
          some (scheme.mac key iv v.aad (scheme.crypt key iv 0 v.text))
        else none
  setTag v tag := if v.cipher ∧ v.encrypt = false then some { v with tag := some tag } else none

theorem CipherView.serving (scheme : RecordScheme) :
    (CipherView.api scheme).Serving scheme id where
  new := ⟨_, rfl, rfl⟩
  init_cipher _ := ⟨_, rfl, rfl⟩
  setIvLength hcipher hn := ⟨_, if_pos ⟨hcipher, hn⟩, rfl⟩
  init_key {ctx encrypt key iv} hcipher hiv := by
    refine ⟨_, ?_, rfl⟩
    simp only [id_eq] at hcipher hiv
    simp [api, hcipher, hiv]
  updateAad hready htext _ := by
    refine ⟨_, if_pos ⟨?_, hready.finished_eq, htext⟩, rfl⟩
    have hkeyed := hready.keyed_eq
    simp only [id_eq] at hkeyed
    rw [hkeyed]
    rfl
  update hready _ := by
    refine ⟨_, ?_, rfl⟩
    have hkeyed := hready.keyed_eq
    have hfinished := hready.finished_eq
    simp only [id_eq] at hkeyed hfinished
    simp [api, hkeyed, hfinished]
  setTag hdecrypt hcipher := ⟨_, if_pos ⟨hcipher, hdecrypt⟩, rfl⟩
  final_encrypt hready hencrypt := by
    refine ⟨_, ?_, rfl⟩
    have hkeyed := hready.keyed_eq
    have hfinished := hready.finished_eq
    simp only [id_eq] at hkeyed hfinished hencrypt
    simp [api, hkeyed, hfinished, hencrypt]
  final_decrypt hready hdecrypt htag := by
    have hkeyed := hready.keyed_eq
    have hfinished := hready.finished_eq
    simp only [id_eq] at hkeyed hfinished hdecrypt htag ⊢
    split
    case isTrue hmac => exact ⟨_, by simp [api, hkeyed, hfinished, htag, hmac]; rfl⟩
    case isFalse hmac =>
      simp only [api, hkeyed, hfinished, hdecrypt, htag, Bool.false_eq_true, false_or, true_and,
        Option.some.injEq, ite_eq_right_iff, reduceCtorEq, imp_false]
      exact fun h => hmac h.symm
  tag hkeyed hfinished hencrypt := by
    simp only [id_eq] at hkeyed hfinished hencrypt
    simp [api, hkeyed, hfinished, hencrypt]

/-- AES-256-GCM on the records of the test vectors; elsewhere key stream and tag are zero. -/
def whitepaperScheme : RecordScheme where
  stream _ nonce n :=
    (beBytes 4 ((whitepaperRecords.lookup (beNat nonce)).elim 0 Prod.fst)).getD n 0
  mac _ nonce _ _ := beVector tagLen ((whitepaperRecords.lookup (beNat nonce)).elim 0 Prod.snd)

/-- The Client's first record on Menora. -/
theorem open_iff_seal_whitepaper :
    let context := (Session.ofSecrets .client whitepaperSecrets).context .menora .clientToServer
    let input := wire .data .menora 0 (beBytes 4 0xc130c2b2)
      (beVector tagLen 0x1e8546f0c615ffecfe919005e67675c9)
    ∃ parsed, parse input = .ok parsed ∧
      context.openCalls (CipherView.api whitepaperScheme) parsed = .ok (ascii "G301") := by
  intro context input
  have hparse := @parse_wire .data .menora 0 (beBytes 4 0xc130c2b2)
    (beVector tagLen 0x1e8546f0c615ffecfe919005e67675c9) (by decide) (by decide)
  refine ⟨_, hparse, ?_⟩
  rw [open_iff_seal context (CipherView.serving whitepaperScheme) hparse]
  have hmax : (ascii "G301").length ≤ maxPlaintext := by decide
  rw [sealCalls_eq_wire context (CipherView.serving whitepaperScheme) .data .menora 0 hmax]
  exact congrArg Except.ok (by decide +kernel)

end G301.Inner
