import G301.Inner.Record

/-! # Assumptions on AES-256-GCM

The record layer takes AES-256-GCM as the parameter `Aead`.  The results about two endpoints
rest on one of two properties of it.

* `Aead.Ideal encryptions`: decryption answers with a plaintext only if the same call was made
  before on the encrypting side, as recorded in the list `encryptions`.  In a run this is the list
  of the encryption calls made (`Net.run_encryptions`).
* `Aead.Correct`: encryption never fails and decryption undoes it.

Neither is vacuous.  `Aead.answering` decrypts by looking the ciphertext up in the list of
what was sealed and is ideal; `Aead.gcm` is the shape of GCM itself, a key stream and a tag
over associated data and ciphertext, and is correct for every choice of the two. -/

namespace G301.Inner

open ByteString

/-- One encryption: its inputs and its output. -/
structure Encryption where
  key : Vector UInt8 keyLen
  nonce : Bytes
  aad : Bytes
  plaintext : Bytes
  ciphertext : Bytes
  tag : Vector UInt8 tagLen
deriving DecidableEq, Repr

namespace Encryption

/-- The decryption call that undoes the encryption. -/
structure Opens (x : Encryption) (key : Vector UInt8 keyLen) (nonce aad ciphertext : Bytes)
    (tag : Vector UInt8 tagLen) : Prop where
  key_eq : x.key = key
  nonce_eq : x.nonce = nonce
  aad_eq : x.aad = aad
  ciphertext_eq : x.ciphertext = ciphertext
  tag_eq : x.tag = tag

instance (x : Encryption) (key : Vector UInt8 keyLen) (nonce aad ciphertext : Bytes)
    (tag : Vector UInt8 tagLen) : Decidable (x.Opens key nonce aad ciphertext tag) :=
  decidable_of_iff (x.key = key ∧ x.nonce = nonce ∧ x.aad = aad ∧ x.ciphertext = ciphertext ∧
      x.tag = tag)
    ⟨fun ⟨h1, h2, h3, h4, h5⟩ => ⟨h1, h2, h3, h4, h5⟩,
      fun ⟨h1, h2, h3, h4, h5⟩ => ⟨h1, h2, h3, h4, h5⟩⟩

end Encryption

namespace Aead

/-- Nothing opens but what was sealed, and it opens to what was sealed. -/
def Ideal (encryptions : List Encryption) (aead : Aead) : Prop :=
  ∀ key nonce aad ciphertext tag plaintext,
    aead.decrypt key nonce aad ciphertext tag = .plaintext plaintext →
      ∃ x ∈ encryptions, x.Opens key nonce aad ciphertext tag ∧ x.plaintext = plaintext

/-- Encryption succeeds and decryption undoes it. -/
def Correct (aead : Aead) : Prop :=
  ∀ key nonce aad plaintext, ∃ ciphertext tag,
    aead.encrypt key nonce aad plaintext = some (ciphertext, tag) ∧
      ciphertext.length = plaintext.length ∧
      aead.decrypt key nonce aad ciphertext tag = .plaintext plaintext

/-- Decryption that looks up what was encrypted before. -/
def answering (encryptions : List Encryption) (aead : Aead) : Aead where
  encrypt := aead.encrypt
  decrypt key nonce aad ciphertext tag :=
    match encryptions.find? fun x => x.Opens key nonce aad ciphertext tag with
    | some x => .plaintext x.plaintext
    | none => .rejected

theorem ideal_answering (encryptions : List Encryption) (aead : Aead) :
    Ideal encryptions (answering encryptions aead) := by
  intro key nonce aad ciphertext tag plaintext h
  simp only [answering] at h
  split at h
  · rename_i x hx
    obtain rfl := Opening.plaintext.inj h
    have hopens : x.Opens key nonce aad ciphertext tag := by simpa using List.find?_some hx
    exact ⟨x, List.mem_of_find?_eq_some hx, hopens, rfl⟩
  · cases h

/-- Counter mode with a tag over associated data and ciphertext. -/
def gcm (stream : Vector UInt8 keyLen → Bytes → (len : ℕ) → Vector UInt8 len)
    (mac : Vector UInt8 keyLen → Bytes → Bytes → Bytes → Vector UInt8 tagLen) : Aead where
  encrypt key nonce aad plaintext :=
    let ciphertext := xorBytes plaintext (stream key nonce plaintext.length).toList
    some (ciphertext, mac key nonce aad ciphertext)
  decrypt key nonce aad ciphertext tag :=
    if mac key nonce aad ciphertext = tag then
      .plaintext (xorBytes ciphertext (stream key nonce ciphertext.length).toList)
    else .rejected

theorem gcm_correct (stream : Vector UInt8 keyLen → Bytes → (len : ℕ) → Vector UInt8 len)
    (mac : Vector UInt8 keyLen → Bytes → Bytes → Bytes → Vector UInt8 tagLen) :
    (gcm stream mac).Correct := by
  intro key nonce aad plaintext
  have hlen : (xorBytes plaintext (stream key nonce plaintext.length).toList).length =
      plaintext.length := by simp
  refine ⟨_, _, rfl, hlen, ?_⟩
  simp only [gcm, if_true, Opening.plaintext.injEq]
  rw [hlen]
  exact xorBytes_xorBytes (by simp)

end Aead

end G301.Inner
