import G301.Lib.BigEndian

/-! # Authenticated encryption given in pieces

`StreamAead` is an AEAD scheme of the counter-mode kind: byte `n` of a key stream is added to
byte `n` of the text, and a tag is computed from associated data and ciphertext.
`encrypt` and `decrypt` take a message in one piece; `crypt` works from any position of the
key stream on, so that `crypt_append` joins the pieces of a text.

`decrypt_eq_some_iff` is the correctness of the scheme: exactly the encryption of a text
decrypts to it. -/

namespace ByteString

/-- A key stream and a tag over associated data and ciphertext. -/
structure StreamAead (Key Nonce Tag : Type*) where
  stream : Key → Nonce → ℕ → UInt8
  mac : Key → Nonce → Bytes → Bytes → Tag

namespace StreamAead

variable {Key Nonce Tag : Type*} (scheme : StreamAead Key Nonce Tag) (key : Key) (nonce : Nonce)

/-- The text with the key stream added from position `n` on. -/
def crypt (n : ℕ) : Bytes → Bytes
  | [] => []
  | b :: text => (b ^^^ scheme.stream key nonce n) :: crypt (n + 1) text

@[simp] theorem length_crypt (n : ℕ) (text : Bytes) :
    (scheme.crypt key nonce n text).length = text.length := by
  induction text generalizing n with
  | nil => rfl
  | cons b text ih => rw [crypt, List.length_cons, ih, List.length_cons]

/-- The second piece of a text goes on where the first one ends. -/
theorem crypt_append (n : ℕ) (text text' : Bytes) :
    scheme.crypt key nonce n (text ++ text') =
      scheme.crypt key nonce n text ++ scheme.crypt key nonce (n + text.length) text' := by
  induction text generalizing n with
  | nil => rfl
  | cons b text ih =>
      have hpos : n + 1 + text.length = n + (b :: text).length := by
        rw [List.length_cons]
        omega
      rw [List.cons_append, crypt, crypt, ih, hpos, List.cons_append]

/-- Adding the key stream twice gives the text back. -/
theorem crypt_crypt (n : ℕ) (text : Bytes) :
    scheme.crypt key nonce n (scheme.crypt key nonce n text) = text := by
  induction text generalizing n with
  | nil => rfl
  | cons b text ih =>
      rw [crypt, crypt, ih, UInt8.xor_assoc, UInt8.xor_self, UInt8.xor_zero]

/-- Ciphertext and tag of a message. -/
def encrypt (aad plaintext : Bytes) : Bytes × Tag :=
  (scheme.crypt key nonce 0 plaintext,
    scheme.mac key nonce aad (scheme.crypt key nonce 0 plaintext))

variable [DecidableEq Tag]

/-- The plaintext, if the tag is that of the ciphertext. -/
def decrypt (aad ciphertext : Bytes) (tag : Tag) : Option Bytes :=
  if scheme.mac key nonce aad ciphertext = tag then some (scheme.crypt key nonce 0 ciphertext)
  else none

/-- Exactly the encryption of a text decrypts to it. -/
theorem decrypt_eq_some_iff {aad ciphertext plaintext : Bytes} {tag : Tag} :
    scheme.decrypt key nonce aad ciphertext tag = some plaintext ↔
      scheme.encrypt key nonce aad plaintext = (ciphertext, tag) := by
  unfold decrypt encrypt
  constructor
  · intro h
    split at h
    case isTrue htag =>
      obtain rfl := Option.some.inj h
      rw [crypt_crypt, htag]
    case isFalse => cases h
  · intro h
    obtain ⟨rfl, htag⟩ := Prod.mk.inj h
    rw [if_pos htag, crypt_crypt]

end StreamAead

end ByteString
