import G301.Inner.Profile

/-! # Records on the wire

The 16-byte record header, the parser of complete records, the associated data and nonce of
a record, and sealing and opening under one traffic context.

AES-256-GCM is the `Aead` parameter of `CryptoContext.seal` and `CryptoContext.open`: one
encryption or decryption under key, nonce and associated data, which may also fail.

* `decode_encodeHeader` and `decode_eq_ok`: a header and its 16 bytes determine each other.
* `parse_wire` and `parse_eq_ok`: the parser accepts what the encoder produces, and nothing
  else.
* `aad_inj` and `nonce_inj`: associated data determine the context hash, the direction and
  the header; under one IV the nonce determines the sequence number. -/

namespace G301.Inner

open ByteString

abbrev version : UInt8 := 1
abbrev headerLen : ℕ := 16
abbrev tagLen : ℕ := 16
abbrev maxPlaintext : ℕ := 2 ^ 14

/-- `checked_add` on `u64` and on 64-bit `usize`. -/
def checkedAdd (a b : ℕ) : Option ℕ := if a + b < 2 ^ 64 then some (a + b) else none

theorem checkedAdd_of_lt {a b : ℕ} (h : a + b < 2 ^ 64) : checkedAdd a b = some (a + b) := by
  rw [checkedAdd, if_pos h]

inductive RecordType where
  | data
  | commit
  | refreshRequired
  | close
deriving DecidableEq, Repr

namespace RecordType

/-- `record_type as u8`. -/
def toByte : RecordType → UInt8
  | data => 0x00
  | commit => 0x80
  | refreshRequired => 0x81
  | close => 0x82

def fromByte : UInt8 → Option RecordType
  | 0x00 => some data
  | 0x80 => some commit
  | 0x81 => some refreshRequired
  | 0x82 => some close
  | _ => none

@[simp] theorem fromByte_toByte (t : RecordType) : fromByte t.toByte = some t := by
  cases t <;> rfl

theorem toByte_of_fromByte {b : UInt8} {t : RecordType} (h : fromByte b = some t) :
    t.toByte = b := by
  unfold fromByte at h
  split at h <;> simp_all <;> subst h <;> rfl

end RecordType

structure Header where
  recordType : RecordType
  channel : Channel
  sequence : ℕ
  plaintextLen : ℕ
  encoded : Vector UInt8 headerLen
deriving DecidableEq, Repr

/-- The 16 bytes of a header. -/
def encodeHeader (recordType : RecordType) (channel : Channel) (sequence plaintextLen : ℕ) :
    Vector UInt8 headerLen :=
  ⟨(version :: recordType.toByte ::
      (beBytes 2 channel.id ++ beBytes 8 sequence ++ beBytes 4 plaintextLen)).toArray, by simp⟩

theorem encodeHeader_toList (t : RecordType) (c : Channel) (s n : ℕ) :
    (encodeHeader t c s n).toList =
      version :: t.toByte :: (beBytes 2 c.id ++ beBytes 8 s ++ beBytes 4 n) := by
  simp [encodeHeader, Vector.toList]

namespace Header

def new (recordType : RecordType) (channel : Channel) (sequence plaintextLen : ℕ) :
    Except Error Header :=
  if maxPlaintext < plaintextLen then .error .plaintextTooLarge
  else if 2 ^ 32 ≤ plaintextLen then .error .plaintextTooLarge
  else .ok ⟨recordType, channel, sequence, plaintextLen,
    encodeHeader recordType channel sequence plaintextLen⟩

/-- `encoded[from..to]`. -/
def slice (encoded : Vector UInt8 headerLen) (start stop : ℕ) : Bytes :=
  (encoded.toList.drop start).take (stop - start)

def decode (encoded : Vector UInt8 headerLen) : Except Error Header :=
  if encoded[0] ≠ version then .error .invalidRecord
  else
    match RecordType.fromByte encoded[1] with
    | none => .error .invalidRecord
    | some recordType =>
        match Channel.fromId (beNat (slice encoded 2 4)) with
        | none => .error .invalidRecord
        | some channel =>
            let sequence := beNat (slice encoded 4 12)
            let plaintextLen := beNat (slice encoded 12 16)
            if maxPlaintext < plaintextLen then .error .invalidRecord
            else .ok ⟨recordType, channel, sequence, plaintextLen, encoded⟩

def expectedWireLen (header : Header) : Except Error ℕ :=
  match (checkedAdd headerLen header.plaintextLen).bind (checkedAdd · tagLen) with
  | none => .error .invalidRecord
  | some len => .ok len

/-- What `new` and `decode` guarantee of a header: its bytes are the encoding of its fields,
which are in range. -/
structure Canonical (header : Header) : Prop where
  encoded_eq : header.encoded =
    encodeHeader header.recordType header.channel header.sequence header.plaintextLen
  sequence_lt : header.sequence < 256 ^ 8
  plaintextLen_le : header.plaintextLen ≤ maxPlaintext

end Header

open Header

theorem new_eq_ok {t : RecordType} {c : Channel} {s n : ℕ} (h : n ≤ maxPlaintext) :
    Header.new t c s n = .ok ⟨t, c, s, n, encodeHeader t c s n⟩ := by
  have h32 : ¬ 2 ^ 32 ≤ n := by simp only [maxPlaintext] at h; omega
  rw [Header.new, if_neg (Nat.not_lt.mpr h), if_neg h32]

theorem plaintextLen_le_of_new {t : RecordType} {c : Channel} {s n : ℕ} {header : Header}
    (h : Header.new t c s n = .ok header) : n ≤ maxPlaintext := by
  unfold Header.new at h
  split at h
  · cases h
  · omega

/-! ### Headers and their bytes -/

theorem encodeHeader_getElem_zero (t : RecordType) (c : Channel) (s n : ℕ) :
    (encodeHeader t c s n)[0] = version := rfl

theorem encodeHeader_getElem_one (t : RecordType) (c : Channel) (s n : ℕ) :
    (encodeHeader t c s n)[1] = t.toByte := rfl

theorem slice_channel (t : RecordType) (c : Channel) (s n : ℕ) :
    slice (encodeHeader t c s n) 2 4 = beBytes 2 c.id := by
  simp only [slice, encodeHeader_toList, List.drop_succ_cons, List.drop_zero, List.append_assoc]
  exact List.take_left' (beBytes_length 2 c.id)

theorem slice_sequence (t : RecordType) (c : Channel) (s n : ℕ) :
    slice (encodeHeader t c s n) 4 12 = beBytes 8 s := by
  simp only [slice, encodeHeader_toList, List.drop_succ_cons, List.append_assoc]
  rw [List.drop_left' (beBytes_length 2 c.id)]
  exact List.take_left' (beBytes_length 8 s)

theorem slice_plaintextLen (t : RecordType) (c : Channel) (s n : ℕ) :
    slice (encodeHeader t c s n) 12 16 = beBytes 4 n := by
  simp only [slice, encodeHeader_toList, List.drop_succ_cons]
  rw [List.drop_left' (by simp)]
  exact List.take_of_length_le (by simp)

/-- Decoding the encoding of fields in range gives them back. -/
theorem decode_encodeHeader (t : RecordType) (c : Channel) {s n : ℕ} (hs : s < 256 ^ 8)
    (hn : n ≤ maxPlaintext) :
    decode (encodeHeader t c s n) = .ok ⟨t, c, s, n, encodeHeader t c s n⟩ := by
  have hn4 : n < 256 ^ 4 := by simp only [maxPlaintext] at hn; omega
  unfold decode
  simp only [encodeHeader_getElem_zero, encodeHeader_getElem_one, slice_channel, slice_sequence,
    slice_plaintextLen, beNat_beBytes (Channel.id_lt c), beNat_beBytes hs, beNat_beBytes hn4,
    RecordType.fromByte_toByte, Channel.fromId_id]
  simp [Nat.not_lt.mpr hn]

/-- Sixteen bytes are their first two and the three fields behind them. -/
theorem toList_eq_slices (e : Vector UInt8 headerLen) :
    e.toList = e[0] :: e[1] :: (slice e 2 4 ++ slice e 4 12 ++ slice e 12 16) := by
  obtain ⟨⟨l⟩, hlen⟩ := e
  match l, hlen with
  | [_, _, _, _, _, _, _, _, _, _, _, _, _, _, _, _], _ => rfl

/-- A header that decodes is canonical and keeps the bytes it was read from. -/
theorem decode_eq_ok {e : Vector UInt8 headerLen} {header : Header}
    (h : decode e = .ok header) : header.encoded = e ∧ header.Canonical := by
  have hslices : ∀ a b, a ≤ b → b ≤ 16 → (slice e a b).length = b - a := by
    intro a b hab hb
    simp only [slice, List.length_take, List.length_drop, Vector.length_toList, headerLen]
    omega
  unfold decode at h
  split at h
  · cases h
  rename_i hv
  split at h
  · cases h
  rename_i t ht
  split at h
  · cases h
  rename_i c hc
  dsimp only at h
  split at h
  · cases h
  rename_i hn
  obtain rfl := Except.ok.inj h
  refine ⟨rfl, ⟨?_, ?_, by simpa using hn⟩⟩
  · apply Vector.toList_inj.mp
    have hver : e[0] = version := by simpa using hv
    have h24 := beBytes_beNat (slice e 2 4)
    have h412 := beBytes_beNat (slice e 4 12)
    have h1216 := beBytes_beNat (slice e 12 16)
    rw [hslices 2 4 (by decide) (by decide)] at h24
    rw [hslices 4 12 (by decide) (by decide)] at h412
    rw [hslices 12 16 (by decide) (by decide)] at h1216
    rw [encodeHeader_toList, toList_eq_slices, RecordType.toByte_of_fromByte ht,
      Channel.id_of_fromId hc, hver, h24, h412, h1216]
  · have := beNat_lt (slice e 4 12)
    rwa [hslices 4 12 (by decide) (by decide)] at this

theorem encodeHeader_inj {t t' : RecordType} {c c' : Channel} {s s' n n' : ℕ}
    (hs : s < 256 ^ 8) (hn : n ≤ maxPlaintext) (hs' : s' < 256 ^ 8) (hn' : n' ≤ maxPlaintext)
    (h : encodeHeader t c s n = encodeHeader t' c' s' n') :
    t = t' ∧ c = c' ∧ s = s' ∧ n = n' := by
  have h1 := decode_encodeHeader t c hs hn
  rw [h, decode_encodeHeader t' c' hs' hn'] at h1
  simp only [Except.ok.injEq, Header.mk.injEq] at h1
  obtain ⟨ht, hc, hs, hn, -⟩ := h1
  exact ⟨ht.symm, hc.symm, hs.symm, hn.symm⟩

theorem expectedWireLen_eq {header : Header} (h : header.plaintextLen ≤ maxPlaintext) :
    header.expectedWireLen = .ok (headerLen + header.plaintextLen + tagLen) := by
  have h1 : headerLen + header.plaintextLen < 2 ^ 64 := by
    simp only [maxPlaintext, headerLen] at h ⊢; omega
  have h2 : headerLen + header.plaintextLen + tagLen < 2 ^ 64 := by
    simp only [maxPlaintext, headerLen, tagLen] at h ⊢; omega
  simp [expectedWireLen, checkedAdd_of_lt h1, checkedAdd_of_lt h2]

/-! ### Slices with their bounds -/

/-- `bytes[start..stop]`; `none` where the source would panic. -/
def slice? (bytes : Bytes) (start stop : ℕ) : Option Bytes :=
  if start ≤ stop ∧ stop ≤ bytes.length then some ((bytes.drop start).take (stop - start))
  else none

theorem slice?_of_le {bytes : Bytes} {start stop : ℕ} (hstart : start ≤ stop)
    (hstop : stop ≤ bytes.length) :
    slice? bytes start stop = some ((bytes.drop start).take (stop - start)) := by
  rw [slice?, if_pos ⟨hstart, hstop⟩]

/-- `Header::decode` with every slice checked. -/
def decodeChecked (encoded : Vector UInt8 headerLen) : Option (Except Error Header) :=
  if encoded[0] ≠ version then some (.error .invalidRecord)
  else
    match RecordType.fromByte encoded[1] with
    | none => some (.error .invalidRecord)
    | some recordType =>
        (slice? encoded.toList 2 4).bind fun id =>
          match Channel.fromId (beNat id) with
          | none => some (.error .invalidRecord)
          | some channel =>
              (slice? encoded.toList 4 12).bind fun sequence =>
                (slice? encoded.toList 12 16).bind fun plaintextLen =>
                  if maxPlaintext < beNat plaintextLen then some (.error .invalidRecord)
                  else some (.ok
                    ⟨recordType, channel, beNat sequence, beNat plaintextLen, encoded⟩)

/-! ### The parser -/

structure ParsedRecord where
  header : Header
  ciphertext : Bytes
  tag : Vector UInt8 tagLen
deriving DecidableEq, Repr

def parse (input : Bytes) : Except Error ParsedRecord :=
  if input.length < headerLen + tagLen then .error .invalidRecord
  else
    match toArray? headerLen (input.take headerLen) with
    | none => .error .invalidRecord
    | some encoded =>
        match decode encoded with
        | .error e => .error e
        | .ok header =>
            match header.expectedWireLen with
            | .error e => .error e
            | .ok expectedLen =>
                if input.length ≠ expectedLen then .error .invalidRecord
                else
                  let ciphertext := (input.drop headerLen).take header.plaintextLen
                  match toArray? tagLen (input.drop (headerLen + header.plaintextLen)) with
                  | none => .error .invalidRecord
                  | some tag => .ok ⟨header, ciphertext, tag⟩

/-- The bytes of a record. -/
def wire (recordType : RecordType) (channel : Channel) (sequence : ℕ) (ciphertext : Bytes)
    (tag : Vector UInt8 tagLen) : Bytes :=
  (encodeHeader recordType channel sequence ciphertext.length).toList ++ ciphertext ++ tag.toList

/-- The parser reads back every record in range. -/
theorem parse_wire (t : RecordType) (c : Channel) {s : ℕ} {ciphertext : Bytes}
    (tag : Vector UInt8 tagLen) (hs : s < 256 ^ 8) (hn : ciphertext.length ≤ maxPlaintext) :
    parse (wire t c s ciphertext tag) =
      .ok ⟨⟨t, c, s, ciphertext.length, encodeHeader t c s ciphertext.length⟩, ciphertext, tag⟩ := by
  generalize he : encodeHeader t c s ciphertext.length = e
  have hw : wire t c s ciphertext tag = e.toList ++ (ciphertext ++ tag.toList) := by
    rw [wire, he, List.append_assoc]
  have hlen : (wire t c s ciphertext tag).length = headerLen + ciphertext.length + tagLen := by
    simp [hw, Nat.add_assoc]
  have hshort : ¬ (wire t c s ciphertext tag).length < headerLen + tagLen := by omega
  have htake : (wire t c s ciphertext tag).take headerLen = e.toList := by
    rw [hw]; exact List.take_left' (by simp)
  have hdrop : (wire t c s ciphertext tag).drop headerLen = ciphertext ++ tag.toList := by
    rw [hw]; exact List.drop_left' (by simp)
  have htag : (wire t c s ciphertext tag).drop (headerLen + ciphertext.length) = tag.toList := by
    rw [hw, ← List.append_assoc]; exact List.drop_left' (by simp)
  have hdec : decode e = .ok ⟨t, c, s, ciphertext.length, e⟩ := by
    rw [← he]; exact decode_encodeHeader t c hs hn
  have hexp : Header.expectedWireLen ⟨t, c, s, ciphertext.length, e⟩ =
      .ok (headerLen + ciphertext.length + tagLen) := expectedWireLen_eq hn
  unfold parse
  rw [if_neg hshort]
  simp only [htake, toArray?_toList, hdec, hexp, hlen, hdrop, htag]
  simp

/-- What the parser accepts is the encoding of what it returns. -/
theorem parse_eq_ok {input : Bytes} {p : ParsedRecord} (h : parse input = .ok p) :
    p.header.Canonical ∧ p.ciphertext.length = p.header.plaintextLen ∧
      input = wire p.header.recordType p.header.channel p.header.sequence p.ciphertext p.tag := by
  unfold parse at h
  split at h
  · cases h
  split at h
  · cases h
  rename_i encoded henc
  split at h
  · cases h
  rename_i header hdec
  obtain ⟨hkeep, hcan⟩ := decode_eq_ok hdec
  rw [expectedWireLen_eq hcan.plaintextLen_le] at h
  simp only at h
  split at h
  · cases h
  rename_i hlen
  split at h
  · cases h
  rename_i tag htag
  obtain rfl := Except.ok.inj h
  have hlen : input.length = headerLen + header.plaintextLen + tagLen := by simpa using hlen
  have hct : ((input.drop headerLen).take header.plaintextLen).length = header.plaintextLen := by
    rw [List.length_take, List.length_drop, hlen]; omega
  refine ⟨hcan, hct, ?_⟩
  have h1 : input.take headerLen = encoded.toList := toArray?_eq_some.mp henc
  have h2 : input.drop (headerLen + header.plaintextLen) = tag.toList := toArray?_eq_some.mp htag
  have h3 : (input.drop headerLen).drop header.plaintextLen = tag.toList := by
    rw [List.drop_drop]; exact h2
  simp only [wire, hct]
  rw [← hcan.encoded_eq, hkeep, ← h1, ← h3, List.append_assoc, List.take_append_drop,
    List.take_append_drop]

/-- A record in range determines its fields. -/
theorem wire_inj {t t' : RecordType} {c c' : Channel} {s s' : ℕ} {ct ct' : Bytes}
    {tag tag' : Vector UInt8 tagLen} (hs : s < 256 ^ 8) (hn : ct.length ≤ maxPlaintext)
    (hs' : s' < 256 ^ 8) (hn' : ct'.length ≤ maxPlaintext)
    (h : wire t c s ct tag = wire t' c' s' ct' tag') :
    t = t' ∧ c = c' ∧ s = s' ∧ ct = ct' ∧ tag = tag' := by
  have hp := parse_wire t c tag hs hn
  rw [h, parse_wire t' c' tag' hs' hn'] at hp
  simp only [Except.ok.injEq, ParsedRecord.mk.injEq, Header.mk.injEq] at hp
  obtain ⟨⟨ht, hc, hs, -, -⟩, hct, htag⟩ := hp
  exact ⟨ht.symm, hc.symm, hs.symm, hct.symm, htag.symm⟩

/-! ### Associated data and nonce -/

def aad (manifestHash contextHash : Vector UInt8 hashLen) (direction : Direction)
    (header : Vector UInt8 headerLen) : Bytes :=
  beBytes 2 suite.length ++ suite ++ manifestHash.toList ++ contextHash.toList ++
    [direction.toByte] ++ header.toList

theorem aad_inj {m m' c c' : Vector UInt8 hashLen} {d d' : Direction}
    {e e' : Vector UInt8 headerLen} (h : aad m c d e = aad m' c' d' e') :
    m = m' ∧ c = c' ∧ d = d' ∧ e = e' := by
  unfold aad at h
  obtain ⟨h, he⟩ := List.append_inj' h (by simp)
  obtain ⟨h, hd⟩ := List.append_inj' h (by simp)
  obtain ⟨h, hc⟩ := List.append_inj' h (by simp)
  obtain ⟨-, hm⟩ := List.append_inj' h (by simp)
  exact ⟨Vector.toList_inj.mp hm, Vector.toList_inj.mp hc,
    Direction.toByte_inj (List.singleton_inj.mp hd), Vector.toList_inj.mp he⟩

/-- The IV with the sequence number added to its last eight bytes. -/
def nonce (iv : Vector UInt8 ivLen) (sequence : ℕ) : Bytes :=
  iv.toList.take 4 ++ xorBytes (iv.toList.drop 4) (beBytes 8 sequence)

theorem nonce_inj {iv : Vector UInt8 ivLen} {s s' : ℕ} (hs : s < 256 ^ 8) (hs' : s' < 256 ^ 8)
    (h : nonce iv s = nonce iv s') : s = s' := by
  have hxor := List.append_cancel_left h
  exact beBytes_inj hs hs' (xorBytes_inj (by simp [ivLen]) (by simp [ivLen]) hxor)

/-! ### Sealing and opening -/

/-- The answer of one decryption: OpenSSL failed before the ciphertext was processed, the
ciphertext or tag was rejected, or the plaintext. -/
inductive Opening where
  | failed
  | rejected
  | plaintext (bytes : Bytes)
deriving DecidableEq, Repr

/-- AES-256-GCM as OpenSSL offers it, one message at a time: encryption of a plaintext under
key, nonce and associated data to ciphertext and tag, and decryption.  Encryption answers
`none` when an OpenSSL call fails. -/
structure Aead where
  encrypt : Vector UInt8 keyLen → Bytes → Bytes → Bytes → Option (Bytes × Vector UInt8 tagLen)
  decrypt : Vector UInt8 keyLen → Bytes → Bytes → Bytes → Vector UInt8 tagLen → Opening

structure CryptoContext where
  traffic : TrafficKey
  manifestHash : Vector UInt8 hashLen
  contextHash : Vector UInt8 hashLen
  direction : Direction

def CryptoContext.seal (context : CryptoContext) (aead : Aead) (recordType : RecordType)
    (channel : Channel) (sequence : ℕ) (plaintext : Bytes) : Except Error Bytes :=
  match Header.new recordType channel sequence plaintext.length with
  | .error e => .error e
  | .ok header =>
      let aad := aad context.manifestHash context.contextHash context.direction header.encoded
      let nonce := nonce context.traffic.iv sequence
      match aead.encrypt context.traffic.key nonce aad plaintext with
      | none => .error .crypto
      | some (ciphertext, tag) =>
          if ciphertext.length ≠ plaintext.length then .error .crypto
          else .ok (header.encoded.toList ++ ciphertext ++ tag.toList)

def CryptoContext.open (context : CryptoContext) (aead : Aead) (parsed : ParsedRecord) :
    Except Error Bytes :=
  let aad := aad context.manifestHash context.contextHash context.direction parsed.header.encoded
  let nonce := nonce context.traffic.iv parsed.header.sequence
  match aead.decrypt context.traffic.key nonce aad parsed.ciphertext parsed.tag with
  | .failed => .error .crypto
  | .rejected => .error .authenticationFailed
  | .plaintext plaintext =>
      if plaintext.length ≠ parsed.header.plaintextLen then .error .authenticationFailed
      else .ok plaintext

end G301.Inner
