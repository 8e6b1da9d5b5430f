import G301.Inner.Record

/-! # The wire format is canonical

`parse_canonical`: the parser accepts exactly the encodings of records, reads each back as it
was encoded, rejects every other string with `InvalidRecord` and never leaves its input.

The parser of `Record` cuts its input with `take` and `drop`, which have no bounds.
`decodeChecked` and `parseChecked` are decoder and parser with every slice checked;
`decodeChecked_eq` and `parseChecked_eq` say that no check of theirs ever fails. -/

namespace G301.Inner

open ByteString Header

/-! ### The parser with its slices checked -/

theorem decodeChecked_eq (encoded : Vector UInt8 headerLen) :
    decodeChecked encoded = some (decode encoded) := by
  have hslice {start stop : ℕ} (hstart : start ≤ stop) (hstop : stop ≤ 16) :
      slice? encoded.toList start stop = some (slice encoded start stop) :=
    slice?_of_le hstart (by simpa using hstop)
  unfold decodeChecked decode
  rw [hslice (by decide) (by decide), hslice (by decide) (by decide),
    hslice (by decide) (by decide)]
  split
  · rfl
  cases RecordType.fromByte encoded[1] with
  | none => rfl
  | some recordType =>
      simp only [Option.bind_some]
      cases Channel.fromId (beNat (slice encoded 2 4)) with
      | none => rfl
      | some channel =>
          dsimp only
          split <;> rfl

/-- `parse` with every slice checked. -/
def parseChecked (input : Bytes) : Option (Except Error ParsedRecord) :=
  if input.length < headerLen + tagLen then some (.error .invalidRecord)
  else
    (slice? input 0 headerLen).bind fun head =>
      match toArray? headerLen head with
      | none => some (.error .invalidRecord)
      | some encoded =>
          (decodeChecked encoded).bind fun
            | .error e => some (.error e)
            | .ok header =>
                match header.expectedWireLen with
                | .error e => some (.error e)
                | .ok expectedLen =>
                    if input.length ≠ expectedLen then some (.error .invalidRecord)
                    else
                      (slice? input headerLen (headerLen + header.plaintextLen)).bind
                        fun ciphertext =>
                          (slice? input (headerLen + header.plaintextLen) input.length).bind
                            fun rest =>
                              match toArray? tagLen rest with
                              | none => some (.error .invalidRecord)
                              | some tag => some (.ok ⟨header, ciphertext, tag⟩)

/-- No slice of the parser is out of range. -/
theorem parseChecked_eq (input : Bytes) : parseChecked input = some (parse input) := by
  unfold parseChecked parse
  split
  · rfl
  rename_i hshort
  have hhead : slice? input 0 headerLen = some (input.take headerLen) :=
    slice?_of_le (Nat.zero_le _) (by omega)
  rw [hhead, Option.bind_some]
  cases toArray? headerLen (input.take headerLen) with
  | none => rfl
  | some encoded =>
  simp only [decodeChecked_eq, Option.bind_some]
  cases hdecode : decode encoded with
  | error e => rfl
  | ok header =>
      have hlimit := (decode_eq_ok hdecode).2.plaintextLen_le
      simp only [expectedWireLen_eq hlimit]
      split
      · rfl
      rename_i hlen
      have hlen : input.length = headerLen + header.plaintextLen + tagLen := not_not.mp hlen
      have hciphertext : slice? input headerLen (headerLen + header.plaintextLen) =
          some ((input.drop headerLen).take header.plaintextLen) := by
        rw [slice?_of_le (by omega) (by omega), Nat.add_sub_cancel_left]
      have hrest : slice? input (headerLen + header.plaintextLen) input.length =
          some (input.drop (headerLen + header.plaintextLen)) := by
        rw [slice?_of_le (by omega) le_rfl, ← List.length_drop, List.take_length]
      rw [hciphertext, hrest]
      simp only [Option.bind_some]
      cases toArray? tagLen (input.drop (headerLen + header.plaintextLen)) <;> rfl

/-! ### Acceptance -/

/-- The encodings of records: a header that `Header.new` builds, a ciphertext of the length it
announces and a tag. -/
def IsRecord (input : Bytes) : Prop :=
  ∃ (recordType : RecordType) (channel : Channel) (sequence : ℕ) (ciphertext : Bytes)
    (tag : Vector UInt8 tagLen) (header : Header), sequence < 2 ^ 64 ∧
      Header.new recordType channel sequence ciphertext.length = .ok header ∧
      input = header.encoded.toList ++ ciphertext ++ tag.toList

/-- A canonical header is the one its fields build. -/
theorem Header.Canonical.new_eq {header : Header} (h : header.Canonical) :
    Header.new header.recordType header.channel header.sequence header.plaintextLen =
      .ok header := by
  rw [new_eq_ok h.plaintextLen_le, ← h.encoded_eq]

/-- Every error of the parser is `InvalidRecord`. -/
theorem parse_eq_error {input : Bytes} {e : Error} (h : parse input = .error e) :
    e = .invalidRecord := by
  have hdecode {encoded : Vector UInt8 headerLen} {e : Error}
      (h : decode encoded = .error e) : e = .invalidRecord := by
    unfold decode at h
    split at h
    · exact (Except.error.inj h).symm
    split at h
    · exact (Except.error.inj h).symm
    split at h
    · exact (Except.error.inj h).symm
    dsimp only at h
    split at h
    · exact (Except.error.inj h).symm
    · cases h
  unfold parse at h
  split at h
  · exact (Except.error.inj h).symm
  split at h
  · exact (Except.error.inj h).symm
  split at h
  · rename_i hfailed
    rw [← Except.error.inj h]
    exact hdecode hfailed
  rename_i header hheader
  rw [expectedWireLen_eq (decode_eq_ok hheader).2.plaintextLen_le] at h
  dsimp only at h
  split at h
  · exact (Except.error.inj h).symm
  split at h
  · exact (Except.error.inj h).symm
  · cases h

/-- **Canonical encoding.**  Every record is read back as it was encoded; what the parser
accepts is the encoding of what it returns; it accepts nothing else, rejects the rest with
`InvalidRecord` and never indexes out of range. -/
theorem parse_canonical :
    (∀ (recordType : RecordType) (channel : Channel) (sequence : ℕ) (ciphertext : Bytes)
        (tag : Vector UInt8 tagLen), sequence < 2 ^ 64 → ciphertext.length ≤ maxPlaintext →
      ∃ header : Header,
        Header.new recordType channel sequence ciphertext.length = .ok header ∧
        parse (header.encoded.toList ++ ciphertext ++ tag.toList) =
          .ok ⟨header, ciphertext, tag⟩ ∧
        header.recordType = recordType ∧ header.channel = channel ∧
        header.sequence = sequence ∧ header.plaintextLen = ciphertext.length) ∧
    (∀ (input : Bytes) (parsed : ParsedRecord), parse input = .ok parsed →
      parsed.header.sequence < 2 ^ 64 ∧
      parsed.ciphertext.length = parsed.header.plaintextLen ∧
      Header.new parsed.header.recordType parsed.header.channel parsed.header.sequence
        parsed.header.plaintextLen = .ok parsed.header ∧
      input = parsed.header.encoded.toList ++ parsed.ciphertext ++ parsed.tag.toList) ∧
    (∀ input : Bytes, (∃ parsed, parse input = .ok parsed) ↔ IsRecord input) ∧
    (∀ input : Bytes, ¬ IsRecord input → parse input = .error .invalidRecord) ∧
    ∀ input : Bytes, parseChecked input = some (parse input) := by
  have hread (recordType : RecordType) (channel : Channel) (sequence : ℕ) (ciphertext : Bytes)
      (tag : Vector UInt8 tagLen) (hs : sequence < 2 ^ 64)
      (hn : ciphertext.length ≤ maxPlaintext) :
      parse ((encodeHeader recordType channel sequence ciphertext.length).toList ++ ciphertext ++
        tag.toList) = .ok ⟨⟨recordType, channel, sequence, ciphertext.length,
          encodeHeader recordType channel sequence ciphertext.length⟩, ciphertext, tag⟩ :=
    parse_wire recordType channel tag (by simpa using hs) hn
  have hback (input : Bytes) (parsed : ParsedRecord) (h : parse input = .ok parsed) :
      parsed.header.sequence < 2 ^ 64 ∧
      parsed.ciphertext.length = parsed.header.plaintextLen ∧
      Header.new parsed.header.recordType parsed.header.channel parsed.header.sequence
        parsed.header.plaintextLen = .ok parsed.header ∧
      input = parsed.header.encoded.toList ++ parsed.ciphertext ++ parsed.tag.toList := by
    obtain ⟨hcanonical, hlen, hinput⟩ := parse_eq_ok h
    refine ⟨by simpa using hcanonical.sequence_lt, hlen, hcanonical.new_eq, ?_⟩
    rw [hinput, wire, hlen, ← hcanonical.encoded_eq]
  have haccepts (input : Bytes) : (∃ parsed, parse input = .ok parsed) ↔ IsRecord input := by
    constructor
    · rintro ⟨parsed, hparse⟩
      obtain ⟨hs, hlen, hnew, hinput⟩ := hback input parsed hparse
      exact ⟨_, _, _, parsed.ciphertext, parsed.tag, parsed.header, hs, by rw [hlen, hnew],
        hinput⟩
    · rintro ⟨t, c, s, ciphertext, tag, header, hs, hnew, rfl⟩
      have hn := plaintextLen_le_of_new hnew
      rw [new_eq_ok hn] at hnew
      obtain rfl := Except.ok.inj hnew
      exact ⟨_, hread t c s ciphertext tag hs hn⟩
  refine ⟨fun t c s ciphertext tag hs hn => ?_, hback, haccepts, fun input hnot => ?_,
    parseChecked_eq⟩
  · exact ⟨_, new_eq_ok hn, hread t c s ciphertext tag hs hn, rfl, rfl, rfl, rfl⟩
  · cases hparse : parse input with
    | ok parsed => exact absurd ((haccepts input).mp ⟨parsed, hparse⟩) hnot
    | error e => rw [parse_eq_error hparse]

end G301.Inner
