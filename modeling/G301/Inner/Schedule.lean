import G301.Lib.Framing
import G301.Inner.Profile

/-! # What the key schedule hashes and expands

Each byte string of the key schedule opens with the length-prefixed suite.  `infoBytes`,
`contextHashBytes` and `saltBytes` are these strings for arguments whose lengths fit, and each
determines its arguments (`infoBytes_inj`, `contextHashBytes_inj`, `saltBytes_inj`).

Behind the manifest hash the input of the context hash goes on with the length of the
application context, that of the salt with the context hash.  `schedule_inputs` says when the
two are equal all the same: the context has 46 bytes and the context hash opens with that
length. -/

namespace G301.Inner

open ByteString

theorem appendLp8_eq (out : Bytes) {value : Bytes} (h : value.length ≤ 255) :
    appendLp8 out value = .ok (out ++ lengthPrefixed 1 value) := by
  unfold appendLp8
  rw [if_pos (by omega), lengthPrefixed, List.append_assoc]

theorem appendLp16_eq (out : Bytes) {value : Bytes} (h : value.length < 2 ^ 16) :
    appendLp16 out value = .ok (out ++ lengthPrefixed 2 value) := by
  unfold appendLp16 appendBe16
  rw [if_pos h, lengthPrefixed, ← List.append_assoc]
  rfl

theorem suite_length : suite.length = 24 := by decide

theorem appendLp16_suite : appendLp16 [] suite = .ok (lengthPrefixed 2 suite) := by
  rw [appendLp16_eq [] (by rw [suite_length]; decide), List.nil_append]

/-! ### Info strings -/

/-- The info string of `buildInfo`. -/
def infoBytes (purpose : Bytes) (manifestHash contextHash : Vector UInt8 hashLen)
    (channel : Channel) (direction : Direction) : Bytes :=
  lengthPrefixed 2 suite ++ lengthPrefixed 1 purpose ++ manifestHash.toList ++
    contextHash.toList ++ beBytes 2 channel.id ++ [channel.role, direction.toByte]

theorem buildInfo_eq {purpose : Bytes} (h : purpose.length ≤ 255)
    (m c : Vector UInt8 hashLen) (channel : Channel) (direction : Direction) :
    buildInfo purpose m c channel direction = .ok (infoBytes purpose m c channel direction) := by
  unfold buildInfo
  rw [appendLp16_suite]
  show (appendLp8 _ purpose >>= _) = _
  rw [appendLp8_eq _ h]
  rfl

/-- Field by field from the front, behind the suite. -/
theorem infoBytes_inj {p p' : Bytes} {m m' c c' : Vector UInt8 hashLen} {ch ch' : Channel}
    {d d' : Direction} (hp : p.length ≤ 255) (hp' : p'.length ≤ 255)
    (h : infoBytes p m c ch d = infoBytes p' m' c' ch' d') :
    p = p' ∧ m = m' ∧ c = c' ∧ ch = ch' ∧ d = d' := by
  unfold infoBytes at h
  simp only [List.append_assoc] at h
  have h := List.append_cancel_left h
  obtain ⟨hpurpose, h⟩ := lengthPrefixed_append_inj (by omega) (by omega) h
  obtain ⟨hm, h⟩ := toList_append_inj h
  obtain ⟨hc, h⟩ := toList_append_inj h
  obtain ⟨hid, h⟩ := beBytes_append_inj (Channel.id_lt ch) (Channel.id_lt ch') h
  simp only [List.cons.injEq, and_true] at h
  exact ⟨hpurpose, hm, hc, Channel.id_inj hid, Direction.toByte_inj h.2⟩

/-! ### Hash inputs -/

section hashInputs
variable {m m' c c' : Vector UInt8 hashLen} {context context' : Bytes}

/-- The bytes of `contextHashInput`. -/
def contextHashBytes (manifestHash : Vector UInt8 hashLen) (applicationContext : Bytes) : Bytes :=
  lengthPrefixed 2 suite ++ manifestHash.toList ++ lengthPrefixed 2 applicationContext

/-- The bytes of `saltInput`. -/
def saltBytes (manifestHash contextHash : Vector UInt8 hashLen) : Bytes :=
  lengthPrefixed 2 suite ++ manifestHash.toList ++ contextHash.toList

theorem contextHashInput_eq (m : Vector UInt8 hashLen) (h : context.length < 2 ^ 16) :
    contextHashInput m context = .ok (contextHashBytes m context) := by
  unfold contextHashInput
  rw [appendLp16_suite]
  exact appendLp16_eq _ h

theorem saltInput_eq (m c : Vector UInt8 hashLen) : saltInput m c = .ok (saltBytes m c) := by
  unfold saltInput
  rw [appendLp16_suite]
  rfl

/-- Suite and manifest hash have fixed widths. -/
theorem framed_inj {tail tail' : Bytes}
    (h : lengthPrefixed 2 suite ++ m.toList ++ tail = lengthPrefixed 2 suite ++ m'.toList ++ tail') :
    m = m' ∧ tail = tail' := by
  rw [List.append_assoc, List.append_assoc] at h
  exact toList_append_inj (List.append_cancel_left h)

theorem contextHashBytes_inj (h : context.length < 2 ^ 16) (h' : context'.length < 2 ^ 16)
    (heq : contextHashBytes m context = contextHashBytes m' context') :
    m = m' ∧ context = context' := by
  obtain ⟨hm, hcontext⟩ := framed_inj heq
  exact ⟨hm, lengthPrefixed_inj (by omega) (by omega) hcontext⟩

theorem saltBytes_inj (h : saltBytes m c = saltBytes m' c') : m = m' ∧ c = c' := by
  obtain ⟨hm, hc⟩ := framed_inj h
  exact ⟨hm, Vector.toList_inj.mp hc⟩

/-- The context hash is the length 46, in two bytes, and the application context. -/
def Frames (contextHash : Vector UInt8 hashLen) (applicationContext : Bytes) : Prop :=
  applicationContext.length = 46 ∧ contextHash.toList = 0x00 :: 0x2E :: applicationContext

/-- Only a context of 46 bytes leaves room for its length in the 48 bytes of a hash. -/
theorem lengthPrefixed_eq_toList_iff :
    lengthPrefixed 2 context = c.toList ↔ Frames c context := by
  constructor
  · intro h
    have hlen : context.length = 46 := by
      have hsize := congrArg List.length h
      rw [lengthPrefixed, List.length_append, beBytes_length, Vector.length_toList] at hsize
      unfold hashLen at hsize
      omega
    refine ⟨hlen, ?_⟩
    rw [← h, lengthPrefixed, hlen]
    rfl
  · rintro ⟨hlen, hc⟩
    rw [hc, lengthPrefixed, hlen]
    rfl

theorem contextHashBytes_eq_saltBytes_iff :
    contextHashBytes m context = saltBytes m' c ↔ m = m' ∧ Frames c context := by
  rw [← lengthPrefixed_eq_toList_iff]
  constructor
  · exact framed_inj
  · rintro ⟨rfl, hframes⟩
    rw [contextHashBytes, hframes, saltBytes]

end hashInputs

/-- Two different inputs of the hash function have the digest. -/
def OpenSsl.Collides (ssl : OpenSsl) (digest : Vector UInt8 hashLen) : Prop :=
  ∃ x y, x ≠ y ∧ ssl.sha384 x = some digest ∧ ssl.sha384 y = some digest

theorem sha384_eq_ok {ssl : OpenSsl} {input : Bytes} {digest : Vector UInt8 hashLen} :
    sha384 ssl input = .ok digest ↔ ssl.sha384 input = some digest := by
  unfold sha384
  cases ssl.sha384 input <;> simp

/-- The length 46 and 46 zero bytes. -/
def framingHash : Vector UInt8 hashLen := ⟨(0x00 :: 0x2E :: List.replicate 46 0).toArray, rfl⟩

/-- A context of 46 zero bytes, and a context hash that frames it. -/
theorem contextHashInput_meets_saltInput : ∃ input,
    contextHashInput (Vector.replicate hashLen 0) (List.replicate 46 0) = .ok input ∧
      saltInput (Vector.replicate hashLen 0) framingHash = .ok input := by
  refine ⟨_, contextHashInput_eq _ (by decide), ?_⟩
  rw [saltInput_eq]
  exact congrArg Except.ok (contextHashBytes_eq_saltBytes_iff.mpr ⟨rfl, rfl, rfl⟩).symm

/-- For application contexts of at most 255 bytes, the inputs of the context hash determine the
manifest hash and the context, those of the salt both hashes.  An input of the one is an input of
the other exactly for equal manifest hashes and a context hash that frames the context; in every
other case a context hash that is also a salt is a collision of the hash function. -/
theorem schedule_inputs {m m' c c' : Vector UInt8 hashLen} {context context' : Bytes}
    (h : context.length ≤ 255) (h' : context'.length ≤ 255) :
    (contextHashInput m context = contextHashInput m' context' → m = m' ∧ context = context') ∧
    (saltInput m c = saltInput m' c' → m = m' ∧ c = c') ∧
    (contextHashInput m context = saltInput m' c ↔ m = m' ∧ Frames c context) ∧
    ∀ ssl digest, buildContextHash ssl m context = .ok digest →
      buildSalt ssl m' c = .ok digest → ssl.Collides digest ∨ m = m' ∧ Frames c context := by
  have hcontext : contextHashInput m context = .ok (contextHashBytes m context) :=
    contextHashInput_eq m (by omega)
  have hcontext' : contextHashInput m' context' = .ok (contextHashBytes m' context') :=
    contextHashInput_eq m' (by omega)
  refine ⟨fun heq => ?_, fun heq => ?_, ?_, fun ssl digest hhash hsalt => ?_⟩
  · rw [hcontext, hcontext'] at heq
    exact contextHashBytes_inj (by omega) (by omega) (Except.ok.inj heq)
  · rw [saltInput_eq, saltInput_eq] at heq
    exact saltBytes_inj (Except.ok.inj heq)
  · rw [hcontext, saltInput_eq, Except.ok.injEq, contextHashBytes_eq_saltBytes_iff]
  · unfold buildContextHash at hhash
    unfold buildSalt at hsalt
    rw [hcontext] at hhash
    rw [saltInput_eq] at hsalt
    by_cases heq : contextHashBytes m context = saltBytes m' c
    · exact .inr (contextHashBytes_eq_saltBytes_iff.mp heq)
    · exact .inl ⟨_, _, heq, sha384_eq_ok.mp hhash, sha384_eq_ok.mp hsalt⟩

/-- The context of the whitepaper test is too short for any context hash to frame it. -/
theorem schedule_inputs_whitepaper :
    contextHashInput (Vector.replicate hashLen 0) (ascii "G301-WHITEPAPER-TEST") ≠
      saltInput (Vector.replicate hashLen 0) framingHash := by
  intro heq
  have hcontext : (ascii "G301-WHITEPAPER-TEST").length ≤ 255 := by decide
  obtain ⟨-, -, hmeets, -⟩ :=
    @schedule_inputs (Vector.replicate hashLen 0) _ framingHash framingHash _ _ hcontext hcontext
  exact absurd (hmeets.mp heq).2.1 (by decide)

end G301.Inner
