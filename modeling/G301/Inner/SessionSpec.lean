import G301.Inner.Session

/-! # What one call can do to a session

`Session.step_cases` lists everything a call can do, once: nothing in a terminal state
(`terminal`), failure with erasure (`refused`), a sealed record (`sealed`), an opened one
(`opened`).  Every invariant of the inner layer is derived from these four cases; no later
proof unfolds an operation.

`Message` is what a record says, apart from its sequence number: type, channel and
plaintext.  `MaySeal` and `MayOpen` are the state checks of the two directions, `noteSealed`
and `noteOpened` the changes of flags and state. -/

namespace G301.Inner

open ByteString

/-- Type, channel and plaintext of a record. -/
structure Message where
  recordType : RecordType
  channel : Channel
  plaintext : Bytes
deriving DecidableEq, Repr

/-- What a seal call asks to be sealed. -/
def Call.message? : Call → Option Message
  | .sealCommit => some ⟨.commit, .guard, []⟩
  | .sealData c p => some ⟨.data, c.channel, p⟩
  | .sealRefreshRequired => some ⟨.refreshRequired, .guard, []⟩
  | .sealClose => some ⟨.close, .guard, []⟩
  | .openRecord _ => none
  | .abort => none

/-- What an opened record says. -/
def OpenedRecord.message : OpenedRecord → Message
  | .data c p => ⟨.data, c.channel, p⟩
  | .commit => ⟨.commit, .guard, []⟩
  | .refreshRequired => ⟨.refreshRequired, .guard, []⟩
  | .close => ⟨.close, .guard, []⟩

/-- The output of a call that fails with an error: no record and no plaintext. -/
def Call.refusal (error : Error) : Call → Output
  | .openRecord _ => .opened (.error error)
  | .abort => .none
  | _ => .record (.error error)

/-- Data records use the data channels, all others are empty and use Guard. -/
def Message.WellFormed (m : Message) : Prop :=
  (m.recordType = .data ∧ m.channel ≠ .guard) ∨
    (m.recordType ≠ .data ∧ m.channel = .guard ∧ m.plaintext = [])

theorem Call.wellFormed_of_message? {call : Call} {m : Message} (h : call.message? = some m) :
    m.WellFormed := by
  cases call <;> simp only [Call.message?, Option.some.injEq, reduceCtorEq] at h <;> subst h
  case sealData c p => exact .inl ⟨rfl, c.channel_ne_guard⟩
  all_goals exact .inr ⟨by simp, rfl, rfl⟩

theorem OpenedRecord.wellFormed_message (o : OpenedRecord) : o.message.WellFormed := by
  cases o with
  | data c p => exact .inl ⟨rfl, c.channel_ne_guard⟩
  | _ => exact .inr ⟨by simp [OpenedRecord.message], rfl, rfl⟩

theorem OpenedRecord.message_inj {o o' : OpenedRecord} (h : o.message = o'.message) : o = o' := by
  cases o <;> cases o' <;> simp [OpenedRecord.message] at h ⊢
  exact h

/-- Every well-formed message is what some opened record says. -/
theorem Message.WellFormed.exists_opened {m : Message} (h : m.WellFormed) :
    ∃ o : OpenedRecord, o.message = m := by
  obtain ⟨t, c, p⟩ := m
  rcases h with ⟨rfl, hc⟩ | ⟨ht, rfl, rfl⟩
  · cases c
    case guard => exact absurd rfl hc
    case menora => exact ⟨.data .menora p, rfl⟩
    case chanukkia => exact ⟨.data .chanukkia p, rfl⟩
    case jomKippur => exact ⟨.data .jomKippur p, rfl⟩
    case tzafah => exact ⟨.data .tzafah p, rfl⟩
  · cases t
    case data => exact absurd rfl ht
    case commit => exact ⟨.commit, rfl⟩
    case refreshRequired => exact ⟨.refreshRequired, rfl⟩
    case close => exact ⟨.close, rfl⟩

namespace Session

/-- The session is neither `Closed` nor `Failed`. -/
abbrev Live (session : Session) : Prop := session.state.terminal = false

/-- The state check of the seal operations. -/
def MaySeal (session : Session) : RecordType → Prop
  | .commit => session.state = .committing ∧ session.localCommitSent = false
  | .data | .refreshRequired => session.state = .active
  | .close => (session.state = .active ∨
      (session.state = .draining ∧ session.peerCloseReceived = true)) ∧
      session.localCloseSent = false

/-- The state check of `validateIncoming`. -/
def MayOpen (session : Session) : RecordType → Prop
  | .commit => session.state = .committing ∧ session.peerCommitReceived = false
  | .data | .refreshRequired => session.state = .active
  | .close => (session.state = .active ∨ session.state = .draining) ∧
      session.peerCloseReceived = false

/-- Flags and state after a sealed record, unless it reached a hard limit. -/
def noteSealed (session : Session) : RecordType → Session
  | .commit =>
      let session := { session with localCommitSent := true }
      if session.peerCommitReceived then { session with state := .active } else session
  | .close => { session with localCloseSent := true, state := .draining }.finishCloseIfComplete
  | .data | .refreshRequired => session

/-- Flags and state after an opened record. -/
def noteOpened (session : Session) : RecordType → Session
  | .commit =>
      let session := { session with peerCommitReceived := true }
      if session.localCommitSent then { session with state := .active } else session
  | .close => { session with peerCloseReceived := true, state := .draining }.finishCloseIfComplete
  | .data | .refreshRequired => session

/-- The counters of a channel and direction. -/
abbrev usageOn (session : Session) (d : Direction) (c : Channel) : Usage :=
  session.usage (materialIndex c d)

/-- The key of a channel and direction. -/
abbrev keyOn (session : Session) (d : Direction) (c : Channel) : Vector UInt8 keyLen :=
  (session.traffic (materialIndex c d)).key

/-- The associated data of the next record that says `m` in a direction. -/
def recordAad (session : Session) (d : Direction) (m : Message) : Bytes :=
  aad session.manifestHash session.contextHash d
    (encodeHeader m.recordType m.channel (session.usageOn d m.channel).nextSequence
      m.plaintext.length)

/-- The nonce of the next record on a channel and direction. -/
def recordNonce (session : Session) (d : Direction) (c : Channel) : Bytes :=
  nonce (session.traffic (materialIndex c d)).iv (session.usageOn d c).nextSequence

/-- The next record that says `m` in a direction. -/
def recordWire (session : Session) (d : Direction) (m : Message) (ciphertext : Bytes)
    (tag : Vector UInt8 tagLen) : Bytes :=
  wire m.recordType m.channel (session.usageOn d m.channel).nextSequence ciphertext tag

/-- The counters of one context after one more record that says `m`. -/
def counted (session : Session) (d : Direction) (m : Message) : Session :=
  session.setUsage (materialIndex m.channel d)
    ((session.usageOn d m.channel).add m.plaintext.length)

/-- The record that says `m` reaches a hard limit of its context. -/
def reachesLimit (session : Session) (d : Direction) (m : Message) : Bool :=
  ((session.usageOn d m.channel).add m.plaintext.length).hardLimitReached

/-- The session after it sealed a message. -/
def afterSealed (session : Session) (m : Message) : Session :=
  let d := session.role.sendDirection
  if session.reachesLimit d m then session.dead else (session.counted d m).noteSealed m.recordType

/-- The session after it opened a message. -/
def afterOpened (session : Session) (m : Message) : Session :=
  let d := session.role.receiveDirection
  ((session.counted d m).noteOpened m.recordType).terminateIfHardLimitReached
    (session.reachesLimit d m)

/-- What the counters allow: the record is within the hard limits and its plaintext within
the record size. -/
structure Fits (session : Session) (d : Direction) (m : Message) : Prop where
  permits : (session.usageOn d m.channel).permits m.plaintext.length = true
  length_le : m.plaintext.length ≤ maxPlaintext

/-- Everything one call can do: `step_cases` says that there is nothing else. -/
inductive StepCase (aead : Aead) (session : Session) (call : Call) (out : Output)
    (next : Session) : Prop
  | terminal (hstate : session.state.terminal = true) (hout : out = call.refusal .invalidState)
      (hnext : next = session)
  | refused (error : Error) (hlive : session.Live) (hout : out = call.refusal error)
      (hnext : next = session.dead)
  | sealed (m : Message) (ciphertext : Bytes) (tag : Vector UInt8 tagLen)
      (hcall : call.message? = some m) (hmay : session.MaySeal m.recordType)
      (hfits : session.Fits session.role.sendDirection m)
      (hencrypt : aead.encrypt (session.keyOn session.role.sendDirection m.channel)
        (session.recordNonce session.role.sendDirection m.channel)
        (session.recordAad session.role.sendDirection m) m.plaintext = some (ciphertext, tag))
      (hct : ciphertext.length = m.plaintext.length)
      (hout : out =
        .record (.ok (session.recordWire session.role.sendDirection m ciphertext tag)))
      (hnext : next = session.afterSealed m)
  | opened (o : OpenedRecord) (ciphertext : Bytes) (tag : Vector UInt8 tagLen)
      (hcall : call = .openRecord
        (session.recordWire session.role.receiveDirection o.message ciphertext tag))
      (hmay : session.MayOpen o.message.recordType)
      (hfits : session.Fits session.role.receiveDirection o.message)
      (hdecrypt : aead.decrypt (session.keyOn session.role.receiveDirection o.message.channel)
        (session.recordNonce session.role.receiveDirection o.message.channel)
        (session.recordAad session.role.receiveDirection o.message) ciphertext tag =
          .plaintext o.message.plaintext)
      (hct : ciphertext.length = o.message.plaintext.length)
      (hout : out = .opened (.ok o)) (hnext : next = session.afterOpened o.message)

/-! ### Failure and erasure -/

theorem fail_of_live {α : Type} {session : Session} (h : session.Live) (e : Error) :
    (session.fail e : Outcome α) = (.error e, session.dead) := by
  simp [fail, h]

theorem fail_of_terminal {α : Type} {session : Session} (h : session.state.terminal = true)
    (e : Error) : (session.fail e : Outcome α) = (.error e, session) := by
  simp [fail, h]

@[simp] theorem counted_state (session : Session) (d : Direction) (m : Message) :
    (session.counted d m).state = session.state := rfl

@[simp] theorem dead_state (session : Session) : session.dead.state = .failed := rfl

theorem live_of_state {session : Session} {st : SessionState} (h : session.state = st)
    (hst : st.terminal = false) : session.Live := by rw [Live, h, hst]

theorem Live.state_ne_failed {session : Session} (h : session.Live) : session.state ≠ .failed := by
  intro hf; rw [Live, hf] at h; cases h

theorem MaySeal.live {session : Session} {t : RecordType} (h : session.MaySeal t) :
    session.Live := by
  cases t
  case commit => exact live_of_state h.1 rfl
  case data => exact live_of_state h rfl
  case refreshRequired => exact live_of_state h rfl
  case close =>
      rcases h.1 with h | ⟨h, -⟩
      · exact live_of_state h rfl
      · exact live_of_state h rfl

theorem MayOpen.live {session : Session} {t : RecordType} (h : session.MayOpen t) :
    session.Live := by
  cases t
  case commit => exact live_of_state h.1 rfl
  case data => exact live_of_state h rfl
  case refreshRequired => exact live_of_state h rfl
  case close =>
      rcases h.1 with h | h
      · exact live_of_state h rfl
      · exact live_of_state h rfl

/-! ### Sealing -/

/-- The record layer under one context. -/
theorem seal_eq_ok {aead : Aead} {context : CryptoContext} {t : RecordType} {c : Channel} {s : ℕ}
    {p output : Bytes} (h : context.seal aead t c s p = .ok output) :
    p.length ≤ maxPlaintext ∧ ∃ ciphertext tag,
      aead.encrypt context.traffic.key (nonce context.traffic.iv s)
        (aad context.manifestHash context.contextHash context.direction
          (encodeHeader t c s p.length)) p = some (ciphertext, tag) ∧
      ciphertext.length = p.length ∧ output = wire t c s ciphertext tag := by
  unfold CryptoContext.seal at h
  split at h
  · cases h
  rename_i header hnew
  have hle := plaintextLen_le_of_new hnew
  rw [new_eq_ok hle] at hnew
  obtain rfl := Except.ok.inj hnew
  dsimp only at h
  split at h
  · cases h
  rename_i ciphertext tag henc
  split at h
  · cases h
  rename_i hct
  have hct : ciphertext.length = p.length := by simpa using hct
  refine ⟨hle, ciphertext, tag, henc, hct, ?_⟩
  rw [wire, hct]
  exact (Except.ok.inj h).symm

section cases
variable {aead : Aead} {session : Session}

/-- A seal of a live session fails and erases it, or seals and counts the record. -/
theorem sealRaw_cases (aead : Aead) (hlive : session.Live) (m : Message) :
    (∃ e, session.sealRaw aead m.recordType m.channel m.plaintext = (.error e, session.dead)) ∨
    ∃ ciphertext tag, session.Fits session.role.sendDirection m ∧
      aead.encrypt (session.keyOn session.role.sendDirection m.channel)
        (session.recordNonce session.role.sendDirection m.channel)
        (session.recordAad session.role.sendDirection m) m.plaintext = some (ciphertext, tag) ∧
      ciphertext.length = m.plaintext.length ∧
      session.sealRaw aead m.recordType m.channel m.plaintext =
        (.ok (session.recordWire session.role.sendDirection m ciphertext tag),
          if session.reachesLimit session.role.sendDirection m then session.dead
          else session.counted session.role.sendDirection m) := by
  unfold sealRaw
  dsimp only
  split
  · exact .inl ⟨_, fail_of_live hlive _⟩
  rename_i hpermits
  have hpermits : (session.usageOn session.role.sendDirection m.channel).permits
      m.plaintext.length = true := by simpa using hpermits
  split
  · exact .inl ⟨_, fail_of_live hlive _⟩
  rename_i output hseal
  obtain ⟨hle, ciphertext, tag, henc, hct, rfl⟩ := seal_eq_ok hseal
  refine .inr ⟨ciphertext, tag, ⟨hpermits, hle⟩, henc, hct, ?_⟩
  have hstate : (session.counted session.role.sendDirection m).state.terminal = false := hlive
  rw [Usage.consume_of_permits hpermits]
  show (_, (session.counted session.role.sendDirection m).terminateIfHardLimitReached
    (session.reachesLimit session.role.sendDirection m)) = _
  simp only [terminateIfHardLimitReached, hstate, Bool.not_false, Bool.and_true]
  rfl

theorem afterSealed_of_limit {m : Message}
    (h : session.reachesLimit session.role.sendDirection m = true) :
    session.afterSealed m = session.dead := by
  simp [afterSealed, h]

theorem afterSealed_of_not_limit {m : Message}
    (h : session.reachesLimit session.role.sendDirection m = false) :
    session.afterSealed m =
      (session.counted session.role.sendDirection m).noteSealed m.recordType := by
  simp [afterSealed, h]

theorem step_sealCommit :
    session.StepCase aead .sealCommit (.record (session.sealCommit aead).1)
      (session.sealCommit aead).2 := by
  by_cases hterm : session.state.terminal = true
  · have hne : session.state ≠ .committing := by intro h; rw [h] at hterm; cases hterm
    simp only [sealCommit, ne_eq, hne, not_false_eq_true, decide_true, Bool.true_or, if_true,
      fail_of_terminal hterm]
    exact .terminal hterm rfl rfl
  have hlive : session.Live := by simpa using hterm
  unfold sealCommit
  split
  · rw [fail_of_live hlive]; exact .refused _ hlive rfl rfl
  rename_i hmay
  have hmay : session.MaySeal .commit := by simpa [MaySeal] using hmay
  rcases sealRaw_cases aead hlive ⟨.commit, .guard, []⟩ with
    ⟨e, hraw⟩ | ⟨ciphertext, tag, hfits, henc, hct, hraw⟩
  · dsimp only at hraw
    rw [hraw]; exact .refused _ hlive rfl rfl
  · have hcase : session.StepCase aead .sealCommit _ _ :=
      .sealed _ ciphertext tag rfl hmay hfits henc hct rfl rfl
    dsimp only at hraw
    rw [hraw]
    cases hlim : session.reachesLimit session.role.sendDirection ⟨.commit, .guard, []⟩
    · rw [afterSealed_of_not_limit hlim] at hcase
      simp only [Bool.false_eq_true, if_false, counted_state, ne_eq, hlive.state_ne_failed,
        not_false_eq_true, if_true]
      exact hcase
    · rw [afterSealed_of_limit hlim] at hcase
      simpa using hcase

theorem step_sealData (c : DataChannel) (p : Bytes) :
    session.StepCase aead (.sealData c p) (.record (session.sealData aead c p).1)
      (session.sealData aead c p).2 := by
  by_cases hterm : session.state.terminal = true
  · have hne : session.state ≠ .active := by intro h; rw [h] at hterm; cases hterm
    simp only [sealData, ne_eq, hne, not_false_eq_true, if_true, fail_of_terminal hterm]
    exact .terminal hterm rfl rfl
  have hlive : session.Live := by simpa using hterm
  unfold sealData
  split
  · rw [fail_of_live hlive]; exact .refused _ hlive rfl rfl
  rename_i hmay
  split
  · rw [fail_of_live hlive]; exact .refused _ hlive rfl rfl
  have hmay : session.MaySeal .data := by simpa [MaySeal] using hmay
  rcases sealRaw_cases aead hlive ⟨.data, c.channel, p⟩ with
    ⟨e, hraw⟩ | ⟨ciphertext, tag, hfits, henc, hct, hraw⟩
  · dsimp only at hraw
    rw [hraw]; exact .refused _ hlive rfl rfl
  · dsimp only at hraw
    rw [hraw]
    exact .sealed _ ciphertext tag rfl hmay hfits henc hct rfl rfl

theorem step_sealRefreshRequired :
    session.StepCase aead .sealRefreshRequired (.record (session.sealRefreshRequired aead).1)
      (session.sealRefreshRequired aead).2 := by
  by_cases hterm : session.state.terminal = true
  · have hne : session.state ≠ .active := by intro h; rw [h] at hterm; cases hterm
    simp only [sealRefreshRequired, ne_eq, hne, not_false_eq_true, if_true,
      fail_of_terminal hterm]
    exact .terminal hterm rfl rfl
  have hlive : session.Live := by simpa using hterm
  unfold sealRefreshRequired
  split
  · rw [fail_of_live hlive]; exact .refused _ hlive rfl rfl
  rename_i hmay
  have hmay : session.MaySeal .refreshRequired := by simpa [MaySeal] using hmay
  rcases sealRaw_cases aead hlive ⟨.refreshRequired, .guard, []⟩ with
    ⟨e, hraw⟩ | ⟨ciphertext, tag, hfits, henc, hct, hraw⟩
  · dsimp only at hraw
    rw [hraw]; exact .refused _ hlive rfl rfl
  · dsimp only at hraw
    rw [hraw]
    exact .sealed _ ciphertext tag rfl hmay hfits henc hct rfl rfl

theorem step_sealClose :
    session.StepCase aead .sealClose (.record (session.sealClose aead).1)
      (session.sealClose aead).2 := by
  by_cases hterm : session.state.terminal = true
  · have hne : session.state ≠ .active := by intro h; rw [h] at hterm; cases hterm
    have hne' : session.state ≠ .draining := by intro h; rw [h] at hterm; cases hterm
    simp only [sealClose, hne, hne', decide_false, Bool.false_and, Bool.or_self, Bool.not_false,
      Bool.true_or, if_true, fail_of_terminal hterm]
    exact .terminal hterm rfl rfl
  have hlive : session.Live := by simpa using hterm
  unfold sealClose
  dsimp only
  split
  · rw [fail_of_live hlive]; exact .refused _ hlive rfl rfl
  rename_i hmay
  have hmay : session.MaySeal .close := by
    simpa [MaySeal, or_iff_not_imp_left] using hmay
  rcases sealRaw_cases aead hlive ⟨.close, .guard, []⟩ with
    ⟨e, hraw⟩ | ⟨ciphertext, tag, hfits, henc, hct, hraw⟩
  · dsimp only at hraw
    rw [hraw]; exact .refused _ hlive rfl rfl
  · have hcase : session.StepCase aead .sealClose _ _ :=
      .sealed _ ciphertext tag rfl hmay hfits henc hct rfl rfl
    dsimp only at hraw
    rw [hraw]
    cases hlim : session.reachesLimit session.role.sendDirection ⟨.close, .guard, []⟩
    · rw [afterSealed_of_not_limit hlim] at hcase
      simp only [Bool.false_eq_true, if_false, counted_state, ne_eq, hlive.state_ne_failed,
        not_false_eq_true, if_true]
      exact hcase
    · rw [afterSealed_of_limit hlim] at hcase
      simpa using hcase

/-! ### Opening -/

theorem guards_eq_ok {a b : Bool} {e e' : Error} {u : Unit}
    (h : (if !a then .error e else if !b then .error e' else .ok () : Except Error Unit) = .ok u) :
    a = true ∧ b = true := by
  cases a <;> cases b <;> simp at h ⊢

/-- A record that passes `validateIncoming` is well formed and allowed by the state. -/
theorem validateIncoming_eq_ok {header : Header} {u : Unit}
    (h : session.validateIncoming header = .ok u) :
    session.MayOpen header.recordType ∧
      ((header.recordType = .data ∧ header.channel ≠ .guard) ∨
        (header.recordType ≠ .data ∧ header.channel = .guard ∧ header.plaintextLen = 0)) := by
  obtain ⟨t, c, s, n, e⟩ := header
  obtain ⟨hsem, hst⟩ := guards_eq_ok h
  cases t with
  | data =>
      have hc : c ≠ .guard := by simpa [← Channel.isGuard_iff] using hsem
      exact ⟨by simpa [MayOpen] using hst, .inl ⟨rfl, hc⟩⟩
  | commit =>
      have hc : c = .guard ∧ n = 0 := by simpa using hsem
      exact ⟨by simpa [MayOpen] using hst, .inr ⟨by simp, hc⟩⟩
  | refreshRequired =>
      have hc : c = .guard ∧ n = 0 := by simpa using hsem
      exact ⟨by simpa [MayOpen] using hst, .inr ⟨by simp, hc⟩⟩
  | close =>
      have hc : c = .guard ∧ n = 0 := by simpa using hsem
      exact ⟨by simpa [MayOpen] using hst, .inr ⟨by simp, hc⟩⟩

theorem open_eq_ok {context : CryptoContext} {parsed : ParsedRecord} {p : Bytes}
    (h : context.open aead parsed = .ok p) :
    aead.decrypt context.traffic.key (nonce context.traffic.iv parsed.header.sequence)
      (aad context.manifestHash context.contextHash context.direction parsed.header.encoded)
      parsed.ciphertext parsed.tag = .plaintext p ∧ p.length = parsed.header.plaintextLen := by
  unfold CryptoContext.open at h
  dsimp only at h
  split at h
  · cases h
  · cases h
  rename_i q hq
  split at h
  · cases h
  rename_i hlen
  obtain rfl := Except.ok.inj h
  exact ⟨hq, by simpa using hlen⟩

/-- An opened record, once authenticated, has the effect its message says. -/
theorem applyOpened_eq {header : Header} {o : OpenedRecord} {p : Bytes}
    (ho : o.message = ⟨header.recordType, header.channel, p⟩) (s : Session) :
    s.applyOpened header p = (.ok o, s.noteOpened header.recordType) := by
  obtain ⟨t, c, n, k, e⟩ := header
  cases o <;> simp only [OpenedRecord.message, Message.mk.injEq] at ho <;>
    obtain ⟨rfl, rfl, rfl⟩ := ho
  case data c => simp only [applyOpened, DataChannel.fromChannel_channel, noteOpened]
  all_goals rfl

theorem step_openRecord (input : Bytes) :
    session.StepCase aead (.openRecord input) (.opened (session.openRecord aead input).1)
      (session.openRecord aead input).2 := by
  by_cases hterm : session.state.terminal = true
  · simp only [openRecord, hterm, if_true]
    exact .terminal hterm rfl rfl
  have hlive : session.Live := by simpa using hterm
  unfold openRecord
  rw [if_neg hterm]
  split
  · rw [fail_of_live hlive]; exact .refused _ hlive rfl rfl
  rename_i parsed hparse
  split
  · rw [fail_of_live hlive]; exact .refused _ hlive rfl rfl
  rename_i hval
  dsimp only
  split
  · rw [fail_of_live hlive]; exact .refused _ hlive rfl rfl
  rename_i hseq
  split
  · rw [fail_of_live hlive]; exact .refused _ hlive rfl rfl
  rename_i hpermits
  split
  · rw [fail_of_live hlive]; exact .refused _ hlive rfl rfl
  rename_i plaintext hopen
  -- the record is authentic: what it says is well formed, so an `OpenedRecord` says it
  obtain ⟨hcan, hct, hinput⟩ := parse_eq_ok hparse
  obtain ⟨hmay, hsem⟩ := validateIncoming_eq_ok hval
  obtain ⟨hdec, hlen⟩ := open_eq_ok hopen
  have hwf : (⟨parsed.header.recordType, parsed.header.channel, plaintext⟩ : Message).WellFormed := by
    rcases hsem with h | ⟨ht, hc, hn⟩
    · exact .inl h
    · exact .inr ⟨ht, hc, List.length_eq_zero_iff.mp (hlen.trans hn)⟩
  obtain ⟨o, ho⟩ := hwf.exists_opened
  have ht : o.message.recordType = parsed.header.recordType := by rw [ho]
  have hc : o.message.channel = parsed.header.channel := by rw [ho]
  have hp : o.message.plaintext = plaintext := by rw [ho]
  have hseq : parsed.header.sequence =
      (session.usageOn session.role.receiveDirection o.message.channel).nextSequence := by
    rw [hc]; simpa using hseq
  have hpermits : (session.usageOn session.role.receiveDirection o.message.channel).permits
      o.message.plaintext.length = true := by
    rw [hc, hp, hlen]; simpa using hpermits
  have hfits : session.Fits session.role.receiveDirection o.message :=
    ⟨hpermits, by rw [hp, hlen]; exact hcan.plaintextLen_le⟩
  have hdecrypt : aead.decrypt (session.keyOn session.role.receiveDirection o.message.channel)
      (session.recordNonce session.role.receiveDirection o.message.channel)
      (session.recordAad session.role.receiveDirection o.message) parsed.ciphertext parsed.tag =
        .plaintext o.message.plaintext := by
    rw [hp, ← hdec, hcan.encoded_eq, hseq, hc]
    simp only [recordNonce, recordAad, context, ht, hc, hp, hlen]
  have hlenct : parsed.ciphertext.length = o.message.plaintext.length := by rw [hct, hp, hlen]
  have hwire : input = session.recordWire session.role.receiveDirection o.message
      parsed.ciphertext parsed.tag := by
    rw [recordWire, ← hseq, ht, hc]; exact hinput
  have hconsume : (session.usage (materialIndex parsed.header.channel
      session.role.receiveDirection)).consume parsed.header.plaintextLen =
      (.ok (session.reachesLimit session.role.receiveDirection o.message),
        (session.usageOn session.role.receiveDirection o.message.channel).add
          o.message.plaintext.length) := by
    rw [← hlen, ← hp, ← hc]; exact Usage.consume_of_permits hpermits
  rw [hconsume]
  dsimp only
  rw [applyOpened_eq ho]
  refine .opened o parsed.ciphertext parsed.tag (by rw [hwire]) (ht ▸ hmay) hfits hdecrypt hlenct
    rfl ?_
  simp only [afterOpened, counted, ht, hc]

/-- **One call.**  Every call is one of the four cases. -/
theorem step_cases (aead : Aead) (session : Session) (call : Call) :
    session.StepCase aead call (session.step aead call).1 (session.step aead call).2 := by
  cases call with
  | sealCommit => exact step_sealCommit
  | sealData c p => exact step_sealData c p
  | sealRefreshRequired => exact step_sealRefreshRequired
  | sealClose => exact step_sealClose
  | openRecord input => exact step_openRecord input
  | abort =>
      by_cases hterm : session.state.terminal = true
      · simp only [step, abort, hterm, if_true]
        exact .terminal hterm rfl rfl
      · simp only [step, abort, hterm]
        exact .refused .invalidState (by simpa using hterm) rfl rfl

/-! ### Calls that succeed -/

theorem sealRaw_eq {m : Message} {ciphertext : Bytes} {tag : Vector UInt8 tagLen}
    (hlive : session.Live) (hfits : session.Fits session.role.sendDirection m)
    (hencrypt : aead.encrypt (session.keyOn session.role.sendDirection m.channel)
      (session.recordNonce session.role.sendDirection m.channel)
      (session.recordAad session.role.sendDirection m) m.plaintext = some (ciphertext, tag))
    (hct : ciphertext.length = m.plaintext.length) :
    session.sealRaw aead m.recordType m.channel m.plaintext =
      (.ok (session.recordWire session.role.sendDirection m ciphertext tag),
        if session.reachesLimit session.role.sendDirection m then session.dead
        else session.counted session.role.sendDirection m) := by
  have hseal : (session.context m.channel session.role.sendDirection).seal aead m.recordType
      m.channel (session.usageOn session.role.sendDirection m.channel).nextSequence m.plaintext =
      .ok (session.recordWire session.role.sendDirection m ciphertext tag) := by
    have henc : aead.encrypt
        (session.context m.channel session.role.sendDirection).traffic.key _ _ _ = _ := hencrypt
    rw [CryptoContext.seal, new_eq_ok hfits.length_le]
    simp only [context, recordNonce, recordAad] at henc ⊢
    simp only [henc, ne_eq, hct, not_true_eq_false, if_false, recordWire, wire]
  unfold sealRaw
  dsimp only
  rw [hfits.permits, hseal, Usage.consume_of_permits hfits.permits]
  have hstate : (session.counted session.role.sendDirection m).state.terminal = false := hlive
  show (_, (session.counted session.role.sendDirection m).terminateIfHardLimitReached
    (session.reachesLimit session.role.sendDirection m)) = _
  simp only [terminateIfHardLimitReached, hstate, Bool.not_false, Bool.and_true]
  rfl

/-- A seal call that the state permits succeeds if the AEAD does. -/
theorem step_of_maySeal {call : Call} {m : Message} {ciphertext : Bytes}
    {tag : Vector UInt8 tagLen} (hcall : call.message? = some m)
    (hmay : session.MaySeal m.recordType) (hfits : session.Fits session.role.sendDirection m)
    (hencrypt : aead.encrypt (session.keyOn session.role.sendDirection m.channel)
      (session.recordNonce session.role.sendDirection m.channel)
      (session.recordAad session.role.sendDirection m) m.plaintext = some (ciphertext, tag))
    (hct : ciphertext.length = m.plaintext.length) :
    session.step aead call =
      (.record (.ok (session.recordWire session.role.sendDirection m ciphertext tag)),
        session.afterSealed m) := by
  have hlive := hmay.live
  have hraw := sealRaw_eq hlive hfits hencrypt hct
  have hle := hfits.length_le
  cases call <;> simp only [Call.message?, Option.some.injEq, reduceCtorEq] at hcall <;>
    subst hcall
  case sealCommit =>
      obtain ⟨hst, hsent⟩ : _ ∧ _ := hmay
      simp only [step, sealCommit, hst, hsent, ne_eq, not_true_eq_false, decide_false,
        Bool.or_self, Bool.false_eq_true, if_false] at hraw ⊢
      rw [hraw]
      cases hlim : session.reachesLimit session.role.sendDirection ⟨.commit, .guard, []⟩
      · rw [afterSealed_of_not_limit hlim]
        simp only [Bool.false_eq_true, if_false, counted_state, hlive.state_ne_failed,
          not_false_eq_true, if_true]
        rfl
      · rw [afterSealed_of_limit hlim]
        simp
  case sealData c p =>
      have hst : session.state = .active := hmay
      simp only [step, sealData, hst, ne_eq, not_true_eq_false, if_false, Nat.not_lt.mpr hle]
        at hraw ⊢
      rw [hraw]
      rfl
  case sealRefreshRequired =>
      have hst : session.state = .active := hmay
      simp only [step, sealRefreshRequired, hst, ne_eq, not_true_eq_false, if_false] at hraw ⊢
      rw [hraw]
      rfl
  case sealClose =>
      obtain ⟨hst, hsent⟩ : _ ∧ _ := hmay
      have hallowed : (decide (session.state = .active) ||
          (decide (session.state = .draining) && session.peerCloseReceived)) = true := by
        simpa using hst
      simp only [step, sealClose, hallowed, hsent, Bool.not_true, Bool.or_self, Bool.false_eq_true,
        if_false] at hraw ⊢
      rw [hraw]
      cases hlim : session.reachesLimit session.role.sendDirection ⟨.close, .guard, []⟩
      · rw [afterSealed_of_not_limit hlim]
        simp only [Bool.false_eq_true, if_false, counted_state, ne_eq, hlive.state_ne_failed,
          not_false_eq_true, if_true]
        rfl
      · rw [afterSealed_of_limit hlim]
        simp

theorem validateIncoming_of_mayOpen {header : Header} (hmay : session.MayOpen header.recordType)
    (hwf : (header.recordType = .data ∧ header.channel ≠ .guard) ∨
      (header.recordType ≠ .data ∧ header.channel = .guard ∧ header.plaintextLen = 0)) :
    session.validateIncoming header = .ok () := by
  obtain ⟨t, c, s, n, e⟩ := header
  cases t with
  | data =>
      have hst : session.state = .active := hmay
      have hc : c.isGuard = false := by simpa [← Channel.isGuard_iff] using hwf
      simp [validateIncoming, hst, hc]
  | refreshRequired =>
      have hst : session.state = .active := hmay
      simp only [reduceCtorEq, false_and, ne_eq, not_false_eq_true, true_and, false_or] at hwf
      simp [validateIncoming, hst, hwf]
  | commit =>
      obtain ⟨hst, hrec⟩ : _ ∧ _ := hmay
      simp only [reduceCtorEq, false_and, ne_eq, not_false_eq_true, true_and, false_or] at hwf
      simp [validateIncoming, hst, hrec, hwf]
  | close =>
      obtain ⟨hst, hrec⟩ : _ ∧ _ := hmay
      simp only [reduceCtorEq, false_and, ne_eq, not_false_eq_true, true_and, false_or] at hwf
      rcases hst with hst | hst <;> simp [validateIncoming, hst, hrec, hwf]

/-- A record in sequence that the state permits is opened if it authenticates. -/
theorem openRecord_recordWire {o : OpenedRecord} {ciphertext : Bytes} {tag : Vector UInt8 tagLen}
    (hmay : session.MayOpen o.message.recordType)
    (hfits : session.Fits session.role.receiveDirection o.message)
    (hdecrypt : aead.decrypt (session.keyOn session.role.receiveDirection o.message.channel)
      (session.recordNonce session.role.receiveDirection o.message.channel)
      (session.recordAad session.role.receiveDirection o.message) ciphertext tag =
        .plaintext o.message.plaintext)
    (hct : ciphertext.length = o.message.plaintext.length) :
    session.step aead (.openRecord
        (session.recordWire session.role.receiveDirection o.message ciphertext tag)) =
      (.opened (.ok o), session.afterOpened o.message) := by
  have hlive : ¬ session.state.terminal = true := by simpa using hmay.live
  have hparse := parse_wire o.message.recordType o.message.channel tag
    (Usage.nextSequence_lt_of_permits hfits.permits) (hct ▸ hfits.length_le)
  have hvalid : session.validateIncoming ⟨o.message.recordType, o.message.channel,
      (session.usageOn session.role.receiveDirection o.message.channel).nextSequence,
      ciphertext.length, encodeHeader o.message.recordType o.message.channel
        (session.usageOn session.role.receiveDirection o.message.channel).nextSequence
        ciphertext.length⟩ = .ok () := by
    refine validateIncoming_of_mayOpen hmay ?_
    rcases o.wellFormed_message with h | ⟨ht, hc, hp⟩
    · exact .inl h
    · exact .inr ⟨ht, hc, by rw [hct, hp]; rfl⟩
  have hopen : (session.context o.message.channel session.role.receiveDirection).open aead
      ⟨⟨o.message.recordType, o.message.channel,
        (session.usageOn session.role.receiveDirection o.message.channel).nextSequence,
        ciphertext.length, encodeHeader o.message.recordType o.message.channel
          (session.usageOn session.role.receiveDirection o.message.channel).nextSequence
          ciphertext.length⟩, ciphertext, tag⟩ = .ok o.message.plaintext := by
    simp only [recordNonce, recordAad, ← hct] at hdecrypt
    simp only [CryptoContext.open, context, hdecrypt, ← hct, ne_eq, not_true_eq_false, if_false]
  rw [hct] at hparse hvalid hopen
  simp only [step, openRecord, if_neg hlive, recordWire, hparse, hvalid, hopen, ne_eq,
    not_true_eq_false, if_false, hfits.permits, Bool.not_true, Bool.false_eq_true,
    Usage.consume_of_permits hfits.permits]
  rw [applyOpened_eq rfl]
  rfl

end cases

end Session

end G301.Inner
