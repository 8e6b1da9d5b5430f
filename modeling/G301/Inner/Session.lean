import G301.Inner.Record

/-! # The inner session

One endpoint's session: protocol state, ten traffic contexts with their usage counters, and
the four commit and close flags.  Every operation takes `&mut self` in the source; here it
takes the session and returns its result with the session after it.

The AEAD is a parameter of each operation, so that a run may answer every call as it likes.
`Session.step` gathers the operations under one `Call` type. -/

namespace G301.Inner

open ByteString

/-! ### The public types -/

inductive EndpointRole where
  | client
  | server
deriving DecidableEq, Repr

namespace EndpointRole

def sendDirection : EndpointRole → Direction
  | client => .clientToServer
  | server => .serverToClient

def receiveDirection : EndpointRole → Direction
  | client => .serverToClient
  | server => .clientToServer

/-- The other endpoint. -/
def peer : EndpointRole → EndpointRole
  | client => server
  | server => client

@[simp] theorem peer_peer (e : EndpointRole) : e.peer.peer = e := by cases e <;> rfl

theorem peer_ne (e : EndpointRole) : e.peer ≠ e := by cases e <;> simp [peer]

theorem eq_or_eq_peer (e f : EndpointRole) : f = e ∨ f = e.peer := by
  cases e <;> cases f <;> simp [peer]

@[simp] theorem sendDirection_peer (e : EndpointRole) :
    e.peer.sendDirection = e.receiveDirection := by cases e <;> rfl

theorem receiveDirection_ne_sendDirection (e : EndpointRole) :
    e.receiveDirection ≠ e.sendDirection := by cases e <;> decide

theorem sendDirection_inj {e f : EndpointRole} (h : e.sendDirection = f.sendDirection) : e = f := by
  cases e <;> cases f <;> simp_all [sendDirection]

end EndpointRole

/-- The four application-data channels. -/
inductive DataChannel where
  | menora
  | chanukkia
  | jomKippur
  | tzafah
deriving DecidableEq, Repr

namespace DataChannel

def channel : DataChannel → Channel
  | menora => .menora
  | chanukkia => .chanukkia
  | jomKippur => .jomKippur
  | tzafah => .tzafah

def fromChannel : Channel → Option DataChannel
  | .menora => some menora
  | .chanukkia => some chanukkia
  | .jomKippur => some jomKippur
  | .tzafah => some tzafah
  | .guard => none

@[simp] theorem fromChannel_channel (c : DataChannel) : fromChannel c.channel = some c := by
  cases c <;> rfl

theorem channel_ne_guard (c : DataChannel) : c.channel ≠ .guard := by
  cases c <;> simp [channel]

theorem channel_inj {c d : DataChannel} (h : c.channel = d.channel) : c = d := by
  cases c <;> cases d <;> simp_all [channel]

@[simp] theorem channel_eq_iff {c d : DataChannel} : c.channel = d.channel ↔ c = d :=
  ⟨channel_inj, fun h => h ▸ rfl⟩

end DataChannel

inductive SessionState where
  | new
  | committing
  | active
  | draining
  | closed
  | failed
deriving DecidableEq, Repr

/-- `Closed` or `Failed`. -/
def SessionState.terminal : SessionState → Bool
  | closed | failed => true
  | _ => false

theorem SessionState.eq_of_terminal {state : SessionState} (h : state.terminal = true) :
    state = closed ∨ state = failed := by
  cases state <;> simp_all [terminal]

inductive OpenedRecord where
  | data (channel : DataChannel) (plaintext : Bytes)
  | commit
  | refreshRequired
  | close
deriving DecidableEq, Repr

/-! ### Usage accounting -/

abbrev softRecordLimit : ℕ := 2 ^ 21
abbrev hardRecordLimit : ℕ := 2 ^ 22
abbrev softByteLimit : ℕ := 2 ^ 35
abbrev hardByteLimit : ℕ := 2 ^ 36

structure Usage where
  nextSequence : ℕ
  records : ℕ
  plaintextBytes : ℕ
deriving DecidableEq, Repr

namespace Usage

/-- `Usage::default()`. -/
def default : Usage := ⟨0, 0, 0⟩

def permits (usage : Usage) (plaintextLen : ℕ) : Bool :=
  decide (usage.records < hardRecordLimit) && decide (usage.nextSequence < hardRecordLimit) &&
    (checkedAdd usage.plaintextBytes plaintextLen).any fun total => decide (total ≤ hardByteLimit)

def refreshDue (usage : Usage) : Bool :=
  decide (softRecordLimit ≤ usage.records) || decide (softByteLimit ≤ usage.plaintextBytes)

def hardLimitReached (usage : Usage) : Bool :=
  decide (hardRecordLimit ≤ usage.nextSequence) || decide (hardRecordLimit ≤ usage.records) ||
    decide (hardByteLimit ≤ usage.plaintextBytes)

/-- Counts one record; an error leaves the counters advanced so far. -/
def consume (usage : Usage) (plaintextLen : ℕ) : Except Error Bool × Usage :=
  match checkedAdd usage.nextSequence 1 with
  | none => (.error .limitReached, usage)
  | some nextSequence =>
      let usage := { usage with nextSequence }
      match checkedAdd usage.records 1 with
      | none => (.error .limitReached, usage)
      | some records =>
          let usage := { usage with records }
          match checkedAdd usage.plaintextBytes plaintextLen with
          | none => (.error .limitReached, usage)
          | some plaintextBytes =>
              let usage := { usage with plaintextBytes }
              (.ok usage.hardLimitReached, usage)

/-- The counters after one more record. -/
def add (usage : Usage) (plaintextLen : ℕ) : Usage :=
  ⟨usage.nextSequence + 1, usage.records + 1, usage.plaintextBytes + plaintextLen⟩

theorem permits_iff {usage : Usage} {n : ℕ} :
    usage.permits n = true ↔ usage.records < hardRecordLimit ∧
      usage.nextSequence < hardRecordLimit ∧ usage.plaintextBytes + n ≤ hardByteLimit := by
  by_cases h : usage.plaintextBytes + n < 2 ^ 64
  · simp [permits, checkedAdd_of_lt h, and_assoc]
  · have hlim : ¬ usage.plaintextBytes + n ≤ hardByteLimit := by
      simp only [hardByteLimit]; omega
    simp only [permits, checkedAdd, if_neg h, Option.any_none, Bool.and_false, hlim, and_false,
      Bool.false_eq_true]

/-- A permitted record is counted without an error. -/
theorem consume_of_permits {usage : Usage} {n : ℕ} (h : usage.permits n = true) :
    usage.consume n = (.ok (usage.add n).hardLimitReached, usage.add n) := by
  obtain ⟨hr, hs, hb⟩ := permits_iff.mp h
  have h1 : usage.nextSequence + 1 < 2 ^ 64 := by simp only [hardRecordLimit] at hs; omega
  have h2 : usage.records + 1 < 2 ^ 64 := by simp only [hardRecordLimit] at hr; omega
  have h3 : usage.plaintextBytes + n < 2 ^ 64 := by simp only [hardByteLimit] at hb; omega
  simp only [consume, checkedAdd_of_lt h1, checkedAdd_of_lt h2, checkedAdd_of_lt h3, add]

theorem hardLimitReached_iff {usage : Usage} :
    usage.hardLimitReached = true ↔ hardRecordLimit ≤ usage.nextSequence ∨
      hardRecordLimit ≤ usage.records ∨ hardByteLimit ≤ usage.plaintextBytes := by
  simp [hardLimitReached, or_assoc]

/-- A record that reaches no hard limit is permitted. -/
theorem permits_of_not_limit {usage : Usage} {n : ℕ}
    (h : (usage.add n).hardLimitReached = false) : usage.permits n = true := by
  have hlimit := hardLimitReached_iff.not.mp (Bool.eq_false_iff.mp h)
  apply permits_iff.mpr
  simp only [add, hardRecordLimit, hardByteLimit] at hlimit ⊢
  omega

theorem nextSequence_lt_of_permits {usage : Usage} {n : ℕ} (h : usage.permits n = true) :
    usage.nextSequence < 256 ^ 8 := by
  have hs := (permits_iff.mp h).2.1
  simp only [hardRecordLimit] at hs
  omega

end Usage

/-! ### The session -/

structure Session where
  role : EndpointRole
  state : SessionState
  manifestHash : Vector UInt8 hashLen
  contextHash : Vector UInt8 hashLen
  traffic : Fin materialCount → TrafficKey
  usage : Fin materialCount → Usage
  localCommitSent : Bool
  peerCommitReceived : Bool
  localCloseSent : Bool
  peerCloseReceived : Bool

/-- What a `&mut self` operation leaves: its result and the session after it. -/
abbrev Outcome (α : Type) := Except Error α × Session

namespace Session

/-- The session built from the key schedule's secrets. -/
def ofSecrets (role : EndpointRole) (secrets : DerivedSecrets) : Session where
  role := role
  state := .committing
  manifestHash := secrets.manifestHash
  contextHash := secrets.contextHash
  traffic := secrets.traffic
  usage := fun _ => Usage.default
  localCommitSent := false
  peerCommitReceived := false
  localCloseSent := false
  peerCloseReceived := false

/-- The process-wide AES-256-GCM cipher: key and IV length of what was fetched. -/
def aes256Gcm (fetched : Option (ℕ × ℕ)) : Except Error Unit :=
  if fetched = some (keyLen, ivLen) then .ok () else .error .crypto

def fromExporterEpochWithContext (ssl : OpenSsl) (fetched : Option (ℕ × ℕ)) (role : EndpointRole)
    (exporterMaterial : Vector UInt8 exporterMaterialLen) (context : CanonicalApplicationContext) :
    Except Error Session := do
  let secrets ← deriveSecretsWithContext ssl exporterMaterial context
  aes256Gcm fetched
  return ofSecrets role secrets

def fromExporterEpoch (ssl : OpenSsl) (fetched : Option (ℕ × ℕ)) (role : EndpointRole)
    (exporterMaterial : Vector UInt8 exporterMaterialLen) (applicationContext : Bytes) :
    Except Error Session := do
  let context ← CanonicalApplicationContext.fromBytes ssl applicationContext
  fromExporterEpochWithContext ssl fetched role exporterMaterial context

/-- A session is built from secrets that do not depend on its role. -/
theorem fromExporterEpoch_eq_ok {ssl : OpenSsl} {fetched : Option (ℕ × ℕ)} {role : EndpointRole}
    {exporterMaterial : Vector UInt8 exporterMaterialLen} {applicationContext : Bytes}
    {session : Session}
    (h : fromExporterEpoch ssl fetched role exporterMaterial applicationContext = .ok session) :
    ∃ context secrets,
      CanonicalApplicationContext.fromBytes ssl applicationContext = .ok context ∧
      deriveSecretsWithContext ssl exporterMaterial context = .ok secrets ∧
      session = ofSecrets role secrets := by
  unfold fromExporterEpoch at h
  cases hc : CanonicalApplicationContext.fromBytes ssl applicationContext with
  | error e => rw [hc] at h; cases h
  | ok context =>
      rw [hc] at h
      change fromExporterEpochWithContext ssl fetched role exporterMaterial context = _ at h
      unfold fromExporterEpochWithContext at h
      cases hd : deriveSecretsWithContext ssl exporterMaterial context with
      | error e => rw [hd] at h; cases h
      | ok secrets =>
          rw [hd] at h
          refine ⟨context, secrets, rfl, hd, ?_⟩
          cases hf : aes256Gcm fetched with
          | error e => rw [hf] at h; cases h
          | ok u => rw [hf] at h; exact (Except.ok.inj h).symm

/-- Reports whether any of the ten contexts reached a soft refresh limit. -/
def refreshDue (session : Session) : Bool :=
  (List.finRange materialCount).any fun i => (session.usage i).refreshDue

def erase (session : Session) : Session :=
  { session with traffic := fun _ => TrafficKey.zeroed, usage := fun _ => Usage.default }

/-- The erased session in state `Failed`. -/
def dead (session : Session) : Session := { session.erase with state := .failed }

def abort (session : Session) : Session :=
  if session.state.terminal then session else session.dead

def fail {α : Type} (session : Session) (error : Error) : Outcome α :=
  (.error error, if session.state.terminal then session else session.dead)

def terminateIfHardLimitReached (session : Session) (reached : Bool) : Session :=
  if reached && !session.state.terminal then session.dead else session

def finishCloseIfComplete (session : Session) : Session :=
  if session.localCloseSent && session.peerCloseReceived then
    { session.erase with state := .closed }
  else session

def setUsage (session : Session) (i : Fin materialCount) (usage : Usage) : Session :=
  { session with usage := Function.update session.usage i usage }

/-- The cryptographic context of a channel and direction. -/
def context (session : Session) (channel : Channel) (direction : Direction) : CryptoContext :=
  ⟨session.traffic (materialIndex channel direction), session.manifestHash, session.contextHash,
    direction⟩

def sealRaw (session : Session) (aead : Aead) (recordType : RecordType) (channel : Channel)
    (plaintext : Bytes) : Outcome Bytes :=
  let direction := session.role.sendDirection
  let index := materialIndex channel direction
  let usage := session.usage index
  if !usage.permits plaintext.length then session.fail .limitReached
  else
    match (session.context channel direction).seal aead recordType channel usage.nextSequence
      plaintext with
    | .error e => session.fail e
    | .ok output =>
        match usage.consume plaintext.length with
        | (.error _, usage) => (session.setUsage index usage).fail .limitReached
        | (.ok hardLimitReached, usage) =>
            (.ok output,
              (session.setUsage index usage).terminateIfHardLimitReached hardLimitReached)

def sealCommit (session : Session) (aead : Aead) : Outcome Bytes :=
  if session.state ≠ .committing || session.localCommitSent then session.fail .invalidState
  else
    match session.sealRaw aead .commit .guard [] with
    | (.error e, session) => (.error e, session)
    | (.ok output, session) =>
        if session.state ≠ .failed then
          let session := { session with localCommitSent := true }
          (.ok output,
            if session.peerCommitReceived then { session with state := .active } else session)
        else (.ok output, session)

def sealData (session : Session) (aead : Aead) (channel : DataChannel) (plaintext : Bytes) :
    Outcome Bytes :=
  if session.state ≠ .active then session.fail .invalidState
  else if maxPlaintext < plaintext.length then session.fail .plaintextTooLarge
  else session.sealRaw aead .data channel.channel plaintext

def sealRefreshRequired (session : Session) (aead : Aead) : Outcome Bytes :=
  if session.state ≠ .active then session.fail .invalidState
  else session.sealRaw aead .refreshRequired .guard []

def sealClose (session : Session) (aead : Aead) : Outcome Bytes :=
  let allowed := decide (session.state = .active) ||
    (decide (session.state = .draining) && session.peerCloseReceived)
  if !allowed || session.localCloseSent then session.fail .invalidState
  else
    match session.sealRaw aead .close .guard [] with
    | (.error e, session) => (.error e, session)
    | (.ok output, session) =>
        if session.state ≠ .failed then
          (.ok output,
            { session with localCloseSent := true, state := .draining }.finishCloseIfComplete)
        else (.ok output, session)

def validateIncoming (session : Session) (header : Header) : Except Error Unit :=
  let semanticallyValid := match header.recordType with
    | .data => !header.channel.isGuard
    | .commit | .refreshRequired | .close =>
        header.channel.isGuard && decide (header.plaintextLen = 0)
  if !semanticallyValid then .error .invalidRecord
  else
    let stateValid := match header.recordType with
      | .data | .refreshRequired => decide (session.state = .active)
      | .commit => decide (session.state = .committing) && !session.peerCommitReceived
      | .close => (decide (session.state = .active) || decide (session.state = .draining)) &&
          !session.peerCloseReceived
    if !stateValid then .error .invalidState else .ok ()

/-- The effect of an authenticated record: what the caller gets, and flags and state. -/
def applyOpened (session : Session) (header : Header) (plaintext : Bytes) :
    Outcome OpenedRecord :=
  match header.recordType with
  | .data =>
      match DataChannel.fromChannel header.channel with
      | none => session.fail .invalidRecord
      | some channel => (.ok (.data channel plaintext), session)
  | .commit =>
      let session := { session with peerCommitReceived := true }
      (.ok .commit, if session.localCommitSent then { session with state := .active } else session)
  | .refreshRequired => (.ok .refreshRequired, session)
  | .close =>
      (.ok .close,
        { session with peerCloseReceived := true, state := .draining }.finishCloseIfComplete)

def openRecord (session : Session) (aead : Aead) (input : Bytes) : Outcome OpenedRecord :=
  if session.state.terminal then (.error .invalidState, session)
  else
    match parse input with
    | .error e => session.fail e
    | .ok parsed =>
        match session.validateIncoming parsed.header with
        | .error e => session.fail e
        | .ok () =>
            let direction := session.role.receiveDirection
            let index := materialIndex parsed.header.channel direction
            let usage := session.usage index
            if parsed.header.sequence ≠ usage.nextSequence then session.fail .invalidRecord
            else if !usage.permits parsed.header.plaintextLen then session.fail .limitReached
            else
              match (session.context parsed.header.channel direction).open aead parsed with
              | .error e => session.fail e
              | .ok plaintext =>
                  match usage.consume parsed.header.plaintextLen with
                  | (.error _, usage) => (session.setUsage index usage).fail .limitReached
                  | (.ok hardLimitReached, usage) =>
                      match (session.setUsage index usage).applyOpened parsed.header plaintext with
                      | (.error e, session) => (.error e, session)
                      | (.ok opened, session) =>
                          (.ok opened, session.terminateIfHardLimitReached hardLimitReached)

end Session

/-! ### Calls -/

/-- The mutating operations of a session. -/
inductive Call where
  | sealCommit
  | sealData (channel : DataChannel) (plaintext : Bytes)
  | sealRefreshRequired
  | sealClose
  | openRecord (input : Bytes)
  | abort
deriving DecidableEq, Repr

/-- What a call returns: a sealed record, an opened one, or nothing. -/
inductive Output where
  | record (result : Except Error Bytes)
  | opened (result : Except Error OpenedRecord)
  | none

/-- One call on a session. -/
def Session.step (session : Session) (aead : Aead) : Call → Output × Session
  | .sealCommit => let r := session.sealCommit aead; (.record r.1, r.2)
  | .sealData c p => let r := session.sealData aead c p; (.record r.1, r.2)
  | .sealRefreshRequired => let r := session.sealRefreshRequired aead; (.record r.1, r.2)
  | .sealClose => let r := session.sealClose aead; (.record r.1, r.2)
  | .openRecord input => let r := session.openRecord aead input; (.opened r.1, r.2)
  | .abort => (.none, session.abort)

end G301.Inner
