import G301.Lib.Logged
import G301.Inner.Network

/-! # The encryption calls of a session

`sealLogged` is the record layer's `seal` with a log of what it hands to AES-256-GCM, and
`Session.stepLogged` a call on a session with the same log, each entry under the number of the
traffic key that `seal_raw` picked.  The log changes nothing (`Session.stepLogged_step`).

* `Session.stepLogged_cases`: a call of a session makes at most one encryption call, and the one
  it makes is the next on its channel.
* `Net.exists_calls`: every run of a `Net` is one with its encryption calls.
* `Net.run_encryptions`: the encryptions in the log of a `Net` are those that the calls behind its
  records made. -/

namespace G301.Inner

open ByteString Lts

/-- A call of the AEAD's encryption, and its answer. -/
structure EncryptCall where
  key : Vector UInt8 keyLen
  nonce : Bytes
  aad : Bytes
  plaintext : Bytes
  answer : Option (Bytes × Vector UInt8 tagLen)
deriving DecidableEq, Repr

/-- The encryption that an answered call made. -/
def EncryptCall.encryption? (call : EncryptCall) : Option Encryption :=
  call.answer.map fun (ciphertext, tag) =>
    ⟨call.key, call.nonce, call.aad, call.plaintext, ciphertext, tag⟩

/-- Encryption calls, each with the number of its traffic key. -/
abbrev EncryptLog := List (Fin materialCount × EncryptCall)

/-- `CryptoContext.seal` with its encryption calls. -/
def CryptoContext.sealLogged (context : CryptoContext) (aead : Aead) (recordType : RecordType)
    (channel : Channel) (sequence : ℕ) (plaintext : Bytes) : Logged EncryptCall Error Bytes := do
  let header ← Logged.lift (Header.new recordType channel sequence plaintext.length)
  let aad := aad context.manifestHash context.contextHash context.direction header.encoded
  let nonce := nonce context.traffic.iv sequence
  let answer := aead.encrypt context.traffic.key nonce aad plaintext
  let (ciphertext, tag) ← Logged.request ⟨context.traffic.key, nonce, aad, plaintext, answer⟩
    (answer.elim (.error .crypto) .ok)
  if ciphertext.length ≠ plaintext.length then Logged.lift (.error .crypto)
  else return header.encoded.toList ++ ciphertext ++ tag.toList

namespace Session

/-- The outcome of an operation with its encryption calls. -/
abbrev LoggedOutcome (α : Type) := EncryptLog × Outcome α

def sealRawLogged (session : Session) (aead : Aead) (recordType : RecordType) (channel : Channel)
    (plaintext : Bytes) : LoggedOutcome Bytes :=
  let direction := session.role.sendDirection
  let index := materialIndex channel direction
  let usage := session.usage index
  if !usage.permits plaintext.length then ([], session.fail .limitReached)
  else
    let sealed := (session.context channel direction).sealLogged aead recordType channel
      usage.nextSequence plaintext
    (sealed.calls.map fun call => (index, call),
      match sealed.result with
      | .error e => session.fail e
      | .ok output =>
          match usage.consume plaintext.length with
          | (.error _, usage) => (session.setUsage index usage).fail .limitReached
          | (.ok hardLimitReached, usage) =>
              (.ok output,
                (session.setUsage index usage).terminateIfHardLimitReached hardLimitReached))

def sealCommitLogged (session : Session) (aead : Aead) : LoggedOutcome Bytes :=
  if session.state ≠ .committing || session.localCommitSent then
    ([], session.fail .invalidState)
  else
    match session.sealRawLogged aead .commit .guard [] with
    | (calls, .error e, session) => (calls, .error e, session)
    | (calls, .ok output, session) =>
        if session.state ≠ .failed then
          let session := { session with localCommitSent := true }
          (calls, .ok output,
            if session.peerCommitReceived then { session with state := .active } else session)
        else (calls, .ok output, session)

def sealDataLogged (session : Session) (aead : Aead) (channel : DataChannel) (plaintext : Bytes) :
    LoggedOutcome Bytes :=
  if session.state ≠ .active then ([], session.fail .invalidState)
  else if maxPlaintext < plaintext.length then ([], session.fail .plaintextTooLarge)
  else session.sealRawLogged aead .data channel.channel plaintext

def sealRefreshRequiredLogged (session : Session) (aead : Aead) : LoggedOutcome Bytes :=
  if session.state ≠ .active then ([], session.fail .invalidState)
  else session.sealRawLogged aead .refreshRequired .guard []

def sealCloseLogged (session : Session) (aead : Aead) : LoggedOutcome Bytes :=
  let allowed := decide (session.state = .active) ||
    (decide (session.state = .draining) && session.peerCloseReceived)
  if !allowed || session.localCloseSent then ([], session.fail .invalidState)
  else
    match session.sealRawLogged aead .close .guard [] with
    | (calls, .error e, session) => (calls, .error e, session)
    | (calls, .ok output, session) =>
        if session.state ≠ .failed then
          (calls, .ok output,
            { session with localCloseSent := true, state := .draining }.finishCloseIfComplete)
        else (calls, .ok output, session)

/-- One call on a session with its encryption calls; opening and aborting make none. -/
def stepLogged (session : Session) (aead : Aead) : Call → EncryptLog × Output × Session
  | .sealCommit => let r := session.sealCommitLogged aead; (r.1, .record r.2.1, r.2.2)
  | .sealData c p => let r := session.sealDataLogged aead c p; (r.1, .record r.2.1, r.2.2)
  | .sealRefreshRequired =>
      let r := session.sealRefreshRequiredLogged aead
      (r.1, .record r.2.1, r.2.2)
  | .sealClose => let r := session.sealCloseLogged aead; (r.1, .record r.2.1, r.2.2)
  | .openRecord input => ([], session.step aead (.openRecord input))
  | .abort => ([], session.step aead .abort)

end Session

/-! ### The log changes nothing -/

theorem CryptoContext.sealLogged_result (context : CryptoContext) (aead : Aead) (t : RecordType)
    (c : Channel) (s : ℕ) (p : Bytes) :
    (context.sealLogged aead t c s p).result = context.seal aead t c s p := by
  unfold sealLogged CryptoContext.seal
  cases Header.new t c s p.length with
  | error e => rfl
  | ok header =>
      simp only [Logged.result_bind, Logged.result_lift, Logged.result_request]
      cases henc : aead.encrypt context.traffic.key (nonce context.traffic.iv s)
          (aad context.manifestHash context.contextHash context.direction header.encoded) p with
      | none =>
          simp only [bind, Except.bind, henc, Option.elim]
      | some answer =>
          obtain ⟨ciphertext, tag⟩ := answer
          simp only [bind, Except.bind, henc, Option.elim]
          split <;> rfl

namespace Session

variable {session : Session} {aead : Aead}

theorem sealRawLogged_outcome (t : RecordType) (c : Channel) (p : Bytes) :
    (session.sealRawLogged aead t c p).2 = session.sealRaw aead t c p := by
  unfold sealRawLogged sealRaw
  dsimp only
  split
  · rfl
  · let direction := session.role.sendDirection
    have hseal := CryptoContext.sealLogged_result (session.context c direction) aead t c
      (session.usage (materialIndex c direction)).nextSequence p
    exact hseal ▸ rfl

theorem sealCommitLogged_outcome : (session.sealCommitLogged aead).2 = session.sealCommit aead := by
  unfold sealCommitLogged sealCommit
  rw [← sealRawLogged_outcome]
  split
  · rfl
  · obtain ⟨calls, r, s⟩ := session.sealRawLogged aead .commit .guard []
    cases r with
    | error e => rfl
    | ok output => dsimp only; split <;> rfl

theorem sealDataLogged_outcome (c : DataChannel) (p : Bytes) :
    (session.sealDataLogged aead c p).2 = session.sealData aead c p := by
  unfold sealDataLogged sealData
  rw [← sealRawLogged_outcome]
  split
  · rfl
  · split <;> rfl

theorem sealRefreshRequiredLogged_outcome :
    (session.sealRefreshRequiredLogged aead).2 = session.sealRefreshRequired aead := by
  unfold sealRefreshRequiredLogged sealRefreshRequired
  rw [← sealRawLogged_outcome]
  split <;> rfl

theorem sealCloseLogged_outcome : (session.sealCloseLogged aead).2 = session.sealClose aead := by
  unfold sealCloseLogged sealClose
  rw [← sealRawLogged_outcome]
  dsimp only
  split
  · rfl
  · obtain ⟨calls, r, s⟩ := session.sealRawLogged aead .close .guard []
    cases r with
    | error e => rfl
    | ok output => dsimp only; split <;> rfl

theorem stepLogged_step (session : Session) (aead : Aead) (call : Call) :
    (session.stepLogged aead call).2 = session.step aead call := by
  cases call with
  | sealCommit =>
      show (Output.record (session.sealCommitLogged aead).2.1,
        (session.sealCommitLogged aead).2.2) = _
      rw [sealCommitLogged_outcome]
      rfl
  | sealData c p =>
      show (Output.record (session.sealDataLogged aead c p).2.1,
        (session.sealDataLogged aead c p).2.2) = _
      rw [sealDataLogged_outcome]
      rfl
  | sealRefreshRequired =>
      show (Output.record (session.sealRefreshRequiredLogged aead).2.1,
        (session.sealRefreshRequiredLogged aead).2.2) = _
      rw [sealRefreshRequiredLogged_outcome]
      rfl
  | sealClose =>
      show (Output.record (session.sealCloseLogged aead).2.1,
        (session.sealCloseLogged aead).2.2) = _
      rw [sealCloseLogged_outcome]
      rfl
  | openRecord input => rfl
  | abort => rfl

end Session

/-! ### The calls of one step -/

theorem CryptoContext.sealLogged_calls (context : CryptoContext) (aead : Aead) (t : RecordType)
    (c : Channel) (s : ℕ) {p : Bytes} (hle : p.length ≤ maxPlaintext) :
    let aad := aad context.manifestHash context.contextHash context.direction
      (encodeHeader t c s p.length)
    let nonce := nonce context.traffic.iv s
    (context.sealLogged aead t c s p).calls =
      [⟨context.traffic.key, nonce, aad, p, aead.encrypt context.traffic.key nonce aad p⟩] := by
  intro aad nonce
  unfold sealLogged
  rw [new_eq_ok hle, Logged.bind_of_ok rfl]
  show [] ++ Logged.calls (Logged.request _ ((aead.encrypt _ nonce aad p).elim _ _) >>= _) = _
  rw [List.nil_append]
  cases henc : aead.encrypt context.traffic.key nonce aad p with
  | none =>
      rw [Logged.bind_of_error (e := .crypto) rfl]
      rfl
  | some answer =>
      rw [Logged.bind_of_ok (a := answer) rfl]
      obtain ⟨ciphertext, tag⟩ := answer
      dsimp only
      split <;> rfl

theorem CryptoContext.sealLogged_calls_of_lt (context : CryptoContext) (aead : Aead)
    (t : RecordType) (c : Channel) (s : ℕ) {p : Bytes} (hlt : maxPlaintext < p.length) :
    (context.sealLogged aead t c s p).calls = [] := by
  unfold sealLogged
  cases hnew : Header.new t c s p.length with
  | error e => rw [Logged.bind_of_error rfl]; rfl
  | ok header =>
      have hle := plaintextLen_le_of_new hnew
      omega

namespace Session

variable {session : Session} {aead : Aead} {m : Message}

/-- The encryption call for the next record that says `m`. -/
def encryptCall (session : Session) (aead : Aead) (m : Message) : Fin materialCount × EncryptCall :=
  let d := session.role.sendDirection
  (materialIndex m.channel d,
    ⟨session.keyOn d m.channel, session.recordNonce d m.channel, session.recordAad d m, m.plaintext,
      aead.encrypt (session.keyOn d m.channel) (session.recordNonce d m.channel)
        (session.recordAad d m) m.plaintext⟩)

theorem sealRawLogged_calls (hfits : session.Fits session.role.sendDirection m) :
    (session.sealRawLogged aead m.recordType m.channel m.plaintext).1 =
      [session.encryptCall aead m] := by
  have hpermits : (session.usage (materialIndex m.channel session.role.sendDirection)).permits
      m.plaintext.length = true := hfits.permits
  unfold sealRawLogged
  dsimp only
  rw [hpermits]
  show List.map _ (CryptoContext.sealLogged _ _ _ _ _ _).calls = _
  rw [CryptoContext.sealLogged_calls _ _ _ _ _ hfits.length_le]
  rfl

theorem sealRawLogged_calls_of_not (hfits : ¬ session.Fits session.role.sendDirection m) :
    (session.sealRawLogged aead m.recordType m.channel m.plaintext).1 = [] := by
  unfold sealRawLogged
  dsimp only
  split
  · rfl
  rename_i hpermits
  have hlt : maxPlaintext < m.plaintext.length := by
    by_contra hle
    exact hfits ⟨by simpa using hpermits, by omega⟩
  rw [CryptoContext.sealLogged_calls_of_lt _ _ _ _ _ hlt]
  rfl

/-- A call that may not seal makes no encryption call, one that may makes those of `sealRaw`. -/
theorem stepLogged_calls {call : Call} (hcall : call.message? = some m) :
    (session.MaySeal m.recordType → (session.stepLogged aead call).1 =
      (session.sealRawLogged aead m.recordType m.channel m.plaintext).1) ∧
    (¬ session.MaySeal m.recordType → (session.stepLogged aead call).1 = []) := by
  cases call <;> simp only [Call.message?, Option.some.injEq, reduceCtorEq] at hcall <;> subst hcall
  case sealCommit =>
      show (_ → (session.sealCommitLogged aead).1 = _) ∧ (_ → (session.sealCommitLogged aead).1 = _)
      unfold sealCommitLogged MaySeal
      dsimp only
      split
      · rename_i hcheck
        refine ⟨fun hmay => ?_, fun _ => rfl⟩
        obtain ⟨hstate, hsent⟩ := hmay
        simp [hstate, hsent] at hcheck
      · rename_i hcheck
        obtain ⟨calls, r, s⟩ := session.sealRawLogged aead .commit .guard []
        cases r with
        | error e => simp_all
        | ok output => dsimp only; split <;> simp_all
  case sealData c p =>
      show (_ → (session.sealDataLogged aead c p).1 = _) ∧ (_ → (session.sealDataLogged aead c p).1 = _)
      unfold sealDataLogged MaySeal
      dsimp only
      split
      · rename_i hcheck
        simp_all
      · rename_i hcheck
        split
        · rename_i hlt
          refine ⟨fun _ => ?_, fun _ => rfl⟩
          refine (sealRawLogged_calls_of_not (m := ⟨.data, c.channel, p⟩) fun hfits => ?_).symm
          have hle := hfits.length_le
          dsimp only at hle
          omega
        · simp_all
  case sealRefreshRequired =>
      show (_ → (session.sealRefreshRequiredLogged aead).1 = _) ∧
        (_ → (session.sealRefreshRequiredLogged aead).1 = _)
      unfold sealRefreshRequiredLogged MaySeal
      dsimp only
      split <;> simp_all
  case sealClose =>
      show (_ → (session.sealCloseLogged aead).1 = _) ∧ (_ → (session.sealCloseLogged aead).1 = _)
      unfold sealCloseLogged MaySeal
      dsimp only
      split
      · rename_i hcheck
        refine ⟨fun hmay => ?_, fun _ => rfl⟩
        obtain ⟨hstate, hsent⟩ := hmay
        rcases hstate with hstate | ⟨hstate, hreceived⟩
        · simp [hstate, hsent] at hcheck
        · simp [hstate, hreceived, hsent] at hcheck
      · rename_i hcheck
        obtain ⟨calls, r, s⟩ := session.sealRawLogged aead .close .guard []
        cases r with
        | error e => simp_all
        | ok output => dsimp only; split <;> simp_all

theorem refusal_ne_ok (call : Call) (error : Error) (w : Bytes) :
    call.refusal error ≠ .record (.ok w) := by
  cases call <;> simp [Call.refusal]

/-- **Encryption calls of a step.**  A call makes one encryption call, that for the next record of
its message, if it may seal the message and the counters allow it; otherwise it makes none and
returns no record. -/
theorem stepLogged_cases (session : Session) (aead : Aead) (call : Call) :
    (∃ m, call.message? = some m ∧ session.MaySeal m.recordType ∧
      session.Fits session.role.sendDirection m ∧
      (session.stepLogged aead call).1 = [session.encryptCall aead m]) ∨
    ((session.stepLogged aead call).1 = [] ∧
      ∀ w, (session.step aead call).1 ≠ .record (.ok w)) := by
  by_cases hseals : ∃ m, call.message? = some m ∧ session.MaySeal m.recordType ∧
      session.Fits session.role.sendDirection m
  · obtain ⟨m, hcall, hmay, hfits⟩ := hseals
    refine .inl ⟨m, hcall, hmay, hfits, ?_⟩
    rw [(stepLogged_calls hcall).1 hmay, sealRawLogged_calls hfits]
  · refine .inr ⟨?_, fun w hout => hseals ?_⟩
    · cases hcall : call.message? with
      | none => cases call <;> first | rfl | cases hcall
      | some m =>
          by_cases hmay : session.MaySeal m.recordType
          · rw [(stepLogged_calls hcall).1 hmay]
            exact sealRawLogged_calls_of_not fun hfits => hseals ⟨m, hcall, hmay, hfits⟩
          · exact (stepLogged_calls hcall).2 hmay
    · cases step_cases aead session call with
      | terminal _ hrefused _ => exact absurd (hrefused.symm.trans hout) (refusal_ne_ok _ _ _)
      | refused _ _ hrefused _ => exact absurd (hrefused.symm.trans hout) (refusal_ne_ok _ _ _)
      | sealed m _ _ hcall hmay hfits _ _ _ _ => exact ⟨m, hcall, hmay, hfits⟩
      | opened _ _ _ _ _ _ _ _ hopened _ => cases hopened.symm.trans hout

end Session

/-! ### Runs of two endpoints with their encryption calls -/

/-- A call of one endpoint, what it returned, and the encryption calls it made. -/
abbrev CallEvent := NetEvent × EncryptLog

/-- The encryption calls of a history, in order. -/
def callsOf (h : List CallEvent) : EncryptLog := h.flatMap Prod.snd

/-- The encryptions behind the records that a history returned, in order, each with the number of
its traffic key. -/
def encryptionsOf (h : List CallEvent) : List (Fin materialCount × Encryption) :=
  h.flatMap fun ev =>
    if ev.1.output.sealed?.isSome then
      ev.2.filterMap fun x => x.2.encryption?.map fun encryption => (x.1, encryption)
    else []

namespace Net

/-- `Step` with the encryption calls of the session. -/
def CallStep (allowed : List Encryption → Aead → Prop) (net : Net) (ev : CallEvent) (next : Net) :
    Prop :=
  ∃ aead next', allowed net.encryptions aead ∧
    (net.session ev.1.who).stepLogged aead ev.1.call = (ev.2, ev.1.output, next') ∧
      next = net.advance ev.1.who ev.1.call (ev.1.output, next')

variable {allowed : List Encryption → Aead → Prop} {secrets : EndpointRole → DerivedSecrets}
variable {start net next : Net} {h : List CallEvent} {ev : CallEvent}

theorem CallStep.step (hs : CallStep allowed net ev next) : Step allowed net ev.1 next := by
  obtain ⟨aead, next', hallowed, hstep, hnext⟩ := hs
  refine ⟨aead, next', hallowed, ?_, hnext⟩
  rw [← Session.stepLogged_step, hstep]

/-- A run with its encryption calls is a run. -/
theorem path_of_calls (hp : Path (CallStep allowed) start h net) :
    Path (Step allowed) start (h.map Prod.fst) net := by
  induction hp with
  | nil => exact .nil
  | snoc _ hs ih =>
      rw [List.map_append]
      exact ih.snoc hs.step

/-- Every run is one with its encryption calls. -/
theorem exists_calls {events : List NetEvent} (hp : Path (Step allowed) start events net) :
    ∃ h, h.map Prod.fst = events ∧ Path (CallStep allowed) start h net := by
  induction hp with
  | nil => exact ⟨[], rfl, .nil⟩
  | @snoc events net next ev _ hs ih =>
      obtain ⟨h, hevents, hpath⟩ := ih
      obtain ⟨aead, next', hallowed, hstep, hnext⟩ := hs
      rw [← Session.stepLogged_step] at hstep
      refine ⟨h ++ [(ev, ((net.session ev.who).stepLogged aead ev.call).1)], ?_, hpath.snoc ?_⟩
      · rw [List.map_append, hevents]
        rfl
      · exact ⟨aead, next', hallowed, Prod.ext rfl hstep, hnext⟩

theorem callsOf_snoc : callsOf (h ++ [ev]) = callsOf h ++ ev.2 := by
  simp [callsOf]

/-- What a call adds to the log is the encryption that the session had made. -/
theorem entryOf_eq (session : Session) (aead : Aead) (call : Call) :
    let r := session.stepLogged aead call
    (session.entryOf call r.2.1).toList.map (fun x => (x.index, x.encryption)) =
      if r.2.1.sealed?.isSome then
        r.1.filterMap fun x => x.2.encryption?.map fun encryption => (x.1, encryption)
      else [] := by
  intro r
  have hr : r.2 = session.step aead call := Session.stepLogged_step session aead call
  have hnone : ∀ error, r.2.1 = call.refusal error →
      (session.entryOf call r.2.1).toList = [] ∧ r.2.1.sealed?.isSome = false := by
    intro error hout
    rw [hout, entryOf_refusal, sealed_refusal]
    exact ⟨rfl, rfl⟩
  have hcase := Session.step_cases aead session call
  rw [← hr] at hcase
  cases hcase with
  | terminal _ hout _ => simp [hnone _ hout]
  | refused _ _ hout _ => simp [hnone _ hout]
  | opened _ _ _ _ _ _ _ _ hout _ => simp [hout, Session.entryOf, Output.sealed?]
  | sealed m ciphertext tag hcall hmay hfits hencrypt hct hout _ =>
      have hcalls : r.1 = [session.encryptCall aead m] := by
        rw [(Session.stepLogged_calls hcall).1 hmay, Session.sealRawLogged_calls hfits]
      rw [hout, entryOf_sealed hcall hfits hct, hcalls]
      simp [Output.sealed?, Session.encryptCall, EncryptCall.encryption?, hencrypt, SealEntry.index]

/-- **The log holds the encryptions made.** -/
theorem run_encryptions (hp : Path (CallStep allowed) (init secrets) h net) :
    net.log.map (fun x => (x.index, x.encryption)) = encryptionsOf h := by
  refine hp.invariant (P := fun h net =>
    net.log.map (fun x => (x.index, x.encryption)) = encryptionsOf h) rfl ?_
  rintro h net ⟨ev, calls⟩ next - ih ⟨aead, next', -, hstep, rfl⟩
  have hentry := entryOf_eq (net.session ev.who) aead ev.call
  rw [hstep] at hentry
  show (net.log ++ ((net.session ev.who).entryOf ev.call ev.output).toList).map _ = _
  rw [List.map_append, ih, hentry]
  simp [encryptionsOf]

end Net

end G301.Inner
