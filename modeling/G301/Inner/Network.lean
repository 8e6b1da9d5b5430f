import Mathlib.Data.List.Nodup
import G301.Inner.Aead
import G301.Inner.History

/-! # Two endpoints and an arbitrary network

A `Net` is a Client and a Server session and the log of everything their seal calls have
returned.  In one step one endpoint makes one call; the network is the input of `openRecord`,
which is any byte string at any time.  `allowed` says which AEADs may answer a call, given
the encryptions made so far: all of them for results that hold whatever the AEAD does,
`Aead.Ideal` for integrity.

* `Net.run_refines`: each endpoint of a run is a run of its own, hence of the two-stream model.
* `Net.run_logged`: the log lists, for every context, exactly the messages the endpoint
  sealed on it, numbered from zero, under the keys, nonces and associated data of the
  key schedule.  `Net.run_encryptions` (in `EncryptCalls`) says that these are the encryption
  calls the seal calls made.
* `Net.exists_sealed`: under an ideal AEAD what an endpoint opens is what its peer sealed at
  the same position of the same channel. -/

namespace G301.Inner

open ByteString Lts

/-- A record that a seal call returned: who sealed what under which sequence number, and the
encryption behind it. -/
structure SealEntry where
  sender : EndpointRole
  message : Message
  sequence : ℕ
  encryption : Encryption
deriving DecidableEq, Repr

namespace SealEntry

/-- The traffic key index of the record. -/
def index (x : SealEntry) : Fin materialCount :=
  materialIndex x.message.channel x.sender.sendDirection

/-- The bytes of the record. -/
def record (x : SealEntry) : Bytes :=
  wire x.message.recordType x.message.channel x.sequence x.encryption.ciphertext x.encryption.tag

/-- The record is numbered and encrypted as the key schedule has it. -/
structure Sound (secrets : DerivedSecrets) (x : SealEntry) : Prop where
  key_eq : x.encryption.key = (secrets.traffic x.index).key
  nonce_eq : x.encryption.nonce = nonce (secrets.traffic x.index).iv x.sequence
  aad_eq : x.encryption.aad = aad secrets.manifestHash secrets.contextHash x.sender.sendDirection
    (encodeHeader x.message.recordType x.message.channel x.sequence x.message.plaintext.length)
  plaintext_eq : x.encryption.plaintext = x.message.plaintext
  ciphertext_length : x.encryption.ciphertext.length = x.message.plaintext.length
  sequence_lt : x.sequence < 256 ^ 8
  length_le : x.message.plaintext.length ≤ maxPlaintext

end SealEntry

/-- What a call adds to the log: the record it returned, and what the session encrypted it
under. -/
def Session.entryOf (session : Session) : Call → Output → Option SealEntry
  | call, .record (.ok output) => do
      let m ← call.message?
      let parsed ← (parse output).toOption
      let d := session.role.sendDirection
      return ⟨session.role, m, parsed.header.sequence,
        ⟨session.keyOn d m.channel, session.recordNonce d m.channel, session.recordAad d m,
          m.plaintext, parsed.ciphertext, parsed.tag⟩⟩
  | _, _ => none

/-- A call of one endpoint and what it returned. -/
structure NetEvent where
  who : EndpointRole
  call : Call
  output : Output

/-- The record an output carries. -/
def Output.sealed? : Output → Option Bytes
  | .record (.ok output) => some output
  | _ => Option.none

/-- The records that seal calls of either endpoint returned with `Ok`, in order. -/
def sealedRecords (h : List NetEvent) : List Bytes := h.filterMap fun ev => ev.output.sealed?

/-- The calls of one endpoint. -/
def eventsOf (e : EndpointRole) (h : List NetEvent) : List Event :=
  h.filterMap fun ev => if ev.who = e then some (ev.call, ev.output) else none

/-- The messages an endpoint sealed, in order. -/
def sentBy (e : EndpointRole) (h : List NetEvent) : List Message := sentOf (actsOf (eventsOf e h))

/-- The messages an endpoint opened, in order. -/
def receivedBy (e : EndpointRole) (h : List NetEvent) : List Message :=
  receivedOf (actsOf (eventsOf e h))

structure Net where
  session : EndpointRole → Session
  log : List SealEntry

namespace Net

/-- Two fresh sessions. -/
def init (secrets : EndpointRole → DerivedSecrets) : Net :=
  ⟨fun e => Session.ofSecrets e (secrets e), []⟩

/-- A Client and a Server session of one exporter epoch and context start as `init` has it,
with the same secrets on both sides. -/
theorem exists_init_of_fromExporterEpoch {ssl : OpenSsl} {fetched fetched' : Option (ℕ × ℕ)}
    {exporterMaterial : Vector UInt8 exporterMaterialLen} {applicationContext : Bytes}
    {client server : Session}
    (hc : Session.fromExporterEpoch ssl fetched .client exporterMaterial applicationContext =
      .ok client)
    (hs : Session.fromExporterEpoch ssl fetched' .server exporterMaterial applicationContext =
      .ok server) :
    ∃ secrets, (init fun _ => secrets).session .client = client ∧
      (init fun _ => secrets).session .server = server := by
  obtain ⟨context, secrets, hcontext, hsecrets, rfl⟩ := Session.fromExporterEpoch_eq_ok hc
  obtain ⟨context', secrets', hcontext', hsecrets', rfl⟩ := Session.fromExporterEpoch_eq_ok hs
  rw [hcontext] at hcontext'
  obtain rfl := Except.ok.inj hcontext'
  rw [hsecrets] at hsecrets'
  obtain rfl := Except.ok.inj hsecrets'
  exact ⟨secrets, rfl, rfl⟩

/-- The encryptions behind the records of the log. -/
def encryptions (net : Net) : List Encryption := net.log.map SealEntry.encryption

/-- The net after a call of `who` that left `session'`. -/
def advance (net : Net) (who : EndpointRole) (call : Call) (r : Output × Session) : Net :=
  ⟨Function.update net.session who r.2,
    net.log ++ ((net.session who).entryOf call r.1).toList⟩

/-- One call of one endpoint, answered by any AEAD that is allowed. -/
def Step (allowed : List Encryption → Aead → Prop) (net : Net) (ev : NetEvent) (next : Net) :
    Prop :=
  ∃ aead next', allowed net.encryptions aead ∧
    (net.session ev.who).step aead ev.call = (ev.output, next') ∧
      next = net.advance ev.who ev.call (ev.output, next')

end Net

/-! ### Histories -/

section
variable {e : EndpointRole} {h : List NetEvent} {ev : NetEvent}

theorem eventsOf_snoc_self :
    eventsOf ev.who (h ++ [ev]) = eventsOf ev.who h ++ [(ev.call, ev.output)] := by
  simp [eventsOf]

theorem eventsOf_snoc_ne (hne : ev.who ≠ e) : eventsOf e (h ++ [ev]) = eventsOf e h := by
  simp [eventsOf, hne]

theorem sentBy_snoc_ne (hne : ev.who ≠ e) : sentBy e (h ++ [ev]) = sentBy e h := by
  rw [sentBy, eventsOf_snoc_ne hne, sentBy]

theorem receivedBy_snoc_ne (hne : ev.who ≠ e) : receivedBy e (h ++ [ev]) = receivedBy e h := by
  rw [receivedBy, eventsOf_snoc_ne hne, receivedBy]

theorem sentBy_snoc_self :
    sentBy ev.who (h ++ [ev]) = sentBy ev.who h ++ sentOf (actsOf [(ev.call, ev.output)]) := by
  simp [sentBy, eventsOf_snoc_self]

theorem receivedBy_snoc_self :
    receivedBy ev.who (h ++ [ev]) =
      receivedBy ev.who h ++ receivedOf (actsOf [(ev.call, ev.output)]) := by
  simp [receivedBy, eventsOf_snoc_self]

theorem sealedRecords_snoc :
    sealedRecords (h ++ [ev]) = sealedRecords h ++ ev.output.sealed?.toList := by
  cases hs : ev.output.sealed? <;> simp [sealedRecords, hs]

/-- An endpoint that neither sealed nor opened anything has its old lists. -/
theorem sentBy_snoc_of_not_sent (hsent : sentOf (actsOf [(ev.call, ev.output)]) = [])
    (e : EndpointRole) : sentBy e (h ++ [ev]) = sentBy e h := by
  by_cases hwho : ev.who = e
  · subst hwho
    rw [sentBy_snoc_self, hsent, List.append_nil]
  · exact sentBy_snoc_ne hwho

theorem receivedBy_snoc_of_not_received (hrec : receivedOf (actsOf [(ev.call, ev.output)]) = [])
    (e : EndpointRole) : receivedBy e (h ++ [ev]) = receivedBy e h := by
  by_cases hwho : ev.who = e
  · subst hwho
    rw [receivedBy_snoc_self, hrec, List.append_nil]
  · exact receivedBy_snoc_ne hwho

end

/-! ### Keys, nonces and associated data of the next record -/

/-- The encryption of the next message of a direction, after the messages `ms` of it. -/
def nextEncryption (secrets : DerivedSecrets) (d : Direction) (ms : List Message) (m : Message)
    (ciphertext : Bytes) (tag : Vector UInt8 tagLen) : Encryption :=
  let traffic := secrets.traffic (materialIndex m.channel d)
  let sequence := (onChannel m.channel ms).length
  ⟨traffic.key, nonce traffic.iv sequence,
    aad secrets.manifestHash secrets.contextHash d
      (encodeHeader m.recordType m.channel sequence m.plaintext.length),
    m.plaintext, ciphertext, tag⟩

namespace Session

/-- In direction `d` the session stands after the messages `ms`, with the keys of `secrets`. -/
structure Follows (secrets : DerivedSecrets) (d : Direction) (ms : List Message)
    (session : Session) : Prop where
  manifestHash_eq : session.manifestHash = secrets.manifestHash
  contextHash_eq : session.contextHash = secrets.contextHash
  traffic_eq : session.traffic = secrets.traffic
  usage_eq : ∀ c, session.usageOn d c = usageOf c ms

section
variable {role : EndpointRole} {secrets : DerivedSecrets} {acts : List Act} {dx : Duplex}
variable {session : Session} {d : Direction} {ms : List Message}

theorem Refines.follows_send (hr : Refines role secrets acts dx session) (hlive : session.Live) :
    session.Follows secrets role.sendDirection (sentOf acts) :=
  ⟨hr.manifestHash_eq, hr.contextHash_eq, hr.traffic_eq hlive, hr.sendUsage hlive⟩

theorem Refines.follows_receive (hr : Refines role secrets acts dx session)
    (hlive : session.Live) : session.Follows secrets role.receiveDirection (receivedOf acts) :=
  ⟨hr.manifestHash_eq, hr.contextHash_eq, hr.traffic_eq hlive, hr.receiveUsage hlive⟩

theorem Follows.sequence_eq (hf : session.Follows secrets d ms) (c : Channel) :
    (session.usageOn d c).nextSequence = (onChannel c ms).length := by
  rw [hf.usage_eq, nextSequence_usageOf]

theorem Follows.recordWire_eq (hf : session.Follows secrets d ms) (m : Message)
    (ciphertext : Bytes) (tag : Vector UInt8 tagLen) :
    session.recordWire d m ciphertext tag =
      wire m.recordType m.channel (onChannel m.channel ms).length ciphertext tag := by
  rw [recordWire, hf.sequence_eq]

/-- What the session gives to the AEAD for the next message. -/
theorem Follows.encryption_eq (hf : session.Follows secrets d ms) (m : Message)
    (ciphertext : Bytes) (tag : Vector UInt8 tagLen) :
    (⟨session.keyOn d m.channel, session.recordNonce d m.channel, session.recordAad d m,
      m.plaintext, ciphertext, tag⟩ : Encryption) = nextEncryption secrets d ms m ciphertext tag := by
  simp only [keyOn, recordNonce, recordAad, hf.sequence_eq, hf.traffic_eq, hf.manifestHash_eq,
    hf.contextHash_eq]
  rfl

end

end Session

namespace Net

variable {allowed : List Encryption → Aead → Prop} {secrets : EndpointRole → DerivedSecrets}
variable {h : List NetEvent} {net next : Net} {ev : NetEvent}

/-- An endpoint of a run is a run of its own. -/
theorem path_session {start : Net} (hp : Path (Step allowed) start h net) (e : EndpointRole) :
    Path Session.Step (start.session e) (eventsOf e h) (net.session e) := by
  refine hp.invariant (P := fun h net =>
    Path Session.Step (start.session e) (eventsOf e h) (net.session e)) .nil ?_
  rintro h net ev next - ih ⟨aead, s', -, hstep, rfl⟩
  by_cases hwho : ev.who = e
  · subst hwho
    rw [eventsOf_snoc_self]
    refine ih.snoc ⟨aead, ?_⟩
    simpa [advance] using hstep
  · rw [eventsOf_snoc_ne hwho]
    have hs : (net.advance ev.who ev.call (ev.output, s')).session e = net.session e :=
      Function.update_of_ne (Ne.symm hwho) _ _
    rw [hs]
    exact ih

/-- **Refinement for two.**  Each endpoint follows the two-stream model. -/
theorem run_refines (hp : Path (Step allowed) (init secrets) h net) (e : EndpointRole) :
    ∃ d, Path Duplex.Step Duplex.init (actsOf (eventsOf e h)) d ∧
      Session.Refines e (secrets e) (actsOf (eventsOf e h)) d (net.session e) :=
  Session.run_refines (path_session hp e)

/-! ### One step at a reached net -/

/-- The log entry of the next message an endpoint seals, after the messages `sent`. -/
def nextEntry (secrets : DerivedSecrets) (who : EndpointRole) (sent : List Message) (m : Message)
    (ciphertext : Bytes) (tag : Vector UInt8 tagLen) : SealEntry :=
  ⟨who, m, (onChannel m.channel sent).length,
    nextEncryption secrets who.sendDirection sent m ciphertext tag⟩

/-- Everything a step can do, in terms of the messages exchanged before it. -/
inductive StepCase (allowed : List Encryption → Aead → Prop)
    (secrets : EndpointRole → DerivedSecrets) (h : List NetEvent) (net : Net) (ev : NetEvent)
    (next : Net) : Prop
  | quiet (hacts : actsOf [(ev.call, ev.output)] = []) (hrecord : ev.output.sealed? = none)
      (hlog : next.log = net.log)
      (hdead : (net.session ev.who).Live → next.session ev.who = (net.session ev.who).dead)
  | sealed (m : Message) (x : SealEntry) (ciphertext : Bytes) (tag : Vector UInt8 tagLen)
      (hx : x = nextEntry (secrets ev.who) ev.who (sentBy ev.who h) m ciphertext tag)
      (hsound : x.Sound (secrets ev.who)) (hwf : m.WellFormed)
      (hacts : actsOf [(ev.call, ev.output)] = [.sent m])
      (hrecord : ev.output.sealed? = some x.record) (hlog : next.log = net.log ++ [x])
  | opened (o : OpenedRecord) (aead : Aead) (ciphertext : Bytes) (tag : Vector UInt8 tagLen)
      (traffic : TrafficKey) (sequence : ℕ)
      (htraffic : traffic = (secrets ev.who).traffic
        (materialIndex o.message.channel ev.who.receiveDirection))
      (hsequence : sequence = (onChannel o.message.channel (receivedBy ev.who h)).length)
      (hallowed : allowed net.encryptions aead)
      (hcall : ev.call = .openRecord
        (wire o.message.recordType o.message.channel sequence ciphertext tag))
      (hdecrypt : aead.decrypt traffic.key (nonce traffic.iv sequence)
        (aad (secrets ev.who).manifestHash (secrets ev.who).contextHash ev.who.receiveDirection
          (encodeHeader o.message.recordType o.message.channel sequence
            o.message.plaintext.length)) ciphertext tag = .plaintext o.message.plaintext)
      (hlive : (net.session ev.who).Live) (hlt : sequence < 256 ^ 8)
      (hle : o.message.plaintext.length ≤ maxPlaintext)
      (hct : ciphertext.length = o.message.plaintext.length)
      (hacts : actsOf [(ev.call, ev.output)] = [.received o.message])
      (hrecord : ev.output.sealed? = none) (hlog : next.log = net.log)

/-- The log entry of a sealed record. -/
theorem entryOf_sealed {session : Session} {call : Call} {m : Message} {ciphertext : Bytes}
    {tag : Vector UInt8 tagLen} (hcall : call.message? = some m)
    (hfits : session.Fits session.role.sendDirection m)
    (hct : ciphertext.length = m.plaintext.length) :
    session.entryOf call
        (.record (.ok (session.recordWire session.role.sendDirection m ciphertext tag))) =
      some ⟨session.role, m, (session.usageOn session.role.sendDirection m.channel).nextSequence,
        ⟨session.keyOn session.role.sendDirection m.channel,
          session.recordNonce session.role.sendDirection m.channel,
          session.recordAad session.role.sendDirection m, m.plaintext, ciphertext, tag⟩⟩ := by
  have hparse := parse_wire m.recordType m.channel tag
    (Usage.nextSequence_lt_of_permits hfits.permits) (hct ▸ hfits.length_le)
  simp [Session.entryOf, hcall, Session.recordWire, hparse, Except.toOption]

theorem entryOf_refusal (session : Session) (call : Call) (error : Error) :
    session.entryOf call (call.refusal error) = none := by
  cases call <;> rfl

theorem sealed_refusal (call : Call) (error : Error) : (call.refusal error).sealed? = none := by
  cases call <;> rfl

theorem step_cases (hp : Path (Step allowed) (init secrets) h net)
    (hs : Step allowed net ev next) : StepCase allowed secrets h net ev next := by
  obtain ⟨aead, s', hallowed, hstep, rfl⟩ := hs
  obtain ⟨d, -, hr⟩ := run_refines hp ev.who
  obtain ⟨who, call, output⟩ := ev
  have hcase := Session.step_cases aead (net.session who) call
  dsimp only at hstep hr ⊢
  rw [hstep] at hcase
  have hrefusal : ∀ error, output = call.refusal error →
      ((net.session who).Live → s' = (net.session who).dead) →
      StepCase allowed secrets h net ⟨who, call, output⟩ (net.advance who call (output, s')) := by
    rintro error rfl hdead
    refine .quiet (actsOf_refusal call error) (sealed_refusal call error) ?_ ?_
    · simp [advance, entryOf_refusal]
    · simpa [advance] using hdead
  cases hcase with
  | terminal hterm hout _ =>
      refine hrefusal _ hout fun hlive => ?_
      rw [Session.Live, hterm] at hlive
      cases hlive
  | refused error _ hout hnext => exact hrefusal error hout fun _ => hnext
  | sealed m ciphertext tag hcall hmay hfits henc hct hout _ =>
      dsimp only at hout
      subst hout
      have hlt := Usage.nextSequence_lt_of_permits hfits.permits
      have hentry := @entryOf_sealed _ _ _ _ tag hcall hfits hct
      have hfollows := hr.follows_send hmay.live
      rw [hr.role_eq] at hlt hentry
      rw [hfollows.sequence_eq] at hlt
      rw [hfollows.sequence_eq, hfollows.encryption_eq] at hentry
      refine .sealed m _ ciphertext tag rfl ⟨rfl, rfl, rfl, rfl, hct, hlt, hfits.length_le⟩
        (Call.wellFormed_of_message? hcall) (actsOf_sealed hcall _) ?_ ?_
      · rw [hr.role_eq, hfollows.recordWire_eq]
        rfl
      · simp only [advance, hr.role_eq, hentry, Option.toList_some]
        rfl
  | opened o ciphertext tag hcall hmay hfits hdecrypt hct hout _ =>
      dsimp only at hout
      subst hout hcall
      have hlive := hmay.live
      have hlt := Usage.nextSequence_lt_of_permits hfits.permits
      have hfollows := hr.follows_receive hlive
      have henc := hfollows.encryption_eq o.message ciphertext tag
      rw [hr.role_eq] at hlt hdecrypt
      rw [hfollows.sequence_eq] at hlt
      obtain ⟨hkey, hnonce, haad, -⟩ := Encryption.mk.inj henc
      rw [hkey, hnonce, haad] at hdecrypt
      refine .opened o aead ciphertext tag _ _ rfl rfl hallowed ?_ hdecrypt hlive hlt
        hfits.length_le hct (actsOf_opened _ o) rfl ?_
      · rw [hr.role_eq, hfollows.recordWire_eq]
        rfl
      · simp [advance, Session.entryOf]

/-! ### The log -/

/-- The entries of an endpoint on a channel. -/
def entriesOf (e : EndpointRole) (c : Channel) (log : List SealEntry) : List SealEntry :=
  log.filter fun x => x.sender = e ∧ x.message.channel = c

/-- What the log says about the run: on every channel the entries of an endpoint are the
messages it sealed, numbered from zero; they are sound, at distinct positions, and their
records are those returned. -/
structure Logged (secrets : EndpointRole → DerivedSecrets) (h : List NetEvent) (net : Net) :
    Prop where
  numbered : ∀ e c, (entriesOf e c net.log).map (fun x => (x.message, x.sequence)) =
    (onChannel c (sentBy e h)).zipIdx
  sound : ∀ x ∈ net.log, x.Sound (secrets x.sender)
  distinct : (net.log.map fun x => (x.index, x.sequence)).Nodup
  records : net.log.map SealEntry.record = sealedRecords h

theorem index_inj {x y : SealEntry} (hi : x.index = y.index) :
    x.sender = y.sender ∧ x.message.channel = y.message.channel := by
  obtain ⟨hc, hd⟩ := materialIndex_inj hi
  exact ⟨EndpointRole.sendDirection_inj hd, hc⟩

theorem Logged.getElem? (hl : Logged secrets h net) {x : SealEntry} (hx : x ∈ net.log) :
    (onChannel x.message.channel (sentBy x.sender h))[x.sequence]? = some x.message := by
  have hmem : (x.message, x.sequence) ∈
      (onChannel x.message.channel (sentBy x.sender h)).zipIdx := by
    rw [← hl.numbered x.sender x.message.channel]
    exact List.mem_map.mpr ⟨x, by simpa [entriesOf] using hx, rfl⟩
  exact List.mem_zipIdx_iff_getElem?.mp hmem

theorem Logged.exists_entry (hl : Logged secrets h net) {e : EndpointRole} {c : Channel} {i : ℕ}
    {m : Message} (hm : (onChannel c (sentBy e h))[i]? = some m) :
    ∃ x ∈ net.log, x.sender = e ∧ x.message = m ∧ x.sequence = i := by
  have hmem : (m, i) ∈ (onChannel c (sentBy e h)).zipIdx := List.mem_zipIdx_iff_getElem?.mpr hm
  rw [← hl.numbered e c] at hmem
  obtain ⟨x, hx, heq⟩ := List.mem_map.mp hmem
  obtain ⟨rfl, rfl⟩ := Prod.mk.inj heq
  simp only [entriesOf, List.mem_filter, decide_eq_true_eq] at hx
  exact ⟨x, hx.1, hx.2.1, rfl, rfl⟩

theorem Logged.sequence_lt (hl : Logged secrets h net) {x : SealEntry} (hx : x ∈ net.log) :
    x.sequence < (onChannel x.message.channel (sentBy x.sender h)).length := by
  have hget := hl.getElem? hx
  by_contra hge
  rw [List.getElem?_eq_none (by omega)] at hget
  cases hget

/-- An entry whose number is the length of its context has a position of its own. -/
theorem Logged.fresh (hl : Logged secrets h net) {x y : SealEntry} (hy : y ∈ net.log)
    (hx : x.sequence = (onChannel x.message.channel (sentBy x.sender h)).length) :
    (y.index, y.sequence) ≠ (x.index, x.sequence) := by
  intro heq
  obtain ⟨hi, hs⟩ := Prod.mk.inj heq
  obtain ⟨he, hc⟩ := index_inj hi
  have hlt := hl.sequence_lt hy
  rw [he, hc] at hlt
  omega

theorem logged_init : Logged secrets [] (init secrets) := by
  refine ⟨fun e c => rfl, ?_, List.nodup_nil, rfl⟩
  intro x hx
  cases hx

/-- A step that seals nothing keeps the log. -/
theorem Logged.unsent (hl : Logged secrets h net) (hlog : next.log = net.log)
    (hsent : sentOf (actsOf [(ev.call, ev.output)]) = []) (hrecord : ev.output.sealed? = none) :
    Logged secrets (h ++ [ev]) next := by
  refine ⟨fun e c => ?_, hlog ▸ hl.sound, hlog ▸ hl.distinct, ?_⟩
  · rw [hlog, sentBy_snoc_of_not_sent hsent, hl.numbered]
  · rw [hlog, hl.records, sealedRecords_snoc, hrecord, Option.toList_none, List.append_nil]

theorem Logged.sealed (hl : Logged secrets h net) {m : Message} {x : SealEntry}
    (hlog : next.log = net.log ++ [x]) (hmessage : x.message = m) (hsender : x.sender = ev.who)
    (hseq : x.sequence = (onChannel m.channel (sentBy ev.who h)).length)
    (hsound : x.Sound (secrets ev.who)) (hacts : actsOf [(ev.call, ev.output)] = [.sent m])
    (hrecord : ev.output.sealed? = some x.record) : Logged secrets (h ++ [ev]) next := by
  subst hmessage
  rw [← hsender] at hseq hsound
  refine ⟨fun e c => ?_, ?_, ?_, ?_⟩
  · rw [hlog, entriesOf, List.filter_append, List.map_append, ← entriesOf, hl.numbered]
    by_cases hwho : ev.who = e
    · subst hwho
      rw [sentBy_snoc_self, hacts, sentOf_sent, onChannel_append, onChannel_singleton,
        List.zipIdx_append]
      by_cases hc : x.message.channel = c
      · subst hc
        simp [hsender, hseq]
      · simp [hc]
    · rw [sentBy_snoc_ne hwho]
      simp [hsender, hwho]
  · intro y hy
    rw [hlog, List.mem_append, List.mem_singleton] at hy
    rcases hy with hy | rfl
    · exact hl.sound y hy
    · exact hsound
  · rw [hlog, List.map_append, List.map_cons, List.map_nil]
    refine List.nodup_append.mpr ⟨hl.distinct, List.nodup_singleton _, ?_⟩
    intro p hp q hq
    obtain ⟨y, hy, rfl⟩ := List.mem_map.mp hp
    rw [List.mem_singleton.mp hq]
    exact hl.fresh hy hseq
  · rw [hlog, List.map_append, hl.records, sealedRecords_snoc, hrecord]
    rfl

/-- **The log is faithful** in every run, whatever the AEAD answers. -/
theorem run_logged (hp : Path (Step allowed) (init secrets) h net) : Logged secrets h net := by
  refine hp.invariant (P := Logged secrets) logged_init ?_
  intro h net ev next hp ih hs
  cases step_cases hp hs with
  | quiet hacts hrecord hlog _ => exact ih.unsent hlog (by rw [hacts]; rfl) hrecord
  | sealed m x _ _ hx hsound _ hacts hrecord hlog =>
      subst hx
      exact ih.sealed hlog rfl rfl rfl hsound hacts hrecord
  | opened o _ _ _ _ _ _ _ _ _ _ _ _ _ _ hacts hrecord hlog =>
      exact ih.unsent hlog (by rw [hacts]; rfl) hrecord

/-- **What opens was sealed.**  Under an ideal AEAD the record an endpoint opens was sealed by
its peer, at the same position of the same channel and under the same key and hashes. -/
theorem exists_sealed (hp : Path (Step Aead.Ideal) (init secrets) h net)
    (hs : Step Aead.Ideal net ev next) {o : OpenedRecord}
    (hacts : actsOf [(ev.call, ev.output)] = [.received o.message]) :
    ∃ x ∈ net.log, x.sender = ev.who.peer ∧ x.message = o.message ∧
      x.sequence = (onChannel o.message.channel (receivedBy ev.who h)).length ∧
      ev.call = .openRecord x.record ∧
      (secrets ev.who).contextHash = (secrets ev.who.peer).contextHash ∧
      ((secrets ev.who).traffic x.index).key = ((secrets ev.who.peer).traffic x.index).key := by
  have hl := run_logged hp
  cases step_cases hp hs with
  | quiet hacts' _ _ _ => rw [hacts] at hacts'; cases hacts'
  | sealed m x _ _ _ _ _ hacts' _ _ => rw [hacts] at hacts'; cases hacts'
  | opened o' aead ciphertext tag traffic sequence htraffic hsequence hideal hcall hdecrypt _ hlt hle
      _ hacts' _ _ =>
      rw [hacts, List.singleton_inj, Act.received.injEq] at hacts'
      obtain rfl := OpenedRecord.message_inj hacts'
      obtain ⟨entry, hentry, hopens, hplain⟩ := hideal _ _ _ _ _ _ hdecrypt
      obtain ⟨x, hx, rfl⟩ := List.mem_map.mp hentry
      have hsound := hl.sound x hx
      have haad := hsound.aad_eq.symm.trans hopens.aad_eq
      obtain ⟨-, hcontext, hdir, hheader⟩ := aad_inj haad
      obtain ⟨ht, hc, hseq, -⟩ := encodeHeader_inj hsound.sequence_lt hsound.length_le hlt hle hheader
      have hsender : x.sender = ev.who.peer := by
        apply EndpointRole.sendDirection_inj
        rw [hdir, EndpointRole.sendDirection_peer]
      have hmessage : x.message = o.message := by
        have hp' : x.message.plaintext = o.message.plaintext :=
          hsound.plaintext_eq.symm.trans hplain
        cases hm : x.message
        simp_all
      have hindex : x.index = materialIndex o.message.channel ev.who.receiveDirection := by
        rw [SealEntry.index, hmessage, hsender, EndpointRole.sendDirection_peer]
      refine ⟨x, hx, hsender, hmessage, hseq.trans hsequence, ?_, ?_, ?_⟩
      · rw [hcall, SealEntry.record, hmessage, hseq, hopens.ciphertext_eq, hopens.tag_eq]
      · rw [← hsender]; exact hcontext.symm
      · have hkey := hsound.key_eq.symm.trans hopens.key_eq
        rw [← hsender, hkey, hindex, htraffic]

end Net

end G301.Inner
