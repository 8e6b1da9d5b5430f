import G301.Inner.Execution

/-! # Two endpoints and two reliable queues

The honest network: a `Fifo` is a Client and a Server session and, for each of them, the
records it sealed that its peer has not been given yet, in order.  In one step an endpoint
makes a local call, whose record joins its queue, or is given the record at the head of its
peer's queue.  The AEAD is one correct function for the whole run.

`Fifo.Consistent` ties the two endpoints together: what an endpoint that has not failed
opened, followed by what is in flight towards it, is what its peer sealed, and every record in
flight is the encryption of its message at its position (`Fifo.Queued`).
`Fifo.run_consistent` proves it for every run, `Fifo.deliver_cases` lists what a delivery can
do, and `Fifo.accepts_head` is the law of honest delivery. -/

namespace G301.Inner

open ByteString Lts Net

/-- A sealed record on its way: its bytes, what it says, and the session of its sender right
after the seal. -/
structure InFlight where
  record : Bytes
  message : Message
  sender : Session

structure Fifo where
  session : EndpointRole → Session
  /-- The records an endpoint sealed and its peer has not been given, oldest first. -/
  queue : EndpointRole → List InFlight

namespace Fifo

def init (secrets : DerivedSecrets) : Fifo :=
  ⟨fun e => Session.ofSecrets e secrets, fun _ => []⟩

/-- The record a call put on the wire. -/
def inFlight? (call : Call) (r : Output × Session) : Option InFlight := do
  let m ← call.message?
  let record ← r.1.sealed?
  return ⟨record, m, r.2⟩

/-- The endpoints after a local call of `who`. -/
def afterLocal (fifo : Fifo) (who : EndpointRole) (call : Call) (r : Output × Session) : Fifo :=
  ⟨Function.update fifo.session who r.2,
    Function.update fifo.queue who (fifo.queue who ++ (inFlight? call r).toList)⟩

/-- The endpoints after `who` was given the head of its peer's queue. -/
def afterDeliver (fifo : Fifo) (who : EndpointRole) (rest : List InFlight) (next : Session) :
    Fifo :=
  ⟨Function.update fifo.session who next, Function.update fifo.queue who.peer rest⟩

/-- One step: a local call, or the delivery of the head of a queue. -/
inductive Step (aead : Aead) (fifo : Fifo) (ev : NetEvent) (next : Fifo) : Prop
  | call (hlocal : ∀ input, ev.call ≠ .openRecord input) (r : Output × Session)
      (hr : (fifo.session ev.who).step aead ev.call = r) (hout : ev.output = r.1)
      (hnext : next = fifo.afterLocal ev.who ev.call r)
  | deliver (x : InFlight) (rest : List InFlight) (hqueue : fifo.queue ev.who.peer = x :: rest)
      (hcall : ev.call = .openRecord x.record) (r : Output × Session)
      (hr : (fifo.session ev.who).step aead ev.call = r) (hout : ev.output = r.1)
      (hnext : next = fifo.afterDeliver ev.who rest r.2)

variable {aead : Aead} {secrets : DerivedSecrets} {h : List NetEvent} {fifo next : Fifo}
variable {ev : NetEvent} {e : EndpointRole}

theorem Step.session_who (hs : Step aead fifo ev next) :
    (fifo.session ev.who).step aead ev.call = (ev.output, next.session ev.who) := by
  cases hs with
  | call _ r hr hout hnext => rw [hr, hout, hnext]; simp [afterLocal]
  | deliver _ _ _ _ r hr hout hnext => rw [hr, hout, hnext]; simp [afterDeliver]

theorem Step.session_ne (hs : Step aead fifo ev next) (hne : ev.who ≠ e) :
    next.session e = fifo.session e := by
  cases hs with
  | call _ r hr hout hnext => rw [hnext]; exact Function.update_of_ne hne.symm _ _
  | deliver _ _ _ _ r hr hout hnext => rw [hnext]; exact Function.update_of_ne hne.symm _ _

/-- An endpoint of a run is a run of its own. -/
theorem path_session {start : Fifo} (hp : Path (Step aead) start h fifo) (e : EndpointRole) :
    Path Session.Step (start.session e) (eventsOf e h) (fifo.session e) := by
  refine hp.invariant (P := fun h fifo =>
    Path Session.Step (start.session e) (eventsOf e h) (fifo.session e)) .nil ?_
  intro h fifo ev next _ ih hs
  by_cases hwho : ev.who = e
  · subst hwho
    rw [eventsOf_snoc_self]
    exact ih.snoc ⟨aead, hs.session_who⟩
  · rw [eventsOf_snoc_ne hwho, hs.session_ne hwho]
    exact ih

theorem run_refines (hp : Path (Step aead) (init secrets) h fifo) (e : EndpointRole) :
    ∃ d, Path Duplex.Step Duplex.init (actsOf (eventsOf e h)) d ∧
      Session.Refines e secrets (actsOf (eventsOf e h)) d (fifo.session e) :=
  Session.run_refines (path_session hp e)

/-! ### Records in flight -/

/-- The record was sealed as the next of `who`, after the messages `sent`: its bytes are the
encryption at that position, and the sender went on with the counters or, at a hard limit,
erased itself. -/
structure SealedAfter (aead : Aead) (secrets : DerivedSecrets) (who : EndpointRole)
    (sent : List Message) (x : InFlight) : Prop where
  encrypted : ∃ y : Encryption,
    y = nextEncryption secrets who.sendDirection sent x.message y.ciphertext y.tag ∧
      aead.encrypt y.key y.nonce y.aad y.plaintext = some (y.ciphertext, y.tag) ∧
      y.ciphertext.length = x.message.plaintext.length ∧
      x.record = wire x.message.recordType x.message.channel
        (onChannel x.message.channel sent).length y.ciphertext y.tag
  wellFormed : x.message.WellFormed
  permits : (usageOf x.message.channel sent).permits x.message.plaintext.length = true
  length_le : x.message.plaintext.length ≤ maxPlaintext
  erased : ((usageOf x.message.channel sent).add
      x.message.plaintext.length).hardLimitReached = true →
    x.sender.state = .failed ∧ x.sender.Erased
  counted : ((usageOf x.message.channel sent).add
      x.message.plaintext.length).hardLimitReached = false →
    x.sender.state ≠ .failed ∧ (x.sender.Live →
      x.sender.usageOn who.sendDirection x.message.channel =
        (usageOf x.message.channel sent).add x.message.plaintext.length)

/-- The records were sealed one after the other, the first after the messages `sent`. -/
def Queued (aead : Aead) (secrets : DerivedSecrets) (who : EndpointRole) :
    List Message → List InFlight → Prop
  | _, [] => True
  | sent, x :: queue =>
      SealedAfter aead secrets who sent x ∧ Queued aead secrets who (sent ++ [x.message]) queue

theorem queued_snoc {who : EndpointRole} {sent : List Message} {queue : List InFlight}
    {x : InFlight} (hq : Queued aead secrets who sent queue)
    (hx : SealedAfter aead secrets who (sent ++ queue.map InFlight.message) x) :
    Queued aead secrets who sent (queue ++ [x]) := by
  induction queue generalizing sent with
  | nil => exact ⟨by simpa using hx, trivial⟩
  | cons y queue ih => exact ⟨hq.1, ih hq.2 (by simpa using hx)⟩

/-- The two endpoints fit together: what `e` opened, while it has not failed, and what is on
its way to `e` is what its peer sealed; a sender that closed on a record had opened a Close. -/
structure Consistent (aead : Aead) (secrets : DerivedSecrets) (h : List NetEvent) (fifo : Fifo) :
    Prop where
  inFlight : ∀ e, ∃ sent, Queued aead secrets e.peer sent (fifo.queue e.peer) ∧
    sentBy e.peer h = sent ++ (fifo.queue e.peer).map InFlight.message ∧
    receivedBy e h <+: sent ∧ ((fifo.session e).state ≠ .failed → receivedBy e h = sent)
  closed : ∀ e, ∀ x ∈ fifo.queue e.peer, x.sender.state = .closed →
    ∃ m ∈ sentBy e h, m.recordType = .close

theorem Consistent.isPrefix (hc : Consistent aead secrets h fifo) (e : EndpointRole) :
    receivedBy e h <+: sentBy e.peer h := by
  obtain ⟨sent, -, hsent, hpre, -⟩ := hc.inFlight e
  rw [hsent]
  exact hpre.trans (List.prefix_append _ _)

/-! ### The head of a queue -/

section head
variable {x : InFlight} {rest : List InFlight} {d : Duplex}

/-- The head of the queue is the next move of the receiver's incoming stream. -/
theorem exists_next_head (hp : Path (Step aead) (init secrets) h fifo)
    (hc : Consistent aead secrets h fifo) (hqueue : fifo.queue e.peer = x :: rest)
    (hd : Path Duplex.Step Duplex.init (actsOf (eventsOf e h)) d)
    (hne : (fifo.session e).state ≠ .failed) :
    ∃ k, d.receive.next x.message.recordType = some k := by
  obtain ⟨sent, -, hsent, -, hreceived⟩ := hc.inFlight e
  obtain ⟨d', hd', -⟩ := run_refines hp e.peer
  have hafter := (Duplex.run_halves hd).2
  have hafter' := (Duplex.run_halves hd').1
  rw [← receivedBy, hreceived hne] at hafter
  rw [← sentBy, hsent, hqueue, List.map_cons, List.map_append, List.map_cons] at hafter'
  exact Half.exists_next_of_after hafter hafter'

/-- Once its peer sealed anything but a Commit, an endpoint has sealed its own Commit. -/
theorem send_ne_idle (hp : Path (Step aead) (init secrets) h fifo)
    (hc : Consistent aead secrets h fifo)
    (hd : Path Duplex.Step Duplex.init (actsOf (eventsOf e h)) d) {m : Message}
    (hm : m ∈ sentBy e.peer h) (ht : m.recordType ≠ .commit) : d.send ≠ .idle := by
  obtain ⟨d', hd', -⟩ := run_refines hp e.peer
  obtain ⟨-, hreceive⟩ := Duplex.run_committed hd' ⟨.sent m, sent_mem_of_mem_sentOf hm, ht⟩
  have hcommit := Half.commit_mem_of_after (Duplex.run_halves hd').2 hreceive
  obtain ⟨c, hmem, -⟩ := List.mem_map.mp hcommit
  have hsent : c ∈ sentBy e.peer.peer h := (hc.isPrefix e.peer).subset hmem
  rw [EndpointRole.peer_peer] at hsent
  intro hidle
  have hafter := (Duplex.run_halves hd).1
  rw [hidle] at hafter
  have hnil : sentBy e h = [] := List.map_eq_nil_iff.mp (Half.after_idle hafter)
  rw [hnil] at hsent
  cases hsent

/-- An endpoint that is Committing or Active may open the head of its peer's queue. -/
theorem mayOpen_head (hp : Path (Step aead) (init secrets) h fifo)
    (hc : Consistent aead secrets h fifo) (hqueue : fifo.queue e.peer = x :: rest)
    (hst : (fifo.session e).state = .committing ∨ (fifo.session e).state = .active) :
    (fifo.session e).MayOpen x.message.recordType := by
  obtain ⟨d, hd, hr⟩ := run_refines hp e
  have hne : (fifo.session e).state ≠ .failed := by rcases hst with h | h <;> simp [h]
  have hstate := hr.state_eq hne
  obtain ⟨k, hnext⟩ := exists_next_head hp hc hqueue hd hne
  obtain ⟨sent, -, hsent, -⟩ := hc.inFlight e
  have hmem : x.message ∈ sentBy e.peer h := by simp [hsent, hqueue]
  have hsend := send_ne_idle hp hc hd hmem
  apply (Session.mayOpen_iff (hr.flags hne) hstate _).mpr
  -- Committing with the incoming stream open would mean that the outgoing one is still idle
  have hactive : d.receive = .opened → x.message.recordType ≠ .commit → d.send = .opened := by
    intro hopened ht
    rcases hst with hst | hst
    · rcases Duplex.state_eq_committing.mp (hstate.symm.trans hst) with hidle | hidle
      · exact absurd hidle (hsend ht)
      · rw [hopened] at hidle
        cases hidle
    · exact (Duplex.state_eq_active.mp (hstate.symm.trans hst)).1
  cases ht : x.message.recordType <;> rw [ht] at hnext hactive <;>
    cases hreceive : d.receive <;> rw [hreceive] at hnext hactive <;>
    simp [Half.next, Duplex.May] at hnext hactive ⊢ <;> simp [hactive]

end head

/-- What the delivery of the record `x` to a session can do. -/
inductive DeliverCase (session : Session) (x : InFlight) (r : Output × Session) : Prop
  | failed (hst : session.state = .failed)
      (hr : r = (.opened (.error .invalidState), session))
  | refused (error : Error) (hlive : session.Live) (hnot : ¬ session.MayOpen x.message.recordType)
      (hr : r = (.opened (.error error), session.dead))
  | accepted (o : OpenedRecord) (ho : o.message = x.message)
      (hmay : session.MayOpen x.message.recordType)
      (hr : r = (.opened (.ok o), session.afterOpened x.message))

section delivery
variable {session : Session} {sent : List Message} {x : InFlight}

theorem SealedAfter.fits (hx : SealedAfter aead secrets session.role.peer sent x)
    (hfollows : session.Follows secrets session.role.receiveDirection sent) :
    session.Fits session.role.receiveDirection x.message :=
  ⟨by rw [hfollows.usage_eq]; exact hx.permits, hx.length_le⟩

/-- The session opens the record that was sealed at its position, if its state allows. -/
theorem SealedAfter.opened (haead : aead.Correct)
    (hx : SealedAfter aead secrets session.role.peer sent x)
    (hfollows : session.Follows secrets session.role.receiveDirection sent) {o : OpenedRecord}
    (ho : o.message = x.message) (hmay : session.MayOpen x.message.recordType) :
    session.step aead (.openRecord x.record) =
      (.opened (.ok o), session.afterOpened x.message) := by
  have hfits := hx.fits hfollows
  obtain ⟨y, hy, hencrypt, hlen, hrecord⟩ := hx.encrypted
  rw [EndpointRole.sendDirection_peer] at hy
  have henc := (hfollows.encryption_eq x.message y.ciphertext y.tag).trans hy.symm
  obtain ⟨hkey, hnonce, haad, hplain, -⟩ := Encryption.mk.inj henc
  obtain ⟨ct, tag, hencrypt', -, hdecrypt⟩ := haead y.key y.nonce y.aad y.plaintext
  rw [hencrypt, Option.some.injEq, Prod.mk.injEq] at hencrypt'
  obtain ⟨rfl, rfl⟩ := hencrypt'
  rw [← hkey, ← hnonce, ← haad, ← hplain] at hdecrypt
  rw [hrecord, ← hfollows.recordWire_eq]
  rw [← ho] at hmay hfits hdecrypt hlen ⊢
  exact Session.openRecord_recordWire hmay hfits hdecrypt hlen

/-- A live session whose state does not allow the record refuses it. -/
theorem SealedAfter.refused (hx : SealedAfter aead secrets session.role.peer sent x)
    (hfollows : session.Follows secrets session.role.receiveDirection sent)
    (hlive : session.Live) (hnot : ¬ session.MayOpen x.message.recordType) :
    ∃ error, session.step aead (.openRecord x.record) =
      (.opened (.error error), session.dead) := by
  have hcase := Session.step_cases aead session (.openRecord x.record)
  cases hcase with
  | terminal hterm _ _ => exact absurd hterm (by simp [hlive])
  | refused error _ hout hnext => exact ⟨error, Prod.ext hout hnext⟩
  | sealed _ _ _ hcall _ _ _ _ _ _ => cases hcall
  | opened o ct tag hcall hmay hfits _ hct _ _ =>
      -- the bytes of the record fix its type
      obtain ⟨y, -, -, hlen, hrecord⟩ := hx.encrypted
      rw [Call.openRecord.injEq, hrecord, hfollows.recordWire_eq] at hcall
      have hlt := Usage.nextSequence_lt_of_permits hx.permits
      have hlt' := Usage.nextSequence_lt_of_permits hfits.permits
      rw [nextSequence_usageOf] at hlt
      rw [hfollows.sequence_eq] at hlt'
      obtain ⟨ht, -⟩ := wire_inj hlt (hlen ▸ hx.length_le) hlt' (hct ▸ hfits.length_le) hcall
      rw [ht] at hnot
      exact absurd hmay hnot

end delivery

/-- **Delivery.**  A live endpoint opens the head of its peer's queue unless its state does
not allow the type of the record. -/
theorem deliver_cases (haead : aead.Correct) (hp : Path (Step aead) (init secrets) h fifo)
    (hc : Consistent aead secrets h fifo) {x : InFlight} {rest : List InFlight}
    (hqueue : fifo.queue e.peer = x :: rest) :
    DeliverCase (fifo.session e) x ((fifo.session e).step aead (.openRecord x.record)) := by
  obtain ⟨sent, hqueued, -, -, hreceived⟩ := hc.inFlight e
  obtain ⟨d, hd, hr⟩ := run_refines hp e
  by_cases hfailed : (fifo.session e).state = .failed
  · refine .failed hfailed ?_
    have hterm : (fifo.session e).state.terminal = true := by rw [hfailed]; rfl
    simp only [Session.step, Session.openRecord, if_pos hterm]
  have hlive : (fifo.session e).Live := by
    by_contra hterm
    rcases SessionState.eq_of_terminal (Bool.not_eq_false _ ▸ hterm) with hclosed | hfailed'
    · -- nothing follows a Close
      obtain ⟨k, hnext⟩ := exists_next_head hp hc hqueue hd hfailed
      rw [(Duplex.state_eq_closed.mp ((hr.state_eq hfailed).symm.trans hclosed)).2] at hnext
      cases hnext
    · exact hfailed hfailed'
  have hfollows := hr.follows_receive hlive
  rw [← receivedBy, hreceived hfailed] at hfollows
  rw [hqueue] at hqueued
  have hx := hqueued.1
  have hrole := hr.role_eq
  generalize fifo.session e = session at hlive hfollows hrole ⊢
  subst hrole
  obtain ⟨o, ho⟩ := hx.wellFormed.exists_opened
  by_cases hmay : session.MayOpen x.message.recordType
  · exact .accepted o ho hmay (hx.opened haead hfollows ho hmay)
  · obtain ⟨error, hstep⟩ := hx.refused hfollows hlive hmay
    exact .refused error hlive hmay hstep

/-! ### Consistency of every run -/

theorem consistent_init : Consistent aead secrets [] (init secrets) := by
  refine ⟨fun e => ⟨[], trivial, rfl, List.prefix_refl _, fun _ => rfl⟩, ?_⟩
  intro e x hx
  cases hx

/-- The lists of an endpoint only grow. -/
theorem mem_sentBy_snoc {m : Message} (hm : m ∈ sentBy e h) : m ∈ sentBy e (h ++ [ev]) := by
  by_cases hwho : ev.who = e
  · subst hwho
    rw [sentBy_snoc_self]
    exact List.mem_append_left _ hm
  · rwa [sentBy_snoc_ne hwho]

/-- A step that moves no message keeps the endpoints consistent. -/
theorem Consistent.quiet (hc : Consistent aead secrets h fifo) (hqueue : next.queue = fifo.queue)
    (hacts : actsOf [(ev.call, ev.output)] = [])
    (hstate : ∀ e, (next.session e).state ≠ .failed → (fifo.session e).state ≠ .failed) :
    Consistent aead secrets (h ++ [ev]) next := by
  have hsame : ∀ e, sentBy e (h ++ [ev]) = sentBy e h :=
    sentBy_snoc_of_not_sent (by rw [hacts]; rfl)
  have hsame' : ∀ e, receivedBy e (h ++ [ev]) = receivedBy e h :=
    receivedBy_snoc_of_not_received (by rw [hacts]; rfl)
  constructor
  · intro e
    obtain ⟨sent, hqueued, hsent, hpre, hreceived⟩ := hc.inFlight e
    rw [hqueue, hsame, hsame']
    exact ⟨sent, hqueued, hsent, hpre, fun hne => hreceived (hstate e hne)⟩
  · intro e x hx hst
    rw [hqueue] at hx
    rw [hsame]
    exact hc.closed e x hx hst

/-- A sealed record joins the queue of its sender. -/
theorem Consistent.sealed (hc : Consistent aead secrets h fifo) {x : InFlight}
    (hqueue : next.queue = Function.update fifo.queue ev.who (fifo.queue ev.who ++ [x]))
    (hacts : actsOf [(ev.call, ev.output)] = [.sent x.message])
    (hlive : (fifo.session ev.who).state ≠ .failed)
    (hother : ∀ e, ev.who ≠ e → next.session e = fifo.session e)
    (hx : SealedAfter aead secrets ev.who (sentBy ev.who h) x)
    (hclosed : x.sender.state = .closed → ∃ m ∈ receivedBy ev.who h, m.recordType = .close) :
    Consistent aead secrets (h ++ [ev]) next := by
  have hsame : ∀ e, receivedBy e (h ++ [ev]) = receivedBy e h :=
    receivedBy_snoc_of_not_received (by rw [hacts]; rfl)
  have hcases : ∀ e : EndpointRole, e = ev.who ∨ e.peer = ev.who := by
    intro e
    rcases EndpointRole.eq_or_eq_peer e ev.who with heq | heq
    · exact .inl heq.symm
    · exact .inr heq.symm
  constructor
  · intro e
    obtain ⟨sent, hqueued, hsent, hpre, hreceived⟩ := hc.inFlight e
    rw [hqueue, hsame]
    rcases hcases e with rfl | hpeer
    · rw [Function.update_of_ne ev.who.peer_ne, sentBy_snoc_ne ev.who.peer_ne.symm]
      exact ⟨sent, hqueued, hsent, hpre, fun _ => hreceived hlive⟩
    · have hne : ev.who ≠ e := by rw [← hpeer]; exact e.peer_ne
      rw [hpeer] at hqueued hsent ⊢
      rw [Function.update_self, hother e hne, sentBy_snoc_self, hacts, sentOf_sent]
      refine ⟨sent, queued_snoc hqueued ?_, ?_, hpre, hreceived⟩
      · rw [← hsent]
        exact hx
      · rw [hsent, List.map_append, List.append_assoc]
        rfl
  · intro e y hy hst
    rw [hqueue] at hy
    rcases hcases e with rfl | hpeer
    · rw [Function.update_of_ne ev.who.peer_ne] at hy
      obtain ⟨m, hm, ht⟩ := hc.closed ev.who y hy hst
      exact ⟨m, mem_sentBy_snoc hm, ht⟩
    · rw [hpeer, Function.update_self, List.mem_append, List.mem_singleton] at hy
      rcases hy with hy | rfl
      · obtain ⟨m, hm, ht⟩ := hc.closed e y (by rw [hpeer]; exact hy) hst
        exact ⟨m, mem_sentBy_snoc hm, ht⟩
      · obtain ⟨m, hm, ht⟩ := hclosed hst
        have hsent := (hc.isPrefix ev.who).subset hm
        rw [← hpeer, EndpointRole.peer_peer] at hsent
        exact ⟨m, mem_sentBy_snoc hsent, ht⟩

/-- A delivered record leaves the queue; it was opened or the receiver is failed. -/
theorem Consistent.delivered (hc : Consistent aead secrets h fifo) {x : InFlight}
    {rest : List InFlight} (hqueue : fifo.queue ev.who.peer = x :: rest)
    (hnext : next.queue = Function.update fifo.queue ev.who.peer rest)
    (hother : ∀ e, ev.who ≠ e → next.session e = fifo.session e)
    (hsent : sentOf (actsOf [(ev.call, ev.output)]) = [])
    (hout : (next.session ev.who).state = .failed ∧
        receivedOf (actsOf [(ev.call, ev.output)]) = [] ∨
      (fifo.session ev.who).state ≠ .failed ∧
        receivedOf (actsOf [(ev.call, ev.output)]) = [x.message]) :
    Consistent aead secrets (h ++ [ev]) next := by
  have hsame : ∀ e, sentBy e (h ++ [ev]) = sentBy e h := sentBy_snoc_of_not_sent hsent
  constructor
  · intro e
    obtain ⟨sent, hqueued, hsent, hpre, hreceived⟩ := hc.inFlight e
    rw [hnext, hsame]
    by_cases hwho : ev.who = e
    · subst hwho
      rw [hqueue] at hqueued hsent
      rw [Function.update_self, receivedBy_snoc_self]
      refine ⟨sent ++ [x.message], hqueued.2, by simp [hsent], ?_, ?_⟩
      · rcases hout with ⟨-, hnil⟩ | ⟨hne, hopen⟩
        · rw [hnil, List.append_nil]
          exact hpre.trans (List.prefix_append _ _)
        · simp [hopen, hreceived hne]
      · intro hne
        rcases hout with ⟨hfailed, -⟩ | ⟨hne', hopen⟩
        · exact absurd hfailed hne
        · rw [hopen, hreceived hne']
    · have hpeer : e.peer ≠ ev.who.peer := by
        intro heq
        have := congrArg EndpointRole.peer heq
        rw [EndpointRole.peer_peer, EndpointRole.peer_peer] at this
        exact hwho this.symm
      rw [Function.update_of_ne hpeer, receivedBy_snoc_ne hwho, hother e hwho]
      exact ⟨sent, hqueued, hsent, hpre, hreceived⟩
  · intro e y hy hst
    rw [hsame]
    refine hc.closed e y ?_ hst
    rw [hnext] at hy
    by_cases hpeer : e.peer = ev.who.peer
    · rw [hpeer, Function.update_self] at hy
      rw [hpeer, hqueue]
      exact List.mem_cons_of_mem _ hy
    · rwa [Function.update_of_ne hpeer] at hy

theorem noteSealed_state_ne_failed {session : Session} (hne : session.state ≠ .failed)
    (t : RecordType) : (session.noteSealed t).state ≠ .failed := by
  cases t with
  | data => exact hne
  | refreshRequired => exact hne
  | commit =>
      simp only [Session.noteSealed]
      split
      · simp
      · exact hne
  | close =>
      simp only [Session.noteSealed]
      rcases Session.finishCloseIfComplete_cases
        { session with localCloseSent := true, state := .draining } with h | h <;> rw [h] <;> simp

/-- A record that a session seals is sealed at its position. -/
theorem sealedAfter_of_seal {session : Session} {acts : List Act} {d : Duplex} {m : Message}
    {ciphertext : Bytes} {tag : Vector UInt8 tagLen}
    (hr : Session.Refines e secrets acts d session) (hwf : m.WellFormed)
    (hmay : session.MaySeal m.recordType)
    (hfits : session.Fits session.role.sendDirection m)
    (hencrypt : aead.encrypt (session.keyOn session.role.sendDirection m.channel)
      (session.recordNonce session.role.sendDirection m.channel)
      (session.recordAad session.role.sendDirection m) m.plaintext = some (ciphertext, tag))
    (hct : ciphertext.length = m.plaintext.length) :
    SealedAfter aead secrets e (sentOf acts)
      ⟨session.recordWire session.role.sendDirection m ciphertext tag, m,
        session.afterSealed m⟩ := by
  have hlive := hmay.live
  have hfollows := hr.follows_send hlive
  obtain ⟨hpermits, hle⟩ := hfits
  have hafter := hr.afterSealed hmay
  have hlimit : ∀ b, ((usageOf m.channel (sentOf acts)).add m.plaintext.length).hardLimitReached = b →
      session.reachesLimit session.role.sendDirection m = b := by
    intro b hb
    rw [Session.reachesLimit, hr.role_eq, hfollows.usage_eq, hb]
  rw [hr.role_eq] at hpermits hencrypt
  rw [hfollows.usage_eq] at hpermits
  have henc := hfollows.encryption_eq m ciphertext tag
  obtain ⟨hkey, hnonce, haad, -⟩ := Encryption.mk.inj henc
  rw [hkey, hnonce, haad] at hencrypt
  refine ⟨⟨nextEncryption secrets e.sendDirection (sentOf acts) m ciphertext tag, rfl, hencrypt,
    hct, ?_⟩, hwf, hpermits, hle, ?_, ?_⟩
  · dsimp only
    rw [hr.role_eq, hfollows.recordWire_eq]
    rfl
  · intro hlim
    dsimp only
    rw [Session.afterSealed_of_limit (hlimit _ hlim)]
    exact ⟨rfl, session.erased_dead⟩
  · intro hlim
    constructor
    · dsimp only
      rw [Session.afterSealed_of_not_limit (hlimit _ hlim)]
      have hne : (session.counted session.role.sendDirection m).state ≠ .failed :=
        hlive.state_ne_failed
      exact noteSealed_state_ne_failed hne _
    · intro hlive'
      obtain ⟨d', -, hr'⟩ := hafter
      have husage := hr'.sendUsage hlive' m.channel
      rw [sentOf_append, sentOf_sent, usageOf_snoc, if_pos rfl] at husage
      exact husage

/-- A session that closes on a seal had opened a Close. -/
theorem received_close_of_afterSealed {session : Session} {acts : List Act} {d : Duplex}
    {m : Message} (hd : Path Duplex.Step Duplex.init acts d)
    (hr : Session.Refines e secrets acts d session) (hmay : session.MaySeal m.recordType)
    (hclosed : (session.afterSealed m).state = .closed) :
    ∃ c ∈ receivedOf acts, c.recordType = .close := by
  obtain ⟨d', hstep, hr'⟩ := hr.afterSealed hmay
  have hstate := hr'.state_eq (by simp [hclosed])
  have hhalves := (Duplex.run_halves (hd.snoc hstep)).2
  rw [(Duplex.state_eq_closed.mp (hstate.symm.trans hclosed)).2, receivedOf_append,
    receivedOf_sent, List.append_nil] at hhalves
  obtain ⟨_, htypes, -⟩ := Half.after_closed hhalves
  have hmem : RecordType.close ∈ (receivedOf acts).map Message.recordType := by
    rw [htypes]
    simp
  exact List.mem_map.mp hmem

theorem Consistent.step (haead : aead.Correct) (hp : Path (Step aead) (init secrets) h fifo)
    (hc : Consistent aead secrets h fifo) (hs : Step aead fifo ev next) :
    Consistent aead secrets (h ++ [ev]) next := by
  have hother : ∀ e, ev.who ≠ e → next.session e = fifo.session e := fun e => hs.session_ne
  obtain ⟨d, hd, hr⟩ := run_refines hp ev.who
  have hwho := hs.session_who
  cases hs with
  | call hlocal r hrun hout hnext =>
      have hcase := Session.step_cases aead (fifo.session ev.who) ev.call
      rw [hwho] at hcase
      have hquiet : ∀ error, ev.output = ev.call.refusal error →
          ((next.session ev.who).state ≠ .failed → (fifo.session ev.who).state ≠ .failed) →
          Consistent aead secrets (h ++ [ev]) next := by
        intro error herror hst
        refine hc.quiet ?_ (by rw [herror]; exact actsOf_refusal _ _) ?_
        · have hnone : inFlight? ev.call r = none := by
            rw [inFlight?, ← hout, herror, sealed_refusal]
            cases ev.call.message? <;> rfl
          rw [hnext, afterLocal, hnone]
          simp
        · intro e
          by_cases he : ev.who = e
          · exact he ▸ hst
          · rw [hother e he]
            exact id
      cases hcase with
      | terminal _ herror hsame =>
          dsimp only at hsame
          exact hquiet _ herror (by rw [hsame]; exact id)
      | refused error _ herror hdead =>
          dsimp only at hdead
          exact hquiet _ herror fun hne => absurd (by rw [hdead]; rfl) hne
      | opened _ _ _ hcall _ _ _ _ _ _ => exact absurd hcall (hlocal _)
      | sealed m ciphertext tag hcall hmay hfits hencrypt hct hout' hafter =>
          dsimp only at hout' hafter
          have hx : inFlight? ev.call r = some ⟨(fifo.session ev.who).recordWire
              (fifo.session ev.who).role.sendDirection m ciphertext tag, m,
              (fifo.session ev.who).afterSealed m⟩ := by
            have hr2 : r.2 = (fifo.session ev.who).afterSealed m := by
              rw [← hafter, hnext]
              simp [afterLocal]
            rw [inFlight?, hcall, ← hout, hout', hr2]
            rfl
          have hwf := Call.wellFormed_of_message? hcall
          refine hc.sealed ?_ (by rw [hout', actsOf_sealed hcall]) hmay.live.state_ne_failed hother
            (sealedAfter_of_seal hr hwf hmay hfits hencrypt hct)
            (received_close_of_afterSealed hd hr hmay)
          rw [hnext, afterLocal, hx]
          rfl
  | deliver x rest hqueue hcall r hrun hout hnext =>
      have hcase := deliver_cases haead hp hc hqueue
      rw [← hcall, hwho] at hcase
      have hnextq : next.queue = Function.update fifo.queue ev.who.peer rest := by rw [hnext]; rfl
      cases hcase with
      | failed hst hr' =>
          obtain ⟨hout', hsame⟩ := Prod.mk.inj hr'
          refine hc.delivered hqueue hnextq hother ?_ (.inl ⟨by rw [hsame, hst], ?_⟩) <;>
            rw [hout'] <;> rfl
      | refused error hlive _ hr' =>
          obtain ⟨hout', hdead⟩ := Prod.mk.inj hr'
          refine hc.delivered hqueue hnextq hother ?_ (.inl ⟨by rw [hdead]; rfl, ?_⟩) <;>
            rw [hout'] <;> rfl
      | accepted o ho hmay hr' =>
          obtain ⟨hout', -⟩ := Prod.mk.inj hr'
          refine hc.delivered hqueue hnextq hother ?_ (.inr ⟨hmay.live.state_ne_failed, ?_⟩) <;>
            rw [hout', actsOf_opened]
          · rfl
          · rw [receivedOf_received, ho]

/-- **Consistency.**  It holds of every run. -/
theorem run_consistent (haead : aead.Correct) (hp : Path (Step aead) (init secrets) h fifo) :
    Consistent aead secrets h fifo :=
  hp.invariant (P := Consistent aead secrets) consistent_init
    fun _ _ _ _ hp hc hs => hc.step haead hp hs

/-! ### Honest delivery -/

section
variable {session : Session} {m : Message}

/-- Opening a record ends a session only on the second Close. -/
theorem noteOpened_frame {t : RecordType} (hlive : session.Live)
    (hclose : session.localCloseSent = false) :
    (session.noteOpened t).Live ∧ (session.noteOpened t).usage = session.usage := by
  cases t with
  | data => exact ⟨hlive, rfl⟩
  | refreshRequired => exact ⟨hlive, rfl⟩
  | commit =>
      simp only [Session.noteOpened]
      split
      · exact ⟨rfl, rfl⟩
      · exact ⟨hlive, rfl⟩
  | close =>
      simp [Session.noteOpened, Session.finishCloseIfComplete, hclose, Session.Live,
        SessionState.terminal]

theorem afterOpened_of_limit (hlive : session.Live) (hclose : session.localCloseSent = false)
    (hlim : session.reachesLimit session.role.receiveDirection m = true) :
    (session.afterOpened m).state = .failed ∧ (session.afterOpened m).Erased := by
  have hnoted : ((session.counted session.role.receiveDirection m).noteOpened m.recordType).Live :=
    (@noteOpened_frame (session.counted session.role.receiveDirection m) _ hlive hclose).1
  simp only [Session.afterOpened, Session.terminateIfHardLimitReached, hlim, hnoted,
    Bool.not_false, Bool.and_self, if_true]
  exact ⟨rfl, Session.erased_dead _⟩

theorem afterOpened_of_not_limit (hlive : session.Live) (hclose : session.localCloseSent = false)
    (hlim : session.reachesLimit session.role.receiveDirection m = false) :
    (session.afterOpened m).usageOn session.role.receiveDirection m.channel =
      (session.usageOn session.role.receiveDirection m.channel).add m.plaintext.length := by
  have husage := (@noteOpened_frame (session.counted session.role.receiveDirection m)
    m.recordType hlive hclose).2
  simp only [Session.afterOpened, Session.terminateIfHardLimitReached, hlim, Bool.false_and,
    Bool.false_eq_true, if_false]
  rw [Session.usageOn, husage, ← Session.usageOn, Session.usageOn_counted]
  simp

end

/-- **Honest delivery is accepted.**  An endpoint that is Committing or Active opens the head
of its peer's queue as what the peer sealed.  Its counters are then those the sender had after
the seal; at a hard limit it is erased, as the sender was. -/
theorem accepts_head (haead : aead.Correct) (hp : Path (Step aead) (init secrets) h fifo)
    (hs : Step aead fifo ev next) {x : InFlight} {rest : List InFlight}
    (hqueue : fifo.queue ev.who.peer = x :: rest) (hcall : ev.call = .openRecord x.record)
    (hst : (fifo.session ev.who).state = .committing ∨ (fifo.session ev.who).state = .active) :
    ∃ o, ev.output = .opened (.ok o) ∧ o.message = x.message ∧
      if (fifo.session ev.who).reachesLimit ev.who.receiveDirection x.message then
        ((next.session ev.who).state = .failed ∧ (next.session ev.who).Erased) ∧
          x.sender.state = .failed ∧ x.sender.Erased
      else
        (next.session ev.who).usageOn ev.who.receiveDirection x.message.channel =
          x.sender.usageOn ev.who.peer.sendDirection x.message.channel := by
  have hc := run_consistent haead hp
  have hmay := mayOpen_head hp hc hqueue hst
  have hlive := hmay.live
  have hne := hlive.state_ne_failed
  obtain ⟨d, hd, hr⟩ := run_refines hp ev.who
  obtain ⟨sent, hqueued, -, -, hreceived⟩ := hc.inFlight ev.who
  rw [hqueue] at hqueued
  have hx := hqueued.1
  have hsend : d.send ≠ .closed := by
    rw [hr.state_eq hne] at hst
    exact (Duplex.ne_closed_of_state hst).1
  have hclose : (fifo.session ev.who).localCloseSent = false := by
    rw [(hr.flags hne).localCloseSent]
    simpa using hsend
  have husage := (hr.follows_receive hlive).usage_eq x.message.channel
  rw [← receivedBy, hreceived hne] at husage
  have hwho := hs.session_who
  have hcase := deliver_cases haead hp hc hqueue
  rw [← hcall, hwho] at hcase
  cases hcase with
  | failed hst' _ => exact absurd hst' hne
  | refused _ _ hnot _ => exact absurd hmay hnot
  | accepted o ho _ hr' =>
      obtain ⟨hout, hnext⟩ := Prod.mk.inj hr'
      refine ⟨o, hout, ho, ?_⟩
      rw [hnext]
      have hrole := hr.role_eq
      cases hlim : (fifo.session ev.who).reachesLimit ev.who.receiveDirection x.message with
      | true =>
          have hsender := hx.erased (by rw [← husage]; exact hlim)
          have hreceiver := afterOpened_of_limit hlive hclose (by rw [hrole]; exact hlim)
          exact ⟨hreceiver, hsender⟩
      | false =>
          obtain ⟨hfailed, hcounted⟩ := hx.counted (by rw [← husage]; exact hlim)
          have hsender : x.sender.Live := by
            by_contra hterm
            rcases SessionState.eq_of_terminal (Bool.not_eq_false _ ▸ hterm) with hclosed | hfail
            · -- the sender had opened a Close of this endpoint
              obtain ⟨m, hm, ht⟩ := hc.closed ev.who x (by simp [hqueue]) hclosed
              refine Half.close_notMem_of_after (Duplex.run_halves hd).1 hsend ?_
              exact List.mem_map.mpr ⟨m, hm, ht⟩
            · exact hfailed hfail
          have hreceiver := afterOpened_of_not_limit hlive hclose (by rw [hrole]; exact hlim)
          rw [hrole] at hreceiver
          simp only [Bool.false_eq_true, if_false]
          rw [hreceiver, hcounted hsender, husage]

/-! ### Executing the queues -/

/-- One move: a local call, or the delivery of the head of the peer's queue. -/
inductive Input where
  | call (who : EndpointRole) (call : Call)
  | deliver (who : EndpointRole)

/-- One move, if it is one. -/
def move (aead : Aead) (fifo : Fifo) : Input → Option (NetEvent × Fifo)
  | .call _ (.openRecord _) => none
  | .call who c =>
      let r := (fifo.session who).step aead c
      some (⟨who, c, r.1⟩, fifo.afterLocal who c r)
  | .deliver who =>
      match fifo.queue who.peer with
      | [] => none
      | x :: rest =>
          let r := (fifo.session who).step aead (.openRecord x.record)
          some (⟨who, .openRecord x.record, r.1⟩, fifo.afterDeliver who rest r.2)

theorem step_of_move (fifo : Fifo) (input : Input) (r : NetEvent × Fifo)
    (h : move aead fifo input = some r) : Step aead fifo r.1 r.2 := by
  unfold move at h
  split at h
  · cases h
  · rename_i who c hne
    obtain rfl := Option.some.inj h
    exact .call hne _ rfl rfl rfl
  · split at h
    · cases h
    · rename_i x rest hqueue
      obtain rfl := Option.some.inj h
      exact .deliver x rest hqueue rfl _ rfl rfl rfl

/-- Both Commits and one record, still on its way. -/
def oneInFlight : List Input :=
  [.call .client .sealCommit, .call .server .sealCommit, .deliver .server, .deliver .client,
    .call .client (.sealData .menora (ascii "G301"))]

theorem oneInFlight_isSome :
    (exec? (move whitepaperAead) (init whitepaperSecrets) oneInFlight).isSome := by
  decide +kernel

theorem accepts_head_oneInFlight : ∃ (fifo next : Fifo) (ev : NetEvent) (x : InFlight)
    (o : OpenedRecord), Step whitepaperAead fifo ev next ∧
      (fifo.session .server).state = .active ∧ x.message = ⟨.data, .menora, ascii "G301"⟩ ∧
      ev.output = .opened (.ok o) ∧ o.message = x.message ∧
      if (fifo.session .server).reachesLimit .clientToServer x.message then
        ((next.session .server).state = .failed ∧ (next.session .server).Erased) ∧
          x.sender.state = .failed ∧ x.sender.Erased
      else
        (next.session .server).usageOn .clientToServer x.message.channel =
          x.sender.usageOn .clientToServer x.message.channel := by
  have hp := path_exec? step_of_move (Option.some_get oneInFlight_isSome).symm
  generalize hr : (exec? (move whitepaperAead) (init whitepaperSecrets) oneInFlight).get
    oneInFlight_isSome = r at hp
  have hst : (r.2.session .server).state = .active := by
    rw [← hr]
    decide +kernel
  have hmessages : (r.2.queue .client).map InFlight.message = [⟨.data, .menora, ascii "G301"⟩] := by
    rw [← hr]
    decide +kernel
  obtain ⟨x, hqueue, hx⟩ := List.map_eq_singleton_iff.mp hmessages
  generalize hstep : (r.2.session .server).step whitepaperAead (.openRecord x.record) = next
  have hs : Step whitepaperAead r.2 ⟨.server, .openRecord x.record, next.1⟩
      (r.2.afterDeliver .server [] next.2) :=
    .deliver x [] hqueue rfl next hstep rfl rfl
  obtain ⟨o, hout, ho, hif⟩ :=
    accepts_head (Aead.gcm_correct _ _) hp hs hqueue rfl (.inr hst)
  exact ⟨r.2, _, _, x, o, hs, hst, hx, hout, ho, hif⟩

end Fifo

end G301.Inner
