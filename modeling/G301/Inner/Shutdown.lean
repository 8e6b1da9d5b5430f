import G301.Inner.Fifo

/-! # Orderly shutdown

Two endpoints and two reliable queues, in which every local call is one that the state of its
endpoint permits and no hard limit is reached (`Fifo.PermittedStep`).

An endpoint that has sealed its Close is Draining and takes nothing but the peer's Close, so
that a Data or RefreshRequired record still on its way to it ends the session in Failed.  So does
a `seal_data` whose plaintext is larger than a record.  `Fifo.failed_iff_givenLate` says that
nothing else does: an endpoint is Failed exactly if it was given such a late record or asked to
seal such a plaintext, and if neither endpoint was, both are Closed once both have sealed their
Close and the queues are empty.  In an orderly run (`Fifo.OrderlyStep`) the plaintexts fit. -/

namespace G301.Inner

open ByteString Lts Net

namespace Session

instance decidableMaySeal (session : Session) : (t : RecordType) → Decidable (session.MaySeal t)
  | .commit => inferInstanceAs (Decidable (_ ∧ _))
  | .data => inferInstanceAs (Decidable (_ = _))
  | .refreshRequired => inferInstanceAs (Decidable (_ = _))
  | .close => inferInstanceAs (Decidable ((_ ∨ _) ∧ _))

/-- The state permits to seal `m`, and no hard limit is reached if a record takes its plaintext. -/
def StatePermits (session : Session) (m : Message) : Prop :=
  session.MaySeal m.recordType ∧ (m.plaintext.length ≤ maxPlaintext →
    session.reachesLimit session.role.sendDirection m = false)

/-- The state permits to seal `m`, and the record stays within the limits. -/
def Permitted (session : Session) (m : Message) : Prop :=
  session.MaySeal m.recordType ∧ m.plaintext.length ≤ maxPlaintext ∧
    session.reachesLimit session.role.sendDirection m = false

instance (session : Session) (m : Message) : Decidable (session.Permitted m) :=
  inferInstanceAs (Decidable (_ ∧ _ ∧ _))

theorem Permitted.fits {session : Session} {m : Message} (h : session.Permitted m) :
    session.Fits session.role.sendDirection m :=
  ⟨Usage.permits_of_not_limit h.2.2, h.2.1⟩

theorem permitted_iff {session : Session} {m : Message} :
    session.Permitted m ↔ session.StatePermits m ∧ m.plaintext.length ≤ maxPlaintext := by
  unfold Permitted StatePermits
  constructor
  · rintro ⟨hmay, hlen, hlimit⟩
    exact ⟨⟨hmay, fun _ => hlimit⟩, hlen⟩
  · rintro ⟨⟨hmay, hlimit⟩, hlen⟩
    exact ⟨hmay, hlen, hlimit hlen⟩

end Session

/-- The call is to seal a plaintext that no record takes. -/
def Call.Oversized (call : Call) : Prop :=
  ∃ m, call.message? = some m ∧ maxPlaintext < m.plaintext.length

theorem Call.not_oversized {call : Call} {m : Message} (hcall : call.message? = some m)
    (hlen : m.plaintext.length ≤ maxPlaintext) : ¬ call.Oversized := by
  rintro ⟨m', hcall', hlarge⟩
  obtain rfl := Option.some.inj (hcall.symm.trans hcall')
  omega

theorem Call.openRecord_not_oversized (input : Bytes) : ¬ (Call.openRecord input).Oversized := by
  rintro ⟨m, hcall, -⟩
  cases hcall

/-- Only data can be too large, and the session fails on it before a record is made. -/
theorem Session.step_oversized (aead : Aead) {session : Session} {call : Call} {m : Message}
    (hcall : call.message? = some m) (hmay : session.MaySeal m.recordType)
    (hlarge : maxPlaintext < m.plaintext.length) :
    session.step aead call = (.record (.error .plaintextTooLarge), session.dead) := by
  have hlive := hmay.live
  cases call <;> simp only [Call.message?, Option.some.injEq, reduceCtorEq] at hcall <;>
    subst hcall
  case sealData c p =>
      have hst : session.state = .active := hmay
      simp [step, sealData, hst, hlarge, fail_of_live hlive]
  all_goals exact absurd hlarge (Nat.not_lt_zero _)

namespace Fifo

/-- A step without abort, in which the state of the endpoint permits a local call. -/
def PermittedStep (aead : Aead) (fifo : Fifo) (ev : NetEvent) (next : Fifo) : Prop :=
  Step aead fifo ev next ∧ ((∀ input, ev.call ≠ .openRecord input) →
    ∃ m, ev.call.message? = some m ∧ (fifo.session ev.who).StatePermits m)

/-- A step without abort, in which a local call is permitted. -/
def OrderlyStep (aead : Aead) (fifo : Fifo) (ev : NetEvent) (next : Fifo) : Prop :=
  Step aead fifo ev next ∧ ((∀ input, ev.call ≠ .openRecord input) →
    ∃ m, ev.call.message? = some m ∧ (fifo.session ev.who).Permitted m)

/-- The event gives a Data or RefreshRequired record to an endpoint. -/
def GivesPayload (ev : NetEvent) : Prop :=
  ∃ input parsed, ev.call = .openRecord input ∧ parse input = .ok parsed ∧
    Half.Payload parsed.header.recordType

/-- The endpoint was given a Data or RefreshRequired record after it sealed its Close. -/
def GivenLate (e : EndpointRole) (h : List NetEvent) : Prop :=
  ∃ h₁ ev h₂, h = h₁ ++ ev :: h₂ ∧ ev.who = e ∧ GivesPayload ev ∧
    ∃ m ∈ sentBy e h₁, m.recordType = .close

/-- The endpoint was asked to seal a plaintext that no record takes. -/
def AskedOversized (e : EndpointRole) (h : List NetEvent) : Prop :=
  ∃ ev ∈ h, ev.who = e ∧ ev.call.Oversized

variable {aead : Aead} {secrets : DerivedSecrets} {h : List NetEvent} {fifo next : Fifo}
variable {ev : NetEvent} {e : EndpointRole}

theorem givenLate_snoc :
    GivenLate e (h ++ [ev]) ↔ GivenLate e h ∨
      (ev.who = e ∧ GivesPayload ev ∧ ∃ m ∈ sentBy e h, m.recordType = .close) := by
  constructor
  · rintro ⟨h₁, ev', h₂, heq, hlate⟩
    rcases List.eq_nil_or_concat h₂ with rfl | ⟨h₂, last, rfl⟩
    · obtain ⟨rfl, hev⟩ := List.append_inj' heq rfl
      obtain rfl := List.singleton_inj.mp hev
      exact .inr hlate
    · rw [List.concat_eq_append, ← List.cons_append, ← List.append_assoc] at heq
      obtain ⟨rfl, -⟩ := List.append_inj' heq rfl
      exact .inl ⟨h₁, ev', h₂, rfl, hlate⟩
  · rintro (⟨h₁, ev', h₂, rfl, hlate⟩ | hlate)
    · exact ⟨h₁, ev', h₂ ++ [ev], by simp, hlate⟩
    · exact ⟨h, ev, [], rfl, hlate⟩

theorem askedOversized_snoc :
    AskedOversized e (h ++ [ev]) ↔ AskedOversized e h ∨ (ev.who = e ∧ ev.call.Oversized) := by
  unfold AskedOversized
  simp only [List.mem_append, List.mem_singleton]
  constructor
  · rintro ⟨ev', hev | rfl, hwho⟩
    · exact .inl ⟨ev', hev, hwho⟩
    · exact .inr hwho
  · rintro (⟨ev', hev, hwho⟩ | hwho)
    · exact ⟨ev', .inl hev, hwho⟩
    · exact ⟨ev, .inr rfl, hwho⟩

/-- A record in flight gives what its message says. -/
theorem givesPayload_iff {sent : List Message} {x : InFlight}
    (hx : SealedAfter aead secrets e sent x) (hcall : ev.call = .openRecord x.record) :
    GivesPayload ev ↔ Half.Payload x.message.recordType := by
  obtain ⟨y, -, -, hlen, hrecord⟩ := hx.encrypted
  have hlt := Usage.nextSequence_lt_of_permits hx.permits
  rw [nextSequence_usageOf] at hlt
  have hparse := parse_wire x.message.recordType x.message.channel y.tag hlt
    (hlen ▸ hx.length_le)
  rw [← hrecord] at hparse
  constructor
  · rintro ⟨input, parsed, hcall', hparse', hpayload⟩
    rw [hcall, Call.openRecord.injEq] at hcall'
    rw [← hcall', hparse] at hparse'
    obtain rfl := Except.ok.inj hparse'
    exact hpayload
  · intro hpayload
    exact ⟨x.record, _, hcall, hparse, hpayload⟩

theorem noteOpened_state_ne_failed {session : Session} (hne : session.state ≠ .failed)
    (t : RecordType) : (session.noteOpened t).state ≠ .failed := by
  cases t with
  | data => exact hne
  | refreshRequired => exact hne
  | commit =>
      simp only [Session.noteOpened]
      split
      · simp
      · exact hne
  | close =>
      simp only [Session.noteOpened]
      rcases Session.finishCloseIfComplete_cases
        { session with peerCloseReceived := true, state := .draining } with h | h <;> rw [h] <;> simp

/-- What a run without abort, calls out of state and limits keeps. -/
structure Orderly (h : List NetEvent) (fifo : Fifo) : Prop where
  failed_iff : ∀ e, (fifo.session e).state = .failed ↔ GivenLate e h ∨ AskedOversized e h
  counted : ∀ e, ∀ x ∈ fifo.queue e, x.sender.state ≠ .failed

/-- An endpoint that may not open the head of the queue has sealed its Close. -/
theorem payload_of_not_mayOpen (hp : Path (Step aead) (init secrets) h fifo)
    (hc : Consistent aead secrets h fifo) {x : InFlight} {rest : List InFlight}
    (hqueue : fifo.queue e.peer = x :: rest) (hlive : (fifo.session e).Live)
    (hnot : ¬ (fifo.session e).MayOpen x.message.recordType) :
    Half.Payload x.message.recordType ∧ ∃ m ∈ sentBy e h, m.recordType = .close := by
  obtain ⟨d, hd, hr⟩ := run_refines hp e
  have hne := hlive.state_ne_failed
  obtain ⟨k, hnext⟩ := exists_next_head hp hc hqueue hd hne
  obtain ⟨sent, -, hsent, -⟩ := hc.inFlight e
  have hmem : x.message ∈ sentBy e.peer h := by simp [hsent, hqueue]
  have hsend := send_ne_idle hp hc hd hmem
  rw [Session.mayOpen_iff (hr.flags hne) (hr.state_eq hne)] at hnot
  -- the incoming stream would take the record: the outgoing one is what forbids it
  have hclosed : Half.Payload x.message.recordType ∧ d.send = .closed := by
    cases ht : x.message.recordType <;> rw [ht] at hnext hsend hnot <;>
      cases hreceive : d.receive <;> rw [hreceive] at hnext hnot <;>
      cases hs : d.send <;> rw [hs] at hsend hnot <;>
      simp [Half.next, Half.Payload, Duplex.May] at hnext hsend hnot ⊢
  refine ⟨hclosed.1, ?_⟩
  have hhalves := (Duplex.run_halves hd).1
  rw [hclosed.2] at hhalves
  obtain ⟨_, htypes, -⟩ := Half.after_closed hhalves
  have hclose : RecordType.close ∈ (sentBy e h).map Message.recordType := by
    rw [sentBy, htypes]
    simp
  exact List.mem_map.mp hclose

/-- An endpoint that may open a payload record has not sealed its Close. -/
theorem not_closed_of_mayOpen (hp : Path (Step aead) (init secrets) h fifo) {t : RecordType}
    (hpayload : Half.Payload t) (hmay : (fifo.session e).MayOpen t) :
    ¬ ∃ m ∈ sentBy e h, m.recordType = .close := by
  obtain ⟨d, hd, hr⟩ := run_refines hp e
  have hne := hmay.live.state_ne_failed
  have hactive : (fifo.session e).state = .active := by
    rcases hpayload with rfl | rfl <;> exact hmay
  have hopened := (Duplex.state_eq_active.mp ((hr.state_eq hne).symm.trans hactive)).1
  rintro ⟨m, hm, ht⟩
  refine Half.close_notMem_of_after (Duplex.run_halves hd).1 ?_ (List.mem_map.mpr ⟨m, hm, ht⟩)
  rw [hopened]
  simp

/-! ### One permitted step -/

theorem path_of_permitted (hp : Path (PermittedStep aead) (init secrets) h fifo) :
    Path (Step aead) (init secrets) h fifo :=
  hp.mono fun _ _ _ hs => hs.1

theorem path_of_orderly (hp : Path (OrderlyStep aead) (init secrets) h fifo) :
    Path (Step aead) (init secrets) h fifo :=
  hp.mono fun _ _ _ hs => hs.1

theorem OrderlyStep.permitted (hs : OrderlyStep aead fifo ev next) :
    PermittedStep aead fifo ev next := by
  obtain ⟨hstep, hpermitted⟩ := hs
  refine ⟨hstep, fun hlocal => ?_⟩
  obtain ⟨m, hcall, hm⟩ := hpermitted hlocal
  exact ⟨m, hcall, (Session.permitted_iff.mp hm).1⟩

theorem permitted_of_orderly (hp : Path (OrderlyStep aead) (init secrets) h fifo) :
    Path (PermittedStep aead) (init secrets) h fifo :=
  hp.mono fun _ _ _ hs => hs.permitted

theorem not_givesPayload_of_local (hlocal : ∀ input, ev.call ≠ .openRecord input) :
    ¬ GivesPayload ev := by
  rintro ⟨input, -, hcall, -⟩
  exact hlocal input hcall

/-- A permitted call seals its record and its endpoint does not fail. -/
theorem permitted_step (haead : aead.Correct) {session : Session} {call : Call} {m : Message}
    (hcall : call.message? = some m) (hpermitted : session.Permitted m) :
    ∃ w, session.step aead call = (.record (.ok w), session.afterSealed m) ∧
      (session.afterSealed m).state ≠ .failed := by
  obtain ⟨ciphertext, tag, hencrypt, hct, -⟩ := haead
    (session.keyOn session.role.sendDirection m.channel)
    (session.recordNonce session.role.sendDirection m.channel)
    (session.recordAad session.role.sendDirection m) m.plaintext
  refine ⟨_, Session.step_of_maySeal hcall hpermitted.1 hpermitted.fits hencrypt hct, ?_⟩
  rw [Session.afterSealed_of_not_limit hpermitted.2.2]
  have hne : (session.counted session.role.sendDirection m).state ≠ .failed :=
    hpermitted.1.live.state_ne_failed
  exact noteSealed_state_ne_failed hne _

theorem Orderly.sealed (haead : aead.Correct) (ho : Orderly h fifo) {m : Message}
    (hlocal : ∀ input, ev.call ≠ .openRecord input) (hcall : ev.call.message? = some m)
    (hpermitted : (fifo.session ev.who).Permitted m)
    (hother : ∀ e, ev.who ≠ e → next.session e = fifo.session e)
    (hnext : next = fifo.afterLocal ev.who ev.call ((fifo.session ev.who).step aead ev.call)) :
    Orderly (h ++ [ev]) next := by
  obtain ⟨w, hstep, hne⟩ := permitted_step haead hcall hpermitted
  have hx : inFlight? ev.call (.record (.ok w), (fifo.session ev.who).afterSealed m) =
      some ⟨w, m, (fifo.session ev.who).afterSealed m⟩ := by
    rw [inFlight?, hcall]
    rfl
  rw [hstep, afterLocal, hx] at hnext
  constructor
  · intro e
    have hfits := Call.not_oversized hcall hpermitted.2.1
    have hpayload := not_givesPayload_of_local hlocal
    rw [givenLate_snoc, askedOversized_snoc]
    simp only [hpayload, hfits, false_and, and_false, or_false]
    by_cases hwho : ev.who = e
    · subst hwho
      have hbefore := (ho.failed_iff ev.who).not.mp hpermitted.1.live.state_ne_failed
      rw [hnext]
      simp [hne, hbefore]
    · rw [hother e hwho]
      exact ho.failed_iff e
  · intro e x hx
    rw [hnext] at hx
    by_cases hwho : e = ev.who
    · subst hwho
      simp only [Option.toList_some, Function.update_self, List.mem_append,
        List.mem_singleton] at hx
      rcases hx with hx | rfl
      · exact ho.counted _ x hx
      · exact hne
    · dsimp only at hx
      rw [Function.update_of_ne hwho] at hx
      exact ho.counted e x hx

theorem Orderly.oversized (ho : Orderly h fifo) {m : Message}
    (hcall : ev.call.message? = some m) (hmay : (fifo.session ev.who).MaySeal m.recordType)
    (hlarge : maxPlaintext < m.plaintext.length)
    (hlocal : ∀ input, ev.call ≠ .openRecord input)
    (hother : ∀ e, ev.who ≠ e → next.session e = fifo.session e)
    (hnext : next = fifo.afterLocal ev.who ev.call ((fifo.session ev.who).step aead ev.call)) :
    Orderly (h ++ [ev]) next := by
  rw [Session.step_oversized aead hcall hmay hlarge] at hnext
  have hnone : inFlight? ev.call
      (.record (.error .plaintextTooLarge), (fifo.session ev.who).dead) = none := by
    unfold inFlight?
    rw [hcall]
    rfl
  rw [afterLocal, hnone] at hnext
  constructor
  · intro e
    have hpayload := not_givesPayload_of_local hlocal
    have hoversized : ev.call.Oversized := ⟨m, hcall, hlarge⟩
    rw [givenLate_snoc, askedOversized_snoc]
    simp only [hpayload, hoversized, false_and, and_false, and_true, or_false]
    by_cases hwho : ev.who = e
    · subst hwho
      rw [hnext]
      simp
    · rw [hother e hwho]
      simp only [hwho, or_false]
      exact ho.failed_iff e
  · intro e x hx
    rw [hnext] at hx
    simp only [Option.toList_none, List.append_nil, Function.update_eq_self] at hx
    exact ho.counted e x hx

theorem Orderly.deliver (haead : aead.Correct) (hp : Path (Step aead) (init secrets) h fifo)
    (ho : Orderly h fifo) {x : InFlight} {rest : List InFlight}
    (hqueue : fifo.queue ev.who.peer = x :: rest) (hcall : ev.call = .openRecord x.record)
    (hother : ∀ e, ev.who ≠ e → next.session e = fifo.session e)
    (hnext : next = fifo.afterDeliver ev.who rest ((fifo.session ev.who).step aead ev.call).2) :
    Orderly (h ++ [ev]) next := by
  have hc := run_consistent haead hp
  obtain ⟨sent, hqueued, -, -, hreceived⟩ := hc.inFlight ev.who
  rw [hqueue] at hqueued
  have hx := hqueued.1
  have hpayload := givesPayload_iff hx hcall
  have hself : next.session ev.who = ((fifo.session ev.who).step aead ev.call).2 := by
    rw [hnext]
    simp [afterDeliver]
  constructor
  · intro e
    have hfits : ¬ ev.call.Oversized := hcall ▸ Call.openRecord_not_oversized x.record
    rw [givenLate_snoc, askedOversized_snoc, hpayload]
    simp only [hfits, and_false, or_false]
    rw [or_right_comm]
    by_cases hwho : ev.who = e
    · subst hwho
      rw [hself, hcall, ← ho.failed_iff]
      have hcase := deliver_cases haead hp hc hqueue
      cases hcase with
      | failed hst hr => simp [hr, hst]
      | refused error hlive hnot hr =>
          have hlate := payload_of_not_mayOpen hp hc hqueue hlive hnot
          simp [hr, hlate]
      | accepted o heq hmay hr =>
          have hne := hmay.live.state_ne_failed
          have hlate : ¬ (Half.Payload x.message.recordType ∧
              ∃ m ∈ sentBy ev.who h, m.recordType = .close) :=
            fun hl => not_closed_of_mayOpen hp hl.1 hmay hl.2
          -- the sender did not reach a limit on this record, so the receiver does not
          obtain ⟨d, hd, hr'⟩ := run_refines hp ev.who
          have husage := (hr'.follows_receive hmay.live).usage_eq x.message.channel
          rw [← receivedBy, hreceived hne] at husage
          have hlimit : (fifo.session ev.who).reachesLimit
              (fifo.session ev.who).role.receiveDirection x.message = false := by
            rw [Session.reachesLimit, hr'.role_eq, husage]
            by_contra hlim
            exact ho.counted ev.who.peer x (by simp [hqueue]) (hx.erased (by simpa using hlim)).1
          have hafter : ((fifo.session ev.who).afterOpened x.message).state ≠ .failed := by
            simp only [Session.afterOpened, hlimit, Session.terminateIfHardLimitReached,
              Bool.false_and, Bool.false_eq_true, if_false]
            exact @noteOpened_state_ne_failed ((fifo.session ev.who).counted _ x.message) hne _
          simp [hr, hne, hlate, hafter]
    · rw [hother e hwho]
      simp only [hwho, false_and, or_false]
      exact ho.failed_iff e
  · intro e y hy
    rw [hnext] at hy
    dsimp only [afterDeliver] at hy
    by_cases hpeer : e = ev.who.peer
    · rw [hpeer, Function.update_self] at hy
      exact ho.counted ev.who.peer y (by rw [hqueue]; exact List.mem_cons_of_mem _ hy)
    · rw [Function.update_of_ne hpeer] at hy
      exact ho.counted e y hy

theorem orderly_of_path (haead : aead.Correct)
    (hp : Path (PermittedStep aead) (init secrets) h fifo) : Orderly h fifo := by
  refine hp.invariant (P := Orderly) ?_ ?_
  · constructor
    · intro e
      have hno : ¬ GivenLate e [] := by
        rintro ⟨h₁, ev, h₂, heq, -⟩
        simp at heq
      have hst : ((init secrets).session e).state ≠ .failed := by simp [init, Session.ofSecrets]
      simp [hno, hst, AskedOversized]
    · intro e x hx
      cases hx
  rintro h fifo ev next hp ho ⟨hs, hpermitted⟩
  have hother : ∀ e, ev.who ≠ e → next.session e = fifo.session e := fun e => hs.session_ne
  cases hs with
  | call hlocal r hr hout hnext =>
      obtain ⟨m, hcall, hperm⟩ := hpermitted hlocal
      rw [← hr] at hnext
      rcases Nat.lt_or_ge maxPlaintext m.plaintext.length with hlarge | hlen
      · exact ho.oversized hcall hperm.1 hlarge hlocal hother hnext
      · exact ho.sealed haead hlocal hcall (Session.permitted_iff.mpr ⟨hperm, hlen⟩) hother hnext
  | deliver x rest hqueue hcall r hr hout hnext =>
      exact ho.deliver haead (path_of_permitted hp) hqueue hcall hother (by rw [hr]; exact hnext)

/-- The plaintexts of an orderly run fit into a record. -/
theorem not_askedOversized_of_orderly (hp : Path (OrderlyStep aead) (init secrets) h fifo) :
    ¬ AskedOversized e h := by
  refine hp.invariant (P := fun h _ => ¬ AskedOversized e h) (by simp [AskedOversized]) ?_
  rintro h fifo ev next - hno ⟨-, hpermitted⟩
  rw [askedOversized_snoc, not_or]
  refine ⟨hno, ?_⟩
  rintro ⟨-, hlarge⟩
  obtain ⟨m, hcall, hm⟩ := hpermitted fun input hopen =>
    Call.openRecord_not_oversized input (hopen ▸ hlarge)
  exact Call.not_oversized hcall hm.2.1 hlarge

theorem failed_iff_of_orderly (haead : aead.Correct)
    (hp : Path (OrderlyStep aead) (init secrets) h fifo) :
    ∀ e, (fifo.session e).state = .failed ↔ GivenLate e h := by
  intro e
  rw [(orderly_of_path haead (permitted_of_orderly hp)).failed_iff]
  simp [not_askedOversized_of_orderly hp]

/-- **Orderly shutdown.**  An endpoint is Failed exactly if it was given a Data or
RefreshRequired record after it sealed its Close, or asked to seal a plaintext that no record
takes.  If neither endpoint was, both are Closed once both have sealed their Close and both
queues are empty. -/
theorem failed_iff_givenLate (haead : aead.Correct)
    (hp : Path (PermittedStep aead) (init secrets) h fifo) :
    (∀ e, (fifo.session e).state = .failed ↔ GivenLate e h ∨ AskedOversized e h) ∧
      ((∀ e, ¬ GivenLate e h ∧ ¬ AskedOversized e h) →
        (∀ e, ∃ m ∈ sentBy e h, m.recordType = .close) →
        (∀ e, fifo.queue e = []) → ∀ e, (fifo.session e).state = .closed) := by
  have ho := orderly_of_path haead hp
  have hpath := path_of_permitted hp
  refine ⟨ho.failed_iff, ?_⟩
  intro hlate hclose hempty e
  have hne : (fifo.session e).state ≠ .failed := by
    rw [Ne, ho.failed_iff, not_or]
    exact hlate e
  obtain ⟨d, hd, hr⟩ := run_refines hpath e
  obtain ⟨hsend, hreceive⟩ := Duplex.run_halves hd
  obtain ⟨sent, -, hsent, -, hreceived⟩ := (run_consistent haead hpath).inFlight e
  rw [hempty, List.map_nil, List.append_nil] at hsent
  have hclosed : ∀ {half : Half} {ms : List Message},
      Half.after (ms.map Message.recordType) = some half → (∃ m ∈ ms, m.recordType = .close) →
      half = .closed := by
    intro half ms hafter hmem
    by_contra hne
    exact Half.close_notMem_of_after hafter hne (List.mem_map.mpr hmem)
  rw [hr.state_eq hne]
  refine Duplex.state_eq_closed.mpr ⟨hclosed hsend (hclose e), hclosed hreceive ?_⟩
  have hpeer := hclose e.peer
  rw [hsent, ← hreceived hne] at hpeer
  exact hpeer

/-! ### Executing orderly runs -/

/-- One move, if it is orderly. -/
def orderlyMove (aead : Aead) (fifo : Fifo) : Input → Option (NetEvent × Fifo)
  | .call who c =>
      match c.message? with
      | none => none
      | some m => if (fifo.session who).Permitted m then move aead fifo (.call who c) else none
  | .deliver who => move aead fifo (.deliver who)

theorem orderlyStep_of_move (fifo : Fifo) (input : Input) (r : NetEvent × Fifo)
    (h : orderlyMove aead fifo input = some r) : OrderlyStep aead fifo r.1 r.2 := by
  cases input with
  | call who c =>
      simp only [orderlyMove] at h
      split at h
      · cases h
      rename_i m hm
      split at h
      · rename_i hpermitted
        refine ⟨step_of_move fifo _ r h, fun _ => ⟨m, ?_⟩⟩
        have hr : r.1.call = c ∧ r.1.who = who := by
          cases c <;> simp only [move, Option.some.injEq, reduceCtorEq] at h <;> rw [← h] <;>
            exact ⟨rfl, rfl⟩
        rw [hr.1, hr.2]
        exact ⟨hm, hpermitted⟩
      · cases h
  | deliver who =>
      have hmove : move aead fifo (.deliver who) = some r := h
      refine ⟨step_of_move fifo _ r hmove, fun hlocal => ?_⟩
      simp only [orderlyMove, move] at h
      split at h
      · cases h
      · obtain rfl := Option.some.inj h
        exact absurd rfl (hlocal _)

/-- Both endpoints close at once, with nothing else in flight. -/
def crossingCloses : List Input :=
  [.call .client .sealCommit, .call .server .sealCommit, .deliver .server, .deliver .client,
    .call .client (.sealData .menora (ascii "G301")), .deliver .server,
    .call .client .sealClose, .call .server .sealClose, .deliver .server, .deliver .client]

theorem crossingCloses_isSome :
    (exec? (orderlyMove whitepaperAead) (init whitepaperSecrets) crossingCloses).isSome := by
  decide +kernel

theorem failed_iff_givenLate_crossingCloses :
    let r := (exec? (orderlyMove whitepaperAead) (init whitepaperSecrets) crossingCloses).get
      crossingCloses_isSome
    (∀ e, (r.2.session e).state = .closed) ∧
      (∀ e, (r.2.session e).state = .failed ↔ GivenLate e r.1 ∨ AskedOversized e r.1) ∧
      ((∀ e, ¬ GivenLate e r.1 ∧ ¬ AskedOversized e r.1) →
        (∀ e, ∃ m ∈ sentBy e r.1, m.recordType = .close) →
        (∀ e, r.2.queue e = []) → ∀ e, (r.2.session e).state = .closed) := by
  refine ⟨?_, failed_iff_givenLate (Aead.gcm_correct _ _) (permitted_of_orderly
    (path_exec? orderlyStep_of_move (Option.some_get crossingCloses_isSome).symm))⟩
  intro e
  cases e <;> decide +kernel

/-- The Server's record is on its way when the Client closes. -/
def closeBeforeData : List Input :=
  [.call .client .sealCommit, .call .server .sealCommit, .deliver .server, .deliver .client,
    .call .server (.sealData .menora (ascii "G301")), .call .client .sealClose, .deliver .client]

theorem closeBeforeData_isSome :
    (exec? (orderlyMove whitepaperAead) (init whitepaperSecrets) closeBeforeData).isSome := by
  decide +kernel

/-- A record that crosses a Close makes its receiver fail. -/
theorem closeBeforeData_fails :
    ¬ ∀ (aead : Aead) (secrets : DerivedSecrets) (h : List NetEvent) (fifo : Fifo),
      aead.Correct → Path (OrderlyStep aead) (init secrets) h fifo →
        ∀ e, (fifo.session e).state ≠ .failed := by
  intro hclaim
  refine hclaim whitepaperAead whitepaperSecrets _ _ (Aead.gcm_correct _ _)
    (path_exec? orderlyStep_of_move (Option.some_get closeBeforeData_isSome).symm) .client ?_
  decide +kernel

end Fifo

end G301.Inner
