import G301.Inner.Shutdown

/-! # When a session can still be closed

`Shutdown` says what makes an endpoint fail in an orderly run.  Here the question is the other one:
from which states of such a run can both endpoints still get to Closed, with nothing left in
flight?  `CanClose` is the condition on each endpoint, on its state, its flags, its Guard counter
and the records on their way to it, and `closes_iff` says that it is necessary and that it is
enough, with as many further steps as there are records in flight and control records left to
seal and deliver. -/

namespace G301.Inner

open ByteString Lts Net

/-- The control records that a stream still has to carry. -/
def Half.left : Half → ℕ
  | idle => 2
  | opened => 1
  | closed => 0

/-- A message of the open phase leaves as many control records as before, a control record one
less. -/
theorem Half.left_next {half half' : Half} {t : RecordType} (hn : half.next t = some half') :
    (Half.Payload t ∧ half'.left = half.left) ∨
      (¬ Half.Payload t ∧ half'.left + 1 = half.left) := by
  unfold Half.next at hn
  split at hn <;> cases hn <;> simp [Half.Payload, Half.left]

/-- The control records that the endpoint still has to seal: its Commit and its Close. -/
def Session.outstanding (session : Session) : ℕ :=
  (if session.localCommitSent then 0 else 1) + (if session.localCloseSent then 0 else 1)

/-- A Guard context takes `records` more control records and stays below its hard limit. -/
def Usage.HasRoom (usage : Usage) (records : ℕ) : Prop :=
  usage.nextSequence + records < hardRecordLimit

namespace Fifo

/-- The endpoint can still get to Closed. -/
structure CanClose (fifo : Fifo) (e : EndpointRole) : Prop where
  not_failed : (fifo.session e).state ≠ .failed
  no_payload : (fifo.session e).localCloseSent = true →
    ∀ x ∈ fifo.queue e.peer, ¬ Half.Payload x.message.recordType
  room : (fifo.session e).outstanding ≠ 0 →
    ((fifo.session e).usageOn e.sendDirection .guard).HasRoom (fifo.session e).outstanding

/-- Both endpoints are Closed and nothing is in flight. -/
def Ended (fifo : Fifo) : Prop := ∀ e, (fifo.session e).state = .closed ∧ fifo.queue e = []

/-- What an endpoint leaves to do: its records in flight are to be given to its peer, the
outstanding ones to be sealed and given to it. -/
def pendingOf (fifo : Fifo) (e : EndpointRole) : ℕ :=
  (fifo.queue e).length + 2 * (fifo.session e).outstanding

def pending (fifo : Fifo) : ℕ := fifo.pendingOf .client + fifo.pendingOf .server

variable {aead : Aead} {secrets : DerivedSecrets} {h : List NetEvent} {fifo next : Fifo}
variable {ev : NetEvent} {e : EndpointRole}

/-! ### Reading the condition off the history -/

/-- Control records are empty. -/
theorem usageOf_guard {ms : List Message} (hw : ∀ m ∈ ms, m.WellFormed) :
    usageOf .guard ms = ⟨(onChannel .guard ms).length, (onChannel .guard ms).length, 0⟩ := by
  induction ms using List.reverseRecOn with
  | nil => rfl
  | append_singleton ms m ih =>
      have hlast := ih fun x hx => hw x (List.mem_append_left _ hx)
      rw [usageOf_snoc, onChannel_append, onChannel_singleton, hlast]
      by_cases hguard : m.channel = .guard
      · rcases hw m (by simp) with ⟨-, hc⟩ | ⟨-, -, hplain⟩
        · exact absurd hguard hc
        · simp [hguard, hplain, Usage.add]
      · simp [hguard]

/-- The sending side of an endpoint: where its outgoing stream stands, and what its flags and its
Guard counter say of it. -/
structure Sending (h : List NetEvent) (fifo : Fifo) (e : EndpointRole) (half : Half) : Prop where
  after : Half.after ((sentBy e h).map Message.recordType) = some half
  outstanding_eq : (fifo.session e).outstanding = half.left
  closeSent_iff : (fifo.session e).localCloseSent = true ↔ half = .closed
  usage_eq : half.left ≠ 0 → (fifo.session e).usageOn e.sendDirection .guard =
    ⟨(onChannel .guard (sentBy e h)).length, (onChannel .guard (sentBy e h)).length, 0⟩

theorem exists_sending (hp : Path (Step aead) (init secrets) h fifo)
    (hne : (fifo.session e).state ≠ .failed) : ∃ half, Sending h fifo e half := by
  obtain ⟨d, hd, hr⟩ := run_refines hp e
  have hf := hr.flags hne
  refine ⟨d.send, (Duplex.run_halves hd).1, ?_, ?_, ?_⟩
  · unfold Session.outstanding
    rw [hf.localCommitSent, hf.localCloseSent]
    cases d.send <;> simp [Half.left]
  · rw [hf.localCloseSent]
    simp
  · intro hleft
    have hlive : (fifo.session e).Live := by
      by_contra hterm
      rcases SessionState.eq_of_terminal (Bool.not_eq_false _ ▸ hterm) with hclosed | hfailed
      · have hsend := (Duplex.state_eq_closed.mp ((hr.state_eq hne).symm.trans hclosed)).1
        rw [hsend] at hleft
        exact hleft rfl
      · exact hne hfailed
    rw [hr.sendUsage hlive]
    exact usageOf_guard fun m hm => wellFormed_of_mem_actsOf (sent_mem_of_mem_sentOf hm)

/-- Room for what is left, in terms of the records an endpoint sealed on Guard. -/
theorem Sending.room_iff {half : Half} (hs : Sending h fifo e half) :
    ((fifo.session e).outstanding ≠ 0 →
      ((fifo.session e).usageOn e.sendDirection .guard).HasRoom (fifo.session e).outstanding) ↔
    (half.left ≠ 0 → (onChannel .guard (sentBy e h)).length + half.left < hardRecordLimit) := by
  rw [hs.outstanding_eq]
  refine forall_congr' fun hleft => ?_
  unfold Usage.HasRoom
  rw [hs.usage_eq hleft]

/-! ### One step of an orderly run -/

theorem sentOf_opened (call : Call) (r : Except Error OpenedRecord) :
    sentOf (actsOf [(call, .opened r)]) = [] := by
  cases r <;> rfl

/-- What an orderly step does to the queues and to the lists of sealed messages. -/
inductive OrderlyCase (h : List NetEvent) (fifo : Fifo) (ev : NetEvent) (next : Fifo) : Prop
  | sealed (m : Message) (x : InFlight) (hlocal : ∀ input, ev.call ≠ .openRecord input)
      (hpermitted : (fifo.session ev.who).Permitted m) (hwell : m.WellFormed) (hx : x.message = m)
      (hsent : sentBy ev.who (h ++ [ev]) = sentBy ev.who h ++ [m])
      (hqueue : next.queue = Function.update fifo.queue ev.who (fifo.queue ev.who ++ [x]))
  | delivered (x : InFlight) (rest : List InFlight) (hhead : fifo.queue ev.who.peer = x :: rest)
      (hcall : ev.call = .openRecord x.record)
      (hsent : sentBy ev.who (h ++ [ev]) = sentBy ev.who h)
      (hqueue : next.queue = Function.update fifo.queue ev.who.peer rest)

theorem OrderlyStep.cases (haead : aead.Correct) (hs : OrderlyStep aead fifo ev next)
    (h : List NetEvent) : OrderlyCase h fifo ev next := by
  obtain ⟨hstep, hpermitted⟩ := hs
  cases hstep with
  | call hlocal r hr hout hnext =>
      obtain ⟨m, hcall, hperm⟩ := hpermitted hlocal
      obtain ⟨w, hseal, -⟩ := permitted_step haead hcall hperm
      obtain rfl := hr.symm.trans hseal
      have hx : inFlight? ev.call (.record (.ok w), (fifo.session ev.who).afterSealed m) =
          some ⟨w, m, (fifo.session ev.who).afterSealed m⟩ := by
        unfold inFlight?
        rw [hcall]
        rfl
      refine .sealed m ⟨w, m, (fifo.session ev.who).afterSealed m⟩ hlocal hperm
        (Call.wellFormed_of_message? hcall) rfl ?_ ?_
      · rw [sentBy_snoc_self, hout, actsOf_sealed hcall, sentOf_sent]
      · rw [hnext, afterLocal, hx]
        rfl
  | deliver x rest hqueue hcall r hr hout hnext =>
      refine .delivered x rest hqueue hcall ?_ (by rw [hnext]; rfl)
      have hopened : ev.output = .opened ((fifo.session ev.who).openRecord aead x.record).1 := by
        rw [hout, ← hr, hcall]
        rfl
      rw [sentBy_snoc_self, hopened, sentOf_opened, List.append_nil]

/-- The stream of an endpoint moves by one message or stays. -/
theorem Sending.moved {half half' : Half} (hs : Sending h fifo e half)
    (hs' : Sending (h ++ [ev]) next e half') {m : Message}
    (hsent : sentBy e (h ++ [ev]) = sentBy e h ++ [m]) : half.next m.recordType = some half' := by
  have hafter := hs'.after
  rw [hsent, List.map_append, List.map_singleton, Half.after_snoc, hs.after] at hafter
  exact hafter

theorem Sending.same {half half' : Half} (hs : Sending h fifo e half)
    (hs' : Sending (h ++ [ev]) next e half') (hsent : sentBy e (h ++ [ev]) = sentBy e h) :
    half' = half := by
  have hafter := hs'.after
  rw [hsent, hs.after] at hafter
  exact (Option.some.inj hafter).symm

theorem Sending.close_mem_iff {half : Half} (hs : Sending h fifo e half) :
    (∃ m ∈ sentBy e h, m.recordType = .close) ↔ half = .closed := by
  constructor
  · intro hclose
    by_contra hne
    exact Half.close_notMem_of_after hs.after hne (List.mem_map.mpr hclose)
  · rintro rfl
    obtain ⟨_, htypes, -⟩ := Half.after_closed hs.after
    apply List.mem_map.mp
    rw [htypes]
    simp

/-- A permitted Guard record leaves its context below the hard limit. -/
theorem Sending.guard_lt {half half' : Half} (hs : Sending h fifo e half) {m : Message}
    (hrole : (fifo.session e).role = e) (hn : half.next m.recordType = some half')
    (hpermitted : (fifo.session e).Permitted m) (hguard : m.channel = .guard) :
    (onChannel .guard (sentBy e h)).length + 1 < hardRecordLimit := by
  have hleft : half.left ≠ 0 := by
    rcases Half.left_next hn with ⟨hpayload, hsame⟩ | ⟨-, hless⟩
    · cases half
      · simp [Half.left]
      · simp [Half.left]
      · cases hn
    · omega
  have hlimit := hpermitted.2.2
  unfold Session.reachesLimit at hlimit
  rw [hrole, hguard, hs.usage_eq hleft] at hlimit
  have hnot := Usage.hardLimitReached_iff.not.mp (Bool.eq_false_iff.mp hlimit)
  simp only [Usage.add, not_or, not_le] at hnot
  exact hnot.1

/-- Before a sealed message there was room for all that was left, if there is for the rest. -/
theorem room_of_sealed {half half' : Half} {m : Message} {sent : List Message}
    (hn : half.next m.recordType = some half') (hwell : m.WellFormed)
    (hlt : m.channel = .guard → (onChannel .guard sent).length + 1 < hardRecordLimit)
    (hroom : half'.left ≠ 0 →
      (onChannel .guard (sent ++ [m])).length + half'.left < hardRecordLimit)
    (hleft : half.left ≠ 0) :
    (onChannel .guard sent).length + half.left < hardRecordLimit := by
  rw [onChannel_append, List.length_append] at hroom
  rcases Half.left_next hn with ⟨-, hsame⟩ | ⟨hcontrol, hless⟩
  · have hafter := hroom (by omega)
    omega
  · have hguard : m.channel = .guard := by
      rcases hwell with ⟨hdata, -⟩ | ⟨-, hguard, -⟩
      · exact absurd (.inl hdata) hcontrol
      · exact hguard
    rw [onChannel_singleton, if_pos hguard, List.length_singleton] at hroom
    have hone := hlt hguard
    by_cases hlast : half'.left = 0
    · omega
    · have hafter := hroom hlast
      omega

/-- The head of a queue gives its receiver what its message says. -/
theorem givesPayload_head (haead : aead.Correct) (hp : Path (Step aead) (init secrets) h fifo)
    {x : InFlight} {rest : List InFlight} (hqueue : fifo.queue e.peer = x :: rest)
    (hcall : ev.call = .openRecord x.record) :
    GivesPayload ev ↔ Half.Payload x.message.recordType := by
  obtain ⟨sent, hqueued, -⟩ := (run_consistent haead hp).inFlight e
  rw [hqueue] at hqueued
  exact givesPayload_iff hqueued.1 hcall

/-! ### The condition is necessary -/

/-- A payload on its way to an endpoint that has sealed its Close stays there, unless it makes
the endpoint fail. -/
theorem noPayload_of_step (haead : aead.Correct)
    (hp : Path (OrderlyStep aead) (init secrets) h fifo) (hs : OrderlyStep aead fifo ev next)
    (hclose : ∃ m ∈ sentBy e h, m.recordType = .close)
    (hlate : ¬ (ev.who = e ∧ GivesPayload ev ∧ ∃ m ∈ sentBy e h, m.recordType = .close))
    (hnext : ∀ x ∈ next.queue e.peer, ¬ Half.Payload x.message.recordType) :
    ∀ x ∈ fifo.queue e.peer, ¬ Half.Payload x.message.recordType := by
  intro x hx hpayload
  cases hs.cases haead h with
  | sealed m y _ _ _ _ _ hqueue =>
      refine hnext x ?_ hpayload
      rw [hqueue]
      by_cases hpeer : e.peer = ev.who
      · rw [hpeer, Function.update_self]
        exact List.mem_append_left _ (hpeer ▸ hx)
      · rwa [Function.update_of_ne hpeer]
  | delivered y rest hhead hcall _ hqueue =>
      by_cases hwho : ev.who = e
      · subst hwho
        rw [hhead] at hx
        rcases List.mem_cons.mp hx with rfl | hx
        · have hgives := (givesPayload_head haead (path_of_orderly hp) hhead hcall).mpr hpayload
          exact hlate ⟨rfl, hgives, hclose⟩
        · refine hnext x ?_ hpayload
          rwa [hqueue, Function.update_self]
      · refine hnext x ?_ hpayload
        have hpeer : e.peer ≠ ev.who.peer := fun heq =>
          hwho (by rw [← ev.who.peer_peer, ← heq, e.peer_peer])
        rwa [hqueue, Function.update_of_ne hpeer]

/-- An endpoint that can close after a step could do so before it. -/
theorem canClose_of_step (haead : aead.Correct)
    (hp : Path (OrderlyStep aead) (init secrets) h fifo) (hs : OrderlyStep aead fifo ev next)
    (hnext : next.CanClose e) : fifo.CanClose e := by
  have hp' := hp.snoc hs
  have hfailed := failed_iff_of_orderly haead hp' e
  rw [givenLate_snoc, ← failed_iff_of_orderly haead hp e] at hfailed
  have hnot := hfailed.not.mp hnext.not_failed
  rw [not_or] at hnot
  obtain ⟨hne, hlate⟩ := hnot
  obtain ⟨half, hsending⟩ := exists_sending (path_of_orderly hp) hne
  obtain ⟨half', hsending'⟩ := exists_sending (path_of_orderly hp') hnext.not_failed
  have hroom' := hsending'.room_iff.mp hnext.room
  have hrole : (fifo.session e).role = e := by
    obtain ⟨d, -, hr⟩ := run_refines (path_of_orderly hp) e
    exact hr.role_eq
  refine ⟨hne, ?_, hsending.room_iff.mpr ?_⟩
  · intro hclose
    have hclosed := hsending.closeSent_iff.mp hclose
    have hmem := hsending.close_mem_iff.mpr hclosed
    -- the Close stays in the list of what the endpoint sealed
    have hclosed' := hsending'.close_mem_iff.mp (by
      obtain ⟨m, hm, ht⟩ := hmem
      exact ⟨m, mem_sentBy_snoc hm, ht⟩)
    have hempty := hnext.no_payload (hsending'.closeSent_iff.mpr hclosed')
    exact noPayload_of_step haead hp hs hmem hlate hempty
  · intro hleft
    by_cases hwho : ev.who = e
    · subst hwho
      cases hs.cases haead h with
      | sealed m x _ hpermitted hwell _ hsent _ =>
          have hn := hsending.moved hsending' hsent
          rw [hsent] at hroom'
          exact room_of_sealed hn hwell (hsending.guard_lt hrole hn hpermitted) hroom' hleft
      | delivered x rest _ _ hsent _ =>
          rw [hsending.same hsending' hsent, hsent] at hroom'
          exact hroom' hleft
    · have hsent := @sentBy_snoc_ne _ h _ hwho
      rw [hsending.same hsending' hsent, hsent] at hroom'
      exact hroom' hleft

/-- Where both endpoints are Closed, nothing is left to seal. -/
theorem canClose_of_ended (hp : Path (Step aead) (init secrets) h fifo) (hended : fifo.Ended)
    (e : EndpointRole) : fifo.CanClose e := by
  have hclosed := (hended e).1
  have hne : (fifo.session e).state ≠ .failed := by simp [hclosed]
  obtain ⟨d, -, hr⟩ := run_refines hp e
  have hd := (Duplex.state_eq_closed.mp ((hr.state_eq hne).symm.trans hclosed)).1
  refine ⟨hne, fun _ x hx => ?_, fun hleft => ?_⟩
  · rw [(hended e.peer).2] at hx
    cases hx
  · refine absurd ?_ hleft
    unfold Session.outstanding
    rw [(hr.flags hne).localCommitSent, (hr.flags hne).localCloseSent, hd]
    rfl

/-! ### The condition is enough -/

theorem pending_eq (fifo : Fifo) (e : EndpointRole) :
    fifo.pending = fifo.pendingOf e + fifo.pendingOf e.peer := by
  unfold pending
  cases e
  · rfl
  · exact Nat.add_comm _ _

/-- A step that seals no message of an endpoint leaves it as much to seal as before. -/
theorem outstanding_same {half half' : Half} (hs : Sending h fifo e half)
    (hs' : Sending (h ++ [ev]) next e half') (hsent : sentBy e (h ++ [ev]) = sentBy e h) :
    (next.session e).outstanding = (fifo.session e).outstanding := by
  rw [hs.outstanding_eq, hs'.outstanding_eq, hs.same hs' hsent]

/-- An endpoint that seals nothing can close as before, if it has not failed and no record joined
the queue towards it. -/
theorem CanClose.same (hcan : fifo.CanClose e) (hp : Path (Step aead) (init secrets) h fifo)
    (hp' : Path (Step aead) (init secrets) (h ++ [ev]) next)
    (hne : (next.session e).state ≠ .failed) (hsent : sentBy e (h ++ [ev]) = sentBy e h)
    (hqueue : (fifo.session e).localCloseSent = true →
      ∀ x ∈ next.queue e.peer, ¬ Half.Payload x.message.recordType) :
    next.CanClose e ∧ (next.session e).outstanding = (fifo.session e).outstanding := by
  obtain ⟨half, hs⟩ := exists_sending hp hcan.not_failed
  obtain ⟨half', hs'⟩ := exists_sending hp' hne
  have hroom := hs.room_iff.mp hcan.room
  refine ⟨⟨hne, ?_, hs'.room_iff.mpr ?_⟩, outstanding_same hs hs' hsent⟩
  · intro hclose
    apply hqueue
    rw [hs.closeSent_iff, ← hs.same hs' hsent, ← hs'.closeSent_iff]
    exact hclose
  · rw [hsent, hs.same hs' hsent]
    exact hroom

/-- A delivery in a run whose endpoints can close. -/
theorem deliver_progress (haead : aead.Correct)
    (hp : Path (OrderlyStep aead) (init secrets) h fifo) (hcan : ∀ e, fifo.CanClose e)
    {x : InFlight} {rest : List InFlight} (hqueue : fifo.queue e.peer = x :: rest) :
    ∃ ev next, OrderlyStep aead fifo ev next ∧ (∀ e, next.CanClose e) ∧
      next.pending < fifo.pending := by
  let r := (fifo.session e).step aead (.openRecord x.record)
  let ev : NetEvent := ⟨e, .openRecord x.record, r.1⟩
  let next := fifo.afterDeliver e rest r.2
  have hs : OrderlyStep aead fifo ev next :=
    ⟨.deliver x rest hqueue rfl r rfl rfl rfl, fun hlocal => absurd rfl (hlocal x.record)⟩
  have hp' := hp.snoc hs
  have hlist : ∀ f, sentBy f (h ++ [ev]) = sentBy f h := sentBy_snoc_of_not_sent (sentOf_opened _ _)
  have hsub : ∀ f, ∀ y ∈ next.queue f, y ∈ fifo.queue f := by
    intro f y hy
    by_cases hpeer : f = e.peer
    · subst hpeer
      rw [hqueue]
      simp only [next, afterDeliver, Function.update_self] at hy
      exact List.mem_cons_of_mem _ hy
    · simpa only [next, afterDeliver, Function.update_of_ne hpeer] using hy
  have hafter : ∀ f, next.CanClose f ∧
      (next.session f).outstanding = (fifo.session f).outstanding := by
    intro f
    refine (hcan f).same (path_of_orderly hp) (path_of_orderly hp') ?_ (hlist f)
      fun hclose y hy => (hcan f).no_payload hclose y (hsub _ _ hy)
    -- nothing that the endpoint is given is late
    rw [Ne, failed_iff_of_orderly haead hp', givenLate_snoc,
      ← failed_iff_of_orderly haead hp]
    rintro (hfailed | ⟨rfl, hgives, hclose⟩)
    · exact (hcan f).not_failed hfailed
    · obtain ⟨half, hsending⟩ := exists_sending (path_of_orderly hp) (hcan e).not_failed
      have hclosed := hsending.closeSent_iff.mpr (hsending.close_mem_iff.mp hclose)
      have hpayload := (givesPayload_head haead (path_of_orderly hp) hqueue rfl).mp hgives
      exact (hcan e).no_payload hclosed x (by rw [hqueue]; simp) hpayload
  refine ⟨ev, next, hs, fun f => (hafter f).1, ?_⟩
  rw [pending_eq next e, pending_eq fifo e]
  unfold pendingOf
  rw [(hafter e).2, (hafter e.peer).2, hqueue]
  have hlen : (next.queue e.peer).length = rest.length := by simp [next, afterDeliver]
  have hlen' : (next.queue e).length = (fifo.queue e).length := by
    simp [next, afterDeliver, Function.update_of_ne e.peer_ne.symm]
  rw [hlen, hlen', List.length_cons]
  omega

/-- A control record that fits in the room that is left is permitted. -/
theorem Sending.permitted {half : Half} (hs : Sending h fifo e half)
    (hrole : (fifo.session e).role = e) (hroom : (onChannel .guard (sentBy e h)).length +
      half.left < hardRecordLimit) (hleft : half.left ≠ 0) {t : RecordType}
    (hmay : (fifo.session e).MaySeal t) : (fifo.session e).Permitted ⟨t, .guard, []⟩ := by
  refine ⟨hmay, Nat.zero_le _, ?_⟩
  unfold Session.reachesLimit
  rw [hrole, hs.usage_eq hleft, Bool.eq_false_iff, Ne, Usage.hardLimitReached_iff]
  simp only [Usage.add, List.length_nil, hardByteLimit]
  omega

/-- With nothing in flight, an endpoint that can close has a control record to seal, unless both
are Closed. -/
theorem exists_control (haead : aead.Correct) (hp : Path (Step aead) (init secrets) h fifo)
    (hcan : ∀ e, fifo.CanClose e) (hempty : ∀ e, fifo.queue e = []) :
    fifo.Ended ∨ ∃ (e : _) (call : Call) (t : _), call.message? = some ⟨t, .guard, []⟩ ∧
      ¬ Half.Payload t ∧ (fifo.session e).Permitted ⟨t, .guard, []⟩ := by
  have hviews : ∀ e, ∃ d, Path Duplex.Step Duplex.init (actsOf (eventsOf e h)) d ∧
      (fifo.session e).Refines e secrets (actsOf (eventsOf e h)) d := fun e => run_refines hp e
  choose d hd hr using hviews
  have hstate := fun e => (hr e).state_eq (hcan e).not_failed
  -- each endpoint has opened all that its peer sealed
  have hreceive : ∀ e, (d e).receive = (d e.peer).send := by
    intro e
    obtain ⟨sent, -, hsent, -, hreceived⟩ := (run_consistent haead hp).inFlight e
    rw [hempty, List.map_nil, List.append_nil, ← hreceived (hcan e).not_failed] at hsent
    have hafter := (Duplex.run_halves (hd e)).2
    have hafter' := (Duplex.run_halves (hd e.peer)).1
    rw [← sentBy, hsent, receivedBy, hafter] at hafter'
    exact Option.some.inj hafter'
  have hpermitted : ∀ e t, (d e).send.left ≠ 0 → Duplex.May (d e).send (d e).receive t →
      (fifo.session e).Permitted ⟨t, .guard, []⟩ := by
    intro e t hleft hmay
    obtain ⟨half, hs⟩ := exists_sending hp (hcan e).not_failed
    have hhalf := (Duplex.run_halves (hd e)).1
    rw [← sentBy, hs.after, Option.some.injEq] at hhalf
    rw [← hhalf] at hleft
    exact hs.permitted (hr e).role_eq (hs.room_iff.mp (hcan e).room hleft) hleft
      ((Session.maySeal_iff ((hr e).flags (hcan e).not_failed) (hstate e) t).mpr hmay)
  by_cases hidle : ∃ e, (d e).send = .idle
  · obtain ⟨e, he⟩ := hidle
    refine .inr ⟨e, .sealCommit, .commit, rfl, by simp [Half.Payload], hpermitted e _ ?_ he⟩
    simp [he, Half.left]
  rw [not_exists] at hidle
  by_cases hopen : ∃ e, (d e).send = .opened
  · obtain ⟨e, he⟩ := hopen
    have hmay : Duplex.May (d e).send (d e).receive .close := ⟨he, by rw [hreceive]; exact hidle _⟩
    refine .inr ⟨e, .sealClose, .close, rfl, by simp [Half.Payload], hpermitted e _ ?_ hmay⟩
    simp [he, Half.left]
  rw [not_exists] at hopen
  have hclosed : ∀ e, (d e).send = .closed := by
    intro e
    by_contra hne
    exact hopen e (Half.opened_of_ne (hidle e) hne)
  refine .inl fun e => ⟨?_, hempty e⟩
  rw [hstate e]
  exact Duplex.state_eq_closed.mpr ⟨hclosed e, by rw [hreceive, hclosed]⟩

/-- A control record sealed in a run whose endpoints can close, with nothing in flight. -/
theorem seal_progress (haead : aead.Correct)
    (hp : Path (OrderlyStep aead) (init secrets) h fifo) (hcan : ∀ e, fifo.CanClose e)
    (hempty : ∀ e, fifo.queue e = []) {call : Call} {t : RecordType}
    (hcall : call.message? = some ⟨t, .guard, []⟩) (hcontrol : ¬ Half.Payload t)
    (hpermitted : (fifo.session e).Permitted ⟨t, .guard, []⟩) :
    ∃ ev next, OrderlyStep aead fifo ev next ∧ (∀ e, next.CanClose e) ∧
      next.pending < fifo.pending := by
  let r := (fifo.session e).step aead call
  let ev : NetEvent := ⟨e, call, r.1⟩
  let next := fifo.afterLocal e call r
  have hlocal : ∀ input, call ≠ .openRecord input := by
    rintro input rfl
    cases hcall
  have hs : OrderlyStep aead fifo ev next :=
    ⟨.call hlocal r rfl rfl rfl, fun _ => ⟨_, hcall, hpermitted⟩⟩
  have hp' := hp.snoc hs
  obtain ⟨w, hseal, -⟩ := permitted_step haead hcall hpermitted
  have hr : r = (.record (.ok w), (fifo.session e).afterSealed ⟨t, .guard, []⟩) := hseal
  have hx : inFlight? call r =
      some ⟨w, ⟨t, .guard, []⟩, (fifo.session e).afterSealed ⟨t, .guard, []⟩⟩ := by
    unfold inFlight?
    rw [hcall, hr]
    rfl
  have hqueue : next.queue e = [⟨w, ⟨t, .guard, []⟩,
      (fifo.session e).afterSealed ⟨t, .guard, []⟩⟩] := by
    simp [next, afterLocal, hempty, hx]
  have hqueue' : next.queue e.peer = [] := by
    simp [next, afterLocal, hempty, Function.update_of_ne e.peer_ne]
  have hne : ∀ f, (next.session f).state ≠ .failed := by
    intro f
    rw [Ne, failed_iff_of_orderly haead hp', givenLate_snoc,
      ← failed_iff_of_orderly haead hp]
    rintro (hfailed | ⟨-, hgives, -⟩)
    · exact (hcan f).not_failed hfailed
    · exact not_givesPayload_of_local hlocal hgives
  have hsent : sentBy e (h ++ [ev]) = sentBy e h ++ [⟨t, .guard, []⟩] := by
    have hout : ev.output = .record (.ok w) := congrArg Prod.fst hr
    have hself := @sentBy_snoc_self h ev
    rw [hout, actsOf_sealed hcall, sentOf_sent] at hself
    exact hself
  -- the peer stays as it is, apart from the control record on its way to it
  have hpeer := (hcan e.peer).same (path_of_orderly hp) (path_of_orderly hp') (hne e.peer)
    (sentBy_snoc_ne e.peer_ne.symm) (by
      intro _ y hy
      rw [e.peer_peer, hqueue, List.mem_singleton] at hy
      rw [hy]
      exact hcontrol)
  obtain ⟨half, hsending⟩ := exists_sending (path_of_orderly hp) (hcan e).not_failed
  obtain ⟨half', hsending'⟩ := exists_sending (path_of_orderly hp') (hne e)
  have hless : half'.left + 1 = half.left := by
    rcases Half.left_next (hsending.moved hsending' hsent) with ⟨hpayload, -⟩ | ⟨-, hless⟩
    · exact absurd hpayload hcontrol
    · exact hless
  have hself : next.CanClose e := by
    refine ⟨hne e, fun _ y hy => ?_, hsending'.room_iff.mpr fun _ => ?_⟩
    · rw [hqueue'] at hy
      cases hy
    · have hroom := hsending.room_iff.mp (hcan e).room (by omega)
      rw [hsent, onChannel_append, onChannel_singleton, if_pos rfl, List.length_append,
        List.length_singleton]
      omega
  refine ⟨ev, next, hs, ?_, ?_⟩
  · intro f
    rcases EndpointRole.eq_or_eq_peer e f with rfl | rfl
    · exact hself
    · exact hpeer.1
  · rw [pending_eq next e, pending_eq fifo e]
    unfold pendingOf
    rw [hpeer.2, hsending.outstanding_eq, hsending'.outstanding_eq, hqueue, hqueue', hempty, hempty]
    simp only [List.length_nil, List.length_singleton]
    omega

/-- **Closing.**  In a run in which every local call is permitted and no hard limit is reached, two
endpoints that can both close get to Closed with nothing in flight, within as many steps as are
pending; from any other state of such a run no continuation leads there. -/
theorem closes_iff (haead : aead.Correct) (hp : Path (OrderlyStep aead) (init secrets) h fifo) :
    ((∀ e, fifo.CanClose e) →
      ∃ h' last, Path (OrderlyStep aead) fifo h' last ∧ last.Ended ∧ h'.length ≤ fifo.pending) ∧
    ((∃ h' last, Path (OrderlyStep aead) fifo h' last ∧ last.Ended) → ∀ e, fifo.CanClose e) := by
  constructor
  · intro hcan
    refine Path.progress (P := fun fifo : Fifo => ∀ e, fifo.CanClose e) pending ?_ hp hcan
    intro h fifo hp hcan
    by_cases hempty : ∀ e, fifo.queue e = []
    · rcases exists_control haead (path_of_orderly hp) hcan hempty with
        hended | ⟨e, call, t, hcall, hcontrol, hpermitted⟩
      · exact .inl hended
      · exact .inr (seal_progress haead hp hcan hempty hcall hcontrol hpermitted)
    · rw [not_forall] at hempty
      obtain ⟨e, hne⟩ := hempty
      obtain ⟨x, rest, hqueue⟩ := List.exists_cons_of_ne_nil hne
      rw [← e.peer_peer] at hqueue
      exact .inr (deliver_progress haead hp hcan hqueue)
  · rintro ⟨h', last, hrun, hended⟩ e
    refine Path.backward (P := fun fifo : Fifo => fifo.CanClose e) ?_ hp hrun ?_
    · intro h fifo ev next hp hs hnext
      exact canClose_of_step haead hp hs hnext
    · exact canClose_of_ended (path_of_orderly (hp.append hrun)) hended e

/-- The Client has closed, and the Server's Close is to come. -/
def halfClosed : List Input :=
  [.call .client .sealCommit, .call .server .sealCommit, .deliver .server, .deliver .client,
    .call .client (.sealData .menora (ascii "G301")), .call .client .sealClose]

theorem halfClosed_isSome :
    (exec? (orderlyMove whitepaperAead) (init whitepaperSecrets) halfClosed).isSome := by
  decide +kernel

theorem closes_iff_halfClosed :
    let fifo := ((exec? (orderlyMove whitepaperAead) (init whitepaperSecrets) halfClosed).get
      halfClosed_isSome).2
    ∃ h' last, Path (OrderlyStep whitepaperAead) fifo h' last ∧ last.Ended ∧ h'.length ≤ 4 := by
  intro fifo
  have hpending : fifo.pending = 4 := by decide +kernel
  have hcloses := (closes_iff (Aead.gcm_correct _ _)
    (path_exec? orderlyStep_of_move (Option.some_get halfClosed_isSome).symm)).1
  rw [hpending] at hcloses
  apply hcloses
  intro e
  cases e
  · refine ⟨by decide +kernel, fun _ x hx => ?_, fun hleft => absurd ?_ hleft⟩
    · have hnil : fifo.queue .server = [] := by
        apply List.eq_nil_of_length_eq_zero
        decide +kernel
      exact absurd hx (hnil ▸ List.not_mem_nil)
    · decide +kernel
  · refine ⟨by decide +kernel, fun hclose => absurd hclose ?_, fun _ => ?_⟩
    · decide +kernel
    · unfold Usage.HasRoom
      decide +kernel

end Fifo

end G301.Inner
