import G301.Inner.Duplex

/-! # Runs of one session

`Session.Step` is one call with any AEAD, `Lts.Path Session.Step` a run.  The history of a
run determines the messages it sealed and opened (`actsOf`), hence the usage of every
context (`usageOf`).

`Session.run_refines` is the refinement theorem of the inner layer: whatever is called and
however the AEAD answers, the session follows the abstract `Duplex` model; its state and
flags are those of the pair of streams unless it failed, its counters are those of the
messages, and a session that is no longer live is erased. -/

namespace G301.Inner

open ByteString Lts

/-- A call and what it returned. -/
abbrev Event := Call × Output

/-- One call on a session, with any AEAD. -/
def Session.Step (session : Session) (e : Event) (next : Session) : Prop :=
  ∃ aead, session.step aead e.1 = (e.2, next)

/-- The message an event let across the border. -/
def Event.act? : Event → Option Act
  | (call, .record (.ok _)) => call.message?.map .sent
  | (_, .opened (.ok o)) => some (.received o.message)
  | _ => none

/-- The messages of a history, in order. -/
def actsOf (h : List Event) : List Act := h.filterMap Event.act?

@[simp] theorem actsOf_append (h h' : List Event) : actsOf (h ++ h') = actsOf h ++ actsOf h' := by
  simp [actsOf]

theorem actsOf_refusal (call : Call) (error : Error) :
    actsOf [(call, call.refusal error)] = [] := by
  cases call <;> rfl

theorem actsOf_sealed {call : Call} {m : Message} (h : call.message? = some m) (w : Bytes) :
    actsOf [(call, .record (.ok w))] = [.sent m] := by
  simp [actsOf, Event.act?, h]

theorem actsOf_opened (call : Call) (o : OpenedRecord) :
    actsOf [(call, .opened (.ok o))] = [.received o.message] := rfl

theorem wellFormed_of_mem_actsOf {h : List Event} {a : Act} (ha : a ∈ actsOf h) :
    a.message.WellFormed := by
  obtain ⟨⟨call, out⟩, -, hact⟩ := List.mem_filterMap.mp ha
  cases out with
  | record r =>
      cases r with
      | error e => simp [Event.act?] at hact
      | ok w =>
          simp only [Event.act?, Option.map_eq_some_iff] at hact
          obtain ⟨m, hm, rfl⟩ := hact
          exact Call.wellFormed_of_message? hm
  | opened r =>
      cases r with
      | error e => simp [Event.act?] at hact
      | ok o =>
          obtain rfl := Option.some.inj hact
          exact o.wellFormed_message
  | none => simp [Event.act?] at hact

/-! ### Usage -/

/-- The messages on a channel. -/
def onChannel (c : Channel) (ms : List Message) : List Message := ms.filter (·.channel = c)

/-- The counters of a context after the messages of its direction. -/
def usageOf (c : Channel) (ms : List Message) : Usage :=
  (onChannel c ms).foldl (fun u m => u.add m.plaintext.length) Usage.default

@[simp] theorem onChannel_append (c : Channel) (ms ms' : List Message) :
    onChannel c (ms ++ ms') = onChannel c ms ++ onChannel c ms' := by
  simp [onChannel]

theorem onChannel_singleton (c : Channel) (m : Message) :
    onChannel c [m] = if m.channel = c then [m] else [] := by
  by_cases h : m.channel = c <;> simp [onChannel, h]

theorem usageOf_snoc (c : Channel) (ms : List Message) (m : Message) :
    usageOf c (ms ++ [m]) =
      if m.channel = c then (usageOf c ms).add m.plaintext.length else usageOf c ms := by
  by_cases h : m.channel = c <;> simp [usageOf, onChannel_singleton, h, List.foldl_append]

theorem usageOf_counts (c : Channel) (ms : List Message) :
    (usageOf c ms).nextSequence = (onChannel c ms).length ∧
      (usageOf c ms).records = (onChannel c ms).length := by
  induction ms using List.reverseRecOn with
  | nil => exact ⟨rfl, rfl⟩
  | append_singleton ms m ih =>
      rw [usageOf_snoc, onChannel_append, onChannel_singleton]
      split
      · simp [Usage.add, ih.1, ih.2]
      · simpa using ih

theorem nextSequence_usageOf (c : Channel) (ms : List Message) :
    (usageOf c ms).nextSequence = (onChannel c ms).length :=
  (usageOf_counts c ms).1

namespace Session

/-- All keys, IVs and counters are zero. -/
def Erased (session : Session) : Prop :=
  (∀ i, session.traffic i = TrafficKey.zeroed) ∧ ∀ i, session.usage i = Usage.default

/-- The four flags are those of the two streams. -/
structure Flags (d : Duplex) (session : Session) : Prop where
  localCommitSent : session.localCommitSent = decide (d.send ≠ .idle)
  peerCommitReceived : session.peerCommitReceived = decide (d.receive ≠ .idle)
  localCloseSent : session.localCloseSent = decide (d.send = .closed)
  peerCloseReceived : session.peerCloseReceived = decide (d.receive = .closed)

/-- The session of `role` and `secrets` stands where the messages `acts` lead. -/
structure Refines (role : EndpointRole) (secrets : DerivedSecrets) (acts : List Act)
    (d : Duplex) (session : Session) : Prop where
  role_eq : session.role = role
  manifestHash_eq : session.manifestHash = secrets.manifestHash
  contextHash_eq : session.contextHash = secrets.contextHash
  state_eq : session.state ≠ .failed → session.state = d.state
  flags : session.state ≠ .failed → session.Flags d
  traffic_eq : session.Live → session.traffic = secrets.traffic
  sendUsage : session.Live → ∀ c,
    session.usageOn role.sendDirection c = usageOf c (sentOf acts)
  receiveUsage : session.Live → ∀ c,
    session.usageOn role.receiveDirection c = usageOf c (receivedOf acts)
  erased : session.state.terminal = true → session.Erased

/-! ### The checks are the rules of the streams -/

section
variable {d : Duplex} {session : Session}

theorem maySeal_iff (hf : session.Flags d) (hs : session.state = d.state) (t : RecordType) :
    session.MaySeal t ↔ Duplex.May d.send d.receive t := by
  obtain ⟨s, r, hc⟩ := d
  cases t <;> simp only [MaySeal, Duplex.May, hs, hf.localCommitSent, hf.localCloseSent,
      hf.peerCloseReceived] <;>
    cases s <;> cases r <;> simp [Duplex.state] at hc ⊢

theorem mayOpen_iff (hf : session.Flags d) (hs : session.state = d.state) (t : RecordType) :
    session.MayOpen t ↔ Duplex.May d.receive d.send t := by
  obtain ⟨s, r, hc⟩ := d
  cases t <;> simp only [MayOpen, Duplex.May, hs, hf.peerCommitReceived,
      hf.peerCloseReceived] <;>
    cases s <;> cases r <;> simp [Duplex.state] at hc ⊢

/-- The half a permitted message moves to, with the pair it makes. -/
theorem exists_sent {t : RecordType} (hmay : Duplex.May d.send d.receive t) :
    ∃ d' : Duplex, d.send.next t = some d'.send ∧ d'.receive = d.receive := by
  obtain ⟨s, r, hc⟩ := d
  cases t <;> simp only [Duplex.May] at hmay
  case commit =>
      subst hmay
      exact ⟨⟨.opened, r, by intro h; cases r <;> simp at h hc ⊢⟩, rfl, rfl⟩
  case data =>
      obtain ⟨rfl, rfl⟩ := hmay
      exact ⟨⟨.opened, .opened, by simp⟩, rfl, rfl⟩
  case refreshRequired =>
      obtain ⟨rfl, rfl⟩ := hmay
      exact ⟨⟨.opened, .opened, by simp⟩, rfl, rfl⟩
  case close =>
      obtain ⟨rfl, hr⟩ := hmay
      exact ⟨⟨.closed, r, fun _ => ⟨by simp, hr⟩⟩, rfl, rfl⟩

theorem exists_received {t : RecordType} (hmay : Duplex.May d.receive d.send t) :
    ∃ d' : Duplex, d.receive.next t = some d'.receive ∧ d'.send = d.send := by
  have hc := d.committed
  obtain ⟨d', hn, ho⟩ := exists_sent (d := ⟨d.receive, d.send, fun h => (hc h.symm).symm⟩) hmay
  exact ⟨⟨d'.receive, d'.send, fun h => (d'.committed h.symm).symm⟩, hn, ho⟩

/-! ### Effect on state and flags -/

theorem noteSealed_flags {d' : Duplex} {t : RecordType} (hf : session.Flags d)
    (hs : session.state = d.state) (hmay : Duplex.May d.send d.receive t)
    (hnext : d.send.next t = some d'.send) (hother : d'.receive = d.receive) :
    (session.noteSealed t).Flags d' ∧ (session.noteSealed t).state = d'.state := by
  obtain ⟨hf1, hf2, hf3, hf4⟩ := hf
  obtain ⟨s, r, hc⟩ := d
  obtain ⟨s', r', hc'⟩ := d'
  dsimp only at hother hnext hf1 hf2 hf3 hf4
  subst hother
  cases t <;> cases s <;> simp only [Half.next, Option.some.injEq, reduceCtorEq] at hnext <;>
    subst hnext <;> cases r' <;> simp [Duplex.May] at hmay hc hc'
  all_goals
    constructor
    · constructor <;> simp [noteSealed, finishCloseIfComplete, erase, hf1, hf2, hf3, hf4]
    · simp [noteSealed, finishCloseIfComplete, hs, hf2, hf4, Duplex.state]

theorem noteOpened_flags {d' : Duplex} {t : RecordType} (hf : session.Flags d)
    (hs : session.state = d.state) (hmay : Duplex.May d.receive d.send t)
    (hnext : d.receive.next t = some d'.receive) (hother : d'.send = d.send) :
    (session.noteOpened t).Flags d' ∧ (session.noteOpened t).state = d'.state := by
  obtain ⟨hf1, hf2, hf3, hf4⟩ := hf
  obtain ⟨s, r, hc⟩ := d
  obtain ⟨s', r', hc'⟩ := d'
  dsimp only at hother hnext hf1 hf2 hf3 hf4
  subst hother
  cases t <;> cases r <;> simp only [Half.next, Option.some.injEq, reduceCtorEq] at hnext <;>
    subst hnext <;> cases s' <;> simp [Duplex.May] at hmay hc hc'
  all_goals
    constructor
    · constructor <;> simp [noteOpened, finishCloseIfComplete, erase, hf1, hf2, hf3, hf4]
    · simp [noteOpened, finishCloseIfComplete, hs, hf1, hf3, Duplex.state]

end

/-! ### Frames -/

theorem finishCloseIfComplete_cases (s : Session) :
    s.finishCloseIfComplete = { s.erase with state := .closed } ∨ s.finishCloseIfComplete = s := by
  unfold finishCloseIfComplete
  split
  · exact .inl rfl
  · exact .inr rfl

theorem erased_dead (s : Session) : s.dead.Erased := ⟨fun _ => rfl, fun _ => rfl⟩

theorem erased_closed (s : Session) : ({ s.erase with state := .closed } : Session).Erased :=
  ⟨fun _ => rfl, fun _ => rfl⟩

/-- `s'` is `s` up to flags, state and erasure; erasure ends in a terminal state. -/
structure SameKeys (s s' : Session) : Prop where
  role_eq : s'.role = s.role
  manifestHash_eq : s'.manifestHash = s.manifestHash
  contextHash_eq : s'.contextHash = s.contextHash
  kept : s'.Live → s'.traffic = s.traffic ∧ s'.usage = s.usage
  erased : s.Live → s'.state.terminal = true → s'.Erased

/-- Flags and a non-terminal state may change freely. -/
theorem sameKeys_flags {s s' : Session} (hr : s'.role = s.role)
    (hm : s'.manifestHash = s.manifestHash) (hc : s'.contextHash = s.contextHash)
    (ht : s'.traffic = s.traffic) (hu : s'.usage = s.usage)
    (hlive : s.Live → s'.Live) : s.SameKeys s' :=
  ⟨hr, hm, hc, fun _ => ⟨ht, hu⟩, fun h hterm => by
    have := hlive h
    rw [Live, hterm] at this; cases this⟩

theorem sameKeys_finishClose {s s' : Session} (hr : s'.role = s.role)
    (hm : s'.manifestHash = s.manifestHash) (hc : s'.contextHash = s.contextHash)
    (ht : s'.traffic = s.traffic) (hu : s'.usage = s.usage) (hstate : s'.state = .draining) :
    s.SameKeys s'.finishCloseIfComplete := by
  have hlive : s'.Live := live_of_state hstate rfl
  rcases s'.finishCloseIfComplete_cases with h | h
  · rw [h]
    exact ⟨hr, hm, hc, fun h => (by cases h), fun _ _ => s'.erased_closed⟩
  · rw [h]
    exact sameKeys_flags hr hm hc ht hu fun _ => hlive

theorem sameKeys_noteSealed (s : Session) (t : RecordType) : s.SameKeys (s.noteSealed t) := by
  cases t with
  | data => exact sameKeys_flags rfl rfl rfl rfl rfl id
  | refreshRequired => exact sameKeys_flags rfl rfl rfl rfl rfl id
  | commit =>
      simp only [noteSealed]
      split
      · exact sameKeys_flags rfl rfl rfl rfl rfl fun _ => rfl
      · exact sameKeys_flags rfl rfl rfl rfl rfl id
  | close => exact sameKeys_finishClose rfl rfl rfl rfl rfl rfl

theorem sameKeys_noteOpened (s : Session) (t : RecordType) : s.SameKeys (s.noteOpened t) := by
  cases t with
  | data => exact sameKeys_flags rfl rfl rfl rfl rfl id
  | refreshRequired => exact sameKeys_flags rfl rfl rfl rfl rfl id
  | commit =>
      simp only [noteOpened]
      split
      · exact sameKeys_flags rfl rfl rfl rfl rfl fun _ => rfl
      · exact sameKeys_flags rfl rfl rfl rfl rfl id
  | close => exact sameKeys_finishClose rfl rfl rfl rfl rfl rfl

/-- The end of `openRecord`: a hard limit erases a session that is still live. -/
theorem terminate_cases (s : Session) (reached : Bool) :
    (reached = true ∧ s.Live ∧ s.terminateIfHardLimitReached reached = s.dead) ∨
      s.terminateIfHardLimitReached reached = s := by
  unfold terminateIfHardLimitReached
  split
  · rename_i h
    obtain ⟨hr, hl⟩ := Bool.and_eq_true_iff.mp h
    exact .inl ⟨hr, by simpa using hl, rfl⟩
  · exact .inr rfl

theorem usageOn_counted (s : Session) (d e : Direction) (m : Message) (c : Channel) :
    (s.counted d m).usageOn e c =
      if m.channel = c ∧ d = e then (s.usageOn d m.channel).add m.plaintext.length
      else s.usageOn e c := by
  simp only [counted, setUsage, usageOn, Function.update_apply, materialIndex_eq_iff]
  by_cases h : m.channel = c ∧ d = e
  · simp [h.1, h.2]
  · have h' : ¬ (c = m.channel ∧ e = d) := fun ⟨h1, h2⟩ => h ⟨h1.symm, h2.symm⟩
    simp [h, h']

/-! ### One step, and whole runs -/

section
variable {role : EndpointRole} {secrets : DerivedSecrets} {acts : List Act} {d : Duplex}
variable {session : Session}

theorem Refines.live (h : Refines role secrets acts d session) (hlive : session.Live) :
    session.state = d.state ∧ session.Flags d :=
  ⟨h.state_eq hlive.state_ne_failed, h.flags hlive.state_ne_failed⟩

theorem Refines.dead (h : Refines role secrets acts d session) (acts' : List Act) (d' : Duplex) :
    Refines role secrets acts' d' session.dead :=
  ⟨h.role_eq, h.manifestHash_eq, h.contextHash_eq, fun hne => absurd rfl hne,
    fun hne => absurd rfl hne, fun hl => (by cases hl), fun hl => (by cases hl),
    fun hl => (by cases hl), fun _ => session.erased_dead⟩

/-- Keys and counters after a message of the sending direction. -/
theorem Refines.sent (h : Refines role secrets acts d session) (hlive : session.Live) {m : Message}
    {s' : Session} {d' : Duplex} (hk : (session.counted role.sendDirection m).SameKeys s')
    (hf : s'.Flags d') (hs : s'.state = d'.state) :
    Refines role secrets (acts ++ [.sent m]) d' s' := by
  refine ⟨hk.role_eq.trans h.role_eq, hk.manifestHash_eq.trans h.manifestHash_eq,
    hk.contextHash_eq.trans h.contextHash_eq, fun _ => hs, fun _ => hf, ?_, ?_, ?_, ?_⟩
  · intro hl
    exact (hk.kept hl).1.trans (h.traffic_eq hlive)
  · intro hl c
    have hu : s'.usageOn role.sendDirection c =
        (session.counted role.sendDirection m).usageOn role.sendDirection c := by
      rw [usageOn, (hk.kept hl).2]
    rw [hu, usageOn_counted, sentOf_append, sentOf_sent, usageOf_snoc]
    by_cases hc : m.channel = c
    · simp only [hc, and_self, if_true, h.sendUsage hlive]
    · simp only [hc, false_and, if_false, h.sendUsage hlive]
  · intro hl c
    have hu : s'.usageOn role.receiveDirection c =
        (session.counted role.sendDirection m).usageOn role.receiveDirection c := by
      rw [usageOn, (hk.kept hl).2]
    rw [hu, usageOn_counted, receivedOf_append, receivedOf_sent, List.append_nil]
    simp only [role.receiveDirection_ne_sendDirection.symm, and_false, if_false,
      h.receiveUsage hlive]
  · exact hk.erased hlive

/-- Keys and counters after a message of the receiving direction. -/
theorem Refines.received (h : Refines role secrets acts d session) (hlive : session.Live)
    {m : Message} {s' : Session} {d' : Duplex}
    (hk : (session.counted role.receiveDirection m).SameKeys s')
    (hf : s'.Flags d') (hs : s'.state = d'.state) :
    Refines role secrets (acts ++ [.received m]) d' s' := by
  refine ⟨hk.role_eq.trans h.role_eq, hk.manifestHash_eq.trans h.manifestHash_eq,
    hk.contextHash_eq.trans h.contextHash_eq, fun _ => hs, fun _ => hf, ?_, ?_, ?_, ?_⟩
  · intro hl
    exact (hk.kept hl).1.trans (h.traffic_eq hlive)
  · intro hl c
    have hu : s'.usageOn role.sendDirection c =
        (session.counted role.receiveDirection m).usageOn role.sendDirection c := by
      rw [usageOn, (hk.kept hl).2]
    rw [hu, usageOn_counted, sentOf_append, sentOf_received, List.append_nil]
    simp only [role.receiveDirection_ne_sendDirection, and_false, if_false, h.sendUsage hlive]
  · intro hl c
    have hu : s'.usageOn role.receiveDirection c =
        (session.counted role.receiveDirection m).usageOn role.receiveDirection c := by
      rw [usageOn, (hk.kept hl).2]
    rw [hu, usageOn_counted, receivedOf_append, receivedOf_received, usageOf_snoc]
    by_cases hc : m.channel = c
    · simp only [hc, and_self, if_true, h.receiveUsage hlive]
    · simp only [hc, false_and, if_false, h.receiveUsage hlive]
  · exact hk.erased hlive

/-- A sealed message moves the streams and keeps the refinement. -/
theorem Refines.afterSealed (h : Refines role secrets acts d session) {m : Message}
    (hmay : session.MaySeal m.recordType) :
    ∃ d', Duplex.Step d (.sent m) d' ∧
      Refines role secrets (acts ++ [.sent m]) d' (session.afterSealed m) := by
  obtain ⟨hs, hf⟩ := h.live hmay.live
  have hm := (maySeal_iff hf hs m.recordType).mp hmay
  obtain ⟨d', hnext, hother⟩ := exists_sent hm
  refine ⟨d', .sent hm hnext hother, ?_⟩
  cases hlim : session.reachesLimit session.role.sendDirection m with
  | true =>
      rw [afterSealed_of_limit hlim]
      exact h.dead _ _
  | false =>
      rw [afterSealed_of_not_limit hlim, h.role_eq]
      have hf' : (session.counted role.sendDirection m).Flags d := ⟨hf.1, hf.2, hf.3, hf.4⟩
      obtain ⟨hfl, hst⟩ := noteSealed_flags hf' hs hm hnext hother
      exact h.sent hmay.live (sameKeys_noteSealed _ _) hfl hst

/-- An opened message moves the streams and keeps the refinement. -/
theorem Refines.afterOpened (h : Refines role secrets acts d session) {m : Message}
    (hmay : session.MayOpen m.recordType) :
    ∃ d', Duplex.Step d (.received m) d' ∧
      Refines role secrets (acts ++ [.received m]) d' (session.afterOpened m) := by
  obtain ⟨hs, hf⟩ := h.live hmay.live
  have hm := (mayOpen_iff hf hs m.recordType).mp hmay
  obtain ⟨d', hnext, hother⟩ := exists_received hm
  refine ⟨d', .received hm hnext hother, ?_⟩
  have hf' : (session.counted role.receiveDirection m).Flags d := ⟨hf.1, hf.2, hf.3, hf.4⟩
  obtain ⟨hfl, hst⟩ := noteOpened_flags hf' hs hm hnext hother
  have href := h.received hmay.live (sameKeys_noteOpened _ _) hfl hst
  simp only [Session.afterOpened, h.role_eq]
  rcases terminate_cases ((session.counted role.receiveDirection m).noteOpened m.recordType)
    (session.reachesLimit role.receiveDirection m) with ⟨-, -, hd⟩ | hd
  · rw [hd]; exact href.dead _ _
  · rw [hd]; exact href

/-- One call: the session follows the abstract model. -/
theorem Refines.step (h : Refines role secrets acts d session) {e : Event} {s' : Session}
    (hstep : session.Step e s') :
    ∃ d', Path Duplex.Step d (actsOf [e]) d' ∧ Refines role secrets (acts ++ actsOf [e]) d' s' := by
  obtain ⟨aead, hstep⟩ := hstep
  obtain ⟨call, out⟩ := e
  have hcase := step_cases aead session call
  rw [hstep] at hcase
  cases hcase with
  | terminal _ hout hnext =>
      dsimp only at hout hnext
      subst hout hnext
      rw [actsOf_refusal, List.append_nil]
      exact ⟨d, .nil, h⟩
  | refused _ _ hout hnext =>
      dsimp only at hout hnext
      subst hout hnext
      rw [actsOf_refusal]
      exact ⟨d, .nil, h.dead _ _⟩
  | sealed m _ _ hcall hmay _ _ _ hout hnext =>
      dsimp only at hout hnext
      subst hout hnext
      rw [actsOf_sealed hcall]
      obtain ⟨d', hd, hr⟩ := h.afterSealed hmay
      exact ⟨d', .single hd, hr⟩
  | opened o _ _ _ hmay _ _ _ hout hnext =>
      dsimp only at hout hnext
      subst hout hnext
      rw [actsOf_opened]
      obtain ⟨d', hd, hr⟩ := h.afterOpened hmay
      exact ⟨d', .single hd, hr⟩

end

theorem refines_ofSecrets (role : EndpointRole) (secrets : DerivedSecrets) :
    Refines role secrets [] Duplex.init (ofSecrets role secrets) :=
  ⟨rfl, rfl, rfl, fun _ => rfl, fun _ => ⟨rfl, rfl, rfl, rfl⟩, fun _ => rfl, fun _ _ => rfl,
    fun _ _ => rfl, fun h => by cases h⟩

/-- **Refinement.**  Every run of a session is a run of the two-stream model. -/
theorem run_refines {role : EndpointRole} {secrets : DerivedSecrets} {h : List Event}
    {s : Session} (hp : Path Step (ofSecrets role secrets) h s) :
    ∃ d, Path Duplex.Step Duplex.init (actsOf h) d ∧ Refines role secrets (actsOf h) d s := by
  refine hp.invariant (P := fun h s => ∃ d, Path Duplex.Step Duplex.init (actsOf h) d ∧
    Refines role secrets (actsOf h) d s) ⟨_, .nil, refines_ofSecrets role secrets⟩ ?_
  intro h s e s' _ ⟨d, hd, hr⟩ hstep
  obtain ⟨d', hd', hr'⟩ := hr.step hstep
  rw [actsOf_append]
  exact ⟨d', hd.append hd', hr'⟩

end Session

end G301.Inner
