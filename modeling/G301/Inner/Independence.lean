import G301.Inner.Terminal

/-! # The channels are independent

`channels_independent`: what the data operations of one channel and direction return depends on
the earlier operations of that channel and direction alone, and two schedules that interleave
the same operations differently end in the same session.

An operation reads and writes one slot of the counters, the one of its context.
`Session.only i` forgets the others; a run of data operations, seen through it, is the run of
the operations on context `i` (`DataStep.only`, `DataStep.other`). -/

namespace G301.Inner

open ByteString Lts

/-- Context and plaintext length of a data operation: the call seals data, or opens what
parses as a data record. -/
def Call.data? (role : EndpointRole) : Call → Option (Fin materialCount × ℕ)
  | .sealData c p => some (materialIndex c.channel role.sendDirection, p.length)
  | .openRecord input =>
      match parse input with
      | .ok parsed =>
          if parsed.header.recordType = .data then
            some (materialIndex parsed.header.channel role.receiveDirection,
              parsed.header.plaintextLen)
          else none
      | .error _ => none
  | _ => none

/-- A call with the AEAD that answers it, and what it returned. -/
abbrev DataEvent := (Aead × Call) × Output

namespace Session

/-- A data operation that succeeds and reaches no hard limit. -/
structure DataStep (session : Session) (e : DataEvent) (next : Session) : Prop where
  step_eq : session.step e.1.1 e.1.2 = (e.2, next)
  isOk : e.2.isOk = true
  below : ∃ i n, e.1.2.data? session.role = some (i, n) ∧
    ((session.usage i).add n).hardLimitReached = false

/-- The event is an operation on context `i`. -/
def onContext (role : EndpointRole) (i : Fin materialCount) (e : DataEvent) : Bool :=
  (e.1.2.data? role).any fun x => x.1 = i

/-- The session as context `i` sees it: every slot shows the counters of `i`. -/
def only (i : Fin materialCount) (session : Session) : Session :=
  { session with usage := fun _ => session.usage i }

theorem afterSealed_data {session : Session} {c : Channel} {p : Bytes}
    (h : session.reachesLimit session.role.sendDirection ⟨.data, c, p⟩ = false) :
    session.afterSealed ⟨.data, c, p⟩ =
      session.counted session.role.sendDirection ⟨.data, c, p⟩ :=
  afterSealed_of_not_limit h

theorem afterOpened_data {session : Session} {c : DataChannel} {p : Bytes}
    (h : session.reachesLimit session.role.receiveDirection (OpenedRecord.data c p).message =
      false) :
    session.afterOpened (OpenedRecord.data c p).message =
      session.counted session.role.receiveDirection (OpenedRecord.data c p).message := by
  simp only [afterOpened, h, terminateIfHardLimitReached, Bool.false_and, Bool.false_eq_true,
    if_false]
  rfl

/-- A data operation counts its record in the slot of its context, and returns what it would
return if every other slot were different. -/
theorem DataStep.spec {session next : Session} {e : DataEvent} (h : DataStep session e next) :
    ∃ i n, e.1.2.data? session.role = some (i, n) ∧
      next = session.setUsage i ((session.usage i).add n) ∧
      (session.only i).step e.1.1 e.1.2 =
        (e.2, (session.only i).setUsage i ((session.usage i).add n)) := by
  obtain ⟨hstep, hok, i, n, hdata, hbelow⟩ := h
  obtain ⟨⟨aead, call⟩, out⟩ := e
  refine ⟨i, n, hdata, ?_⟩
  have hcase := step_cases aead session call
  dsimp only at hstep hok hdata
  rw [hstep] at hcase
  cases hcase with
  | terminal _ hout =>
      dsimp only at hout
      subst hout
      cases call <;> cases hok
  | refused _ _ hout =>
      dsimp only at hout
      subst hout
      cases call <;> cases hok
  | sealed m ciphertext tag hcall hmay hfits hencrypt hct hout hnext =>
      dsimp only at hout hnext
      subst hout hnext
      cases call with
      | sealData c p =>
          obtain rfl := Option.some.inj hcall
          obtain ⟨rfl, rfl⟩ := Prod.mk.inj (Option.some.inj hdata)
          have hlimit : session.reachesLimit session.role.sendDirection ⟨.data, c.channel, p⟩ =
              false := hbelow
          let one := session.only (materialIndex c.channel session.role.sendDirection)
          have honeLimit : one.reachesLimit one.role.sendDirection ⟨.data, c.channel, p⟩ = false :=
            hlimit
          have hone : one.step aead (.sealData c p) = _ :=
            step_of_maySeal rfl hmay ⟨hfits.permits, hfits.length_le⟩ hencrypt hct
          rw [afterSealed_data honeLimit] at hone
          rw [afterSealed_data hlimit]
          exact ⟨rfl, hone⟩
      | sealCommit => cases hdata
      | sealRefreshRequired => cases hdata
      | sealClose => cases hdata
      | openRecord input => cases hcall
      | abort => cases hcall
  | opened o ciphertext tag hcall hmay hfits hdecrypt hct hout hnext =>
      dsimp only at hout hnext
      subst hout hnext hcall
      have hparse := parse_wire o.message.recordType o.message.channel tag
        (Usage.nextSequence_lt_of_permits hfits.permits) (hct ▸ hfits.length_le)
      simp only [Call.data?, recordWire, hparse] at hdata
      cases o with
      | data c p =>
          obtain ⟨rfl, rfl⟩ := Prod.mk.inj (Option.some.inj hdata)
          have hlimit : session.reachesLimit session.role.receiveDirection
              (OpenedRecord.data c p).message = false := by
            rw [hct] at hbelow
            exact hbelow
          let one := session.only (materialIndex c.channel session.role.receiveDirection)
          have honeLimit : one.reachesLimit one.role.receiveDirection
              (OpenedRecord.data c p).message = false := hlimit
          have hone : one.step aead (.openRecord (one.recordWire one.role.receiveDirection
              (OpenedRecord.data c p).message ciphertext tag)) = _ :=
            openRecord_recordWire hmay ⟨hfits.permits, hfits.length_le⟩ hdecrypt hct
          rw [afterOpened_data honeLimit] at hone
          rw [afterOpened_data hlimit, hct]
          exact ⟨rfl, hone⟩
      | commit => cases hdata
      | refreshRequired => cases hdata
      | close => cases hdata

/-! ### The view of one context -/

/-- One operation, from a session whose slots all show the same counters. -/
def OnlyStep (i : Fin materialCount) (session : Session) (e : DataEvent) (next : Session) : Prop :=
  ∃ after, session.step e.1.1 e.1.2 = (e.2, after) ∧ next = after.only i

theorem onlyStep_deterministic (i : Fin materialCount) (s : Session) (e e' : DataEvent)
    (t t' : Session) (h : OnlyStep i s e t) (h' : OnlyStep i s e' t') (hcall : e.1 = e'.1) :
    e = e' ∧ t = t' := by
  obtain ⟨after, hstep, rfl⟩ := h
  obtain ⟨after', hstep', rfl⟩ := h'
  rw [hcall, hstep'] at hstep
  obtain ⟨hout, rfl⟩ := Prod.mk.inj hstep
  exact ⟨Prod.ext hcall hout.symm, rfl⟩

section
variable {role : EndpointRole}

theorem DataStep.role_eq {s t : Session} {e : DataEvent} (h : DataStep s e t) : t.role = s.role := by
  obtain ⟨i, n, -, rfl, -⟩ := h.spec
  rfl

/-- Context `i` sees its own operations. -/
theorem DataStep.only {s t : Session} {e : DataEvent} (hrole : s.role = role) (h : DataStep s e t)
    {i : Fin materialCount} (hi : onContext role i e = true) :
    OnlyStep i (s.only i) e (t.only i) := by
  obtain ⟨j, n, hdata, rfl, hstep⟩ := h.spec
  have hij : j = i := by simpa [onContext, ← hrole, hdata] using hi
  subst hij
  refine ⟨_, hstep, ?_⟩
  simp [Session.only, setUsage]

/-- The operations of the others leave context `i` as it is. -/
theorem DataStep.other {s t : Session} {e : DataEvent} (hrole : s.role = role) (h : DataStep s e t)
    {i : Fin materialCount} (hi : onContext role i e = false) : t.only i = s.only i := by
  obtain ⟨j, n, hdata, rfl, -⟩ := h.spec
  have hij : i ≠ j := by
    rintro rfl
    simp [onContext, ← hrole, hdata] at hi
  simp [Session.only, setUsage, Function.update_of_ne hij]

/-- A run of data operations, seen through context `i`. -/
theorem path_only {s t : Session} {h : List DataEvent} (run : Path DataStep s h t)
    (i : Fin materialCount) :
    Path (OnlyStep i) (s.only i) (h.filter (onContext s.role i)) (t.only i) := by
  refine (run.project (P := fun t => t.role = s.role) ?_ ?_ ?_ rfl).2
  · intro t e u ht hstep
    exact hstep.role_eq.trans ht
  · intro t e u ht hstep hi
    exact hstep.only ht hi
  · intro t e u ht hstep hi
    exact hstep.other ht hi

theorem eq_of_only {s t : Session} (h : ∀ i, s.only i = t.only i) : s = t := by
  have husage (i : Fin materialCount) : s.usage i = t.usage i :=
    congrFun (congrArg Session.usage (h i)) i
  have hrest := h 0
  obtain ⟨role, state, manifestHash, contextHash, traffic, usage, f₁, f₂, f₃, f₄⟩ := s
  obtain ⟨role', state', manifestHash', contextHash', traffic', usage', f₁', f₂', f₃', f₄'⟩ := t
  simp only [Session.only, Session.mk.injEq] at hrest husage ⊢
  obtain ⟨h₁, h₂, h₃, h₄, h₅, -, h₇, h₈, h₉, h₁₀⟩ := hrest
  exact ⟨h₁, h₂, h₃, h₄, h₅, funext husage, h₇, h₈, h₉, h₁₀⟩

end

/-- **Channel independence.**  Two schedules of successful data operations, without a hard
limit, from the same session.  On a context where both make the same calls in the same order
they get the same results and end with the same counters, whatever happens on the other
contexts; if this is so on every context, the final sessions are equal. -/
theorem channels_independent {s t t' : Session} {h h' : List DataEvent}
    (run : Path DataStep s h t) (run' : Path DataStep s h' t') :
    (∀ i, (h.filter (onContext s.role i)).map Prod.fst =
        (h'.filter (onContext s.role i)).map Prod.fst →
      h.filter (onContext s.role i) = h'.filter (onContext s.role i) ∧ t.usage i = t'.usage i) ∧
    ((∀ i, (h.filter (onContext s.role i)).map Prod.fst =
        (h'.filter (onContext s.role i)).map Prod.fst) → t = t') := by
  have hcontext (i : Fin materialCount) (hcalls : (h.filter (onContext s.role i)).map Prod.fst =
      (h'.filter (onContext s.role i)).map Prod.fst) :
      h.filter (onContext s.role i) = h'.filter (onContext s.role i) ∧ t.only i = t'.only i :=
    (path_only run i).eq_of_labels (onlyStep_deterministic i) (path_only run' i) hcalls
  refine ⟨fun i hcalls => ?_, fun hcalls => eq_of_only fun i => (hcontext i (hcalls i)).2⟩
  obtain ⟨hevents, honly⟩ := hcontext i hcalls
  exact ⟨hevents, congrFun (congrArg Session.usage honly) i⟩

/-- The Client of the test vectors after both Commits. -/
def activeClient : Session :=
  (exec move (ofSecrets .client whitepaperSecrets)
    [(whitepaperAead, .sealCommit),
      (whitepaperAead, .openRecord
        (((ofSecrets .server whitepaperSecrets).sealCommit whitepaperAead).1.toOption.getD []))]).2

/-- Data on Menora and on Tzafah, in either order: the same records, the same session. -/
theorem channels_independent_twoSeals :
    let menora := Call.sealData .menora (ascii "G301")
    let tzafah := Call.sealData .tzafah []
    let first := activeClient.step whitepaperAead menora
    let first' := activeClient.step whitepaperAead tzafah
    (first.2.step whitepaperAead tzafah).2 = (first'.2.step whitepaperAead menora).2 := by
  intro menora tzafah first first'
  have hfirst : DataStep activeClient ((whitepaperAead, menora), first.1) first.2 :=
    ⟨rfl, by decide +kernel, ⟨_, _, rfl, by decide +kernel⟩⟩
  have hsecond : DataStep first.2
      ((whitepaperAead, tzafah), (first.2.step whitepaperAead tzafah).1)
      (first.2.step whitepaperAead tzafah).2 :=
    ⟨rfl, by decide +kernel, ⟨_, _, rfl, by decide +kernel⟩⟩
  have hfirst' : DataStep activeClient ((whitepaperAead, tzafah), first'.1) first'.2 :=
    ⟨rfl, by decide +kernel, ⟨_, _, rfl, by decide +kernel⟩⟩
  have hsecond' : DataStep first'.2
      ((whitepaperAead, menora), (first'.2.step whitepaperAead menora).1)
      (first'.2.step whitepaperAead menora).2 :=
    ⟨rfl, by decide +kernel, ⟨_, _, rfl, by decide +kernel⟩⟩
  have hrun := (Path.single hfirst).append (.single hsecond)
  have hrun' := (Path.single hfirst').append (.single hsecond')
  refine (channels_independent hrun hrun').2 fun i => ?_
  have hrole : activeClient.role = .client := by decide +kernel
  -- no context has both calls
  by_cases hmenora : materialIndex .menora .clientToServer = i
  · have htzafah : materialIndex .tzafah .clientToServer ≠ i := by
      rw [← hmenora]
      decide
    simp [onContext, hrole, menora, tzafah, Call.data?, DataChannel.channel,
      EndpointRole.sendDirection, hmenora, htzafah]
  · by_cases htzafah : materialIndex .tzafah .clientToServer = i
    · simp [onContext, hrole, menora, tzafah, Call.data?, DataChannel.channel,
        EndpointRole.sendDirection, hmenora, htzafah]
    · simp [onContext, hrole, menora, tzafah, Call.data?, DataChannel.channel,
        EndpointRole.sendDirection, hmenora, htzafah]

end Session

end G301.Inner
