import G301.Inner.Execution

/-! # Terminal states

`terminal_absorbing`: a session that is `Closed` or `Failed` is erased and refuses every
call for ever; a session that is not has never been erased, and each of its calls succeeds
or leaves it `Failed` and erased.

The first half is the case `terminal` of `Session.step_cases`, the second the case `refused`
and the refinement of the run. -/

namespace G301.Inner

open ByteString Lts

/-- The call returned a record, or an opened one. -/
def Output.isOk : Output → Bool
  | .record (.ok _) | .opened (.ok _) => true
  | _ => false

namespace Session

/-- A terminal session refuses every call and does not change. -/
theorem step_terminal {session : Session} (h : session.state.terminal = true) (aead : Aead)
    (call : Call) : session.step aead call = (call.refusal .invalidState, session) := by
  have hdead {P : Prop} (hlive : session.Live) : P := by
    rw [Live, h] at hlive
    cases hlive
  cases step_cases aead session call with
  | terminal _ hout hnext => exact Prod.ext hout hnext
  | refused _ hlive => exact hdead hlive
  | sealed _ _ _ _ hmay => exact hdead hmay.live
  | opened _ _ _ _ hmay => exact hdead hmay.live

/-- A live session succeeds, or fails and is erased. -/
theorem step_live {session : Session} (h : session.Live) (aead : Aead) (call : Call) :
    (session.step aead call).1.isOk = true ∨
      ((∃ error, (session.step aead call).1 = call.refusal error) ∧
        (session.step aead call).2.state = .failed ∧ (session.step aead call).2.Erased) := by
  cases step_cases aead session call with
  | terminal hstate =>
      rw [Live, hstate] at h
      cases h
  | refused error _ hout hnext =>
      right
      rw [hnext]
      exact ⟨⟨error, hout⟩, rfl, session.erased_dead⟩
  | sealed _ _ _ _ _ _ _ _ hout => rw [hout]; exact .inl rfl
  | opened _ _ _ _ _ _ _ _ hout => rw [hout]; exact .inl rfl

/-- A terminal session stays as it is. -/
theorem path_terminal {session after : Session} {later : List Event}
    (h : session.state.terminal = true) (run : Path Step session later after) :
    after = session ∧ ∀ e ∈ later, e.2 = e.1.refusal .invalidState := by
  refine run.invariant (P := fun later after =>
    after = session ∧ ∀ e ∈ later, e.2 = e.1.refusal .invalidState) ⟨rfl, by simp⟩ ?_
  rintro later t e u - ⟨rfl, hall⟩ ⟨aead, hstep⟩
  rw [step_terminal h] at hstep
  obtain ⟨hout, rfl⟩ := Prod.mk.inj hstep
  refine ⟨rfl, fun x hx => ?_⟩
  obtain hx | hx := List.mem_append.mp hx
  · exact hall x hx
  · rw [List.mem_singleton.mp hx]
    exact hout.symm

/-- A run that ends in a live state was live throughout. -/
theorem live_of_path {session after : Session} {later : List Event}
    (run : Path Step session later after) (h : after.Live) : session.Live := by
  by_contra hterminal
  have hsame := (path_terminal (by simpa using hterminal) run).1
  rw [hsame] at h
  exact hterminal h

/-- **Terminal states.**  In every reachable `Closed` or `Failed` state keys, IVs and counters
are zero, and every later call is refused and changes nothing.  In every other reachable state
each call succeeds, or fails and leaves the session `Failed` and erased; such a session was
live throughout, has the keys it was built with and the counters of what it processed. -/
theorem terminal_absorbing {role : EndpointRole} {secrets : DerivedSecrets} {h : List Event}
    {s : Session} (run : Path Step (ofSecrets role secrets) h s) :
    (s.state = .closed ∨ s.state = .failed →
      s.Erased ∧
      (∀ aead call, s.step aead call = (call.refusal .invalidState, s)) ∧
      ∀ later after, Path Step s later after →
        after = s ∧ ∀ e ∈ later, e.2 = e.1.refusal .invalidState) ∧
    (s.Live →
      (∀ aead call, (s.step aead call).1.isOk = true ∨
        ((∃ error, (s.step aead call).1 = call.refusal error) ∧
          (s.step aead call).2.state = .failed ∧ (s.step aead call).2.Erased)) ∧
      s.traffic = secrets.traffic ∧
      (∀ c, s.usageOn role.sendDirection c = usageOf c (sentOf (actsOf h)) ∧
        s.usageOn role.receiveDirection c = usageOf c (receivedOf (actsOf h))) ∧
      ∀ earlier later before, h = earlier ++ later →
        Path Step (ofSecrets role secrets) earlier before → Path Step before later s →
          before.Live ∧ before.traffic = secrets.traffic) := by
  obtain ⟨d, -, hr⟩ := run_refines run
  refine ⟨fun hstate => ?_, fun hlive => ?_⟩
  · have hterminal : s.state.terminal = true := by
      obtain hclosed | hfailed := hstate
      · rw [hclosed]; rfl
      · rw [hfailed]; rfl
    exact ⟨hr.erased hterminal, step_terminal hterminal, fun _ _ => path_terminal hterminal⟩
  · refine ⟨step_live hlive, hr.traffic_eq hlive,
      fun c => ⟨hr.sendUsage hlive c, hr.receiveUsage hlive c⟩, ?_⟩
    intro earlier later before _ hbefore hafter
    obtain ⟨d', -, hr'⟩ := run_refines hbefore
    have hlive' := live_of_path hafter hlive
    exact ⟨hlive', hr'.traffic_eq hlive'⟩

/-- A second Commit is refused and ends the session. -/
theorem terminal_absorbing_secondCommit :
    let run := exec move (ofSecrets .client whitepaperSecrets)
      [(whitepaperAead, .sealCommit), (whitepaperAead, .sealCommit)]
    run.2.Erased ∧ ∀ aead call, run.2.step aead call = (call.refusal .invalidState, run.2) := by
  intro run
  have hfailed : run.2.state = .failed := by decide +kernel
  obtain ⟨herased, hrefuses, -⟩ :=
    (terminal_absorbing (path_execute (ofSecrets .client whitepaperSecrets)
      [(whitepaperAead, .sealCommit), (whitepaperAead, .sealCommit)])).1 (.inr hfailed)
  exact ⟨herased, hrefuses⟩

end Session

end G301.Inner
