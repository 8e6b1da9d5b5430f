import G301.Inner.Completeness

/-! # What an endpoint knows about its peer

Under an ideal AEAD the state of one endpoint says something about the past of the other
(`Net.agreement`): who is committed to the session, who has seen whose Commit, and how the
peer's stream ended.  Each part goes from the endpoint's own streams to what it opened, from
there to what the peer sealed (`Net.Opened.sealed_peer`), and then to the streams of the
peer, which had to be in a state that let it seal this. -/

namespace G301.Inner

open ByteString Lts

namespace Net

/-- The endpoint sealed a record of a type. -/
def Sealed (e : EndpointRole) (t : RecordType) (h : List NetEvent) : Prop :=
  ∃ m ∈ sentBy e h, m.recordType = t

/-- The endpoint opened a record of a type. -/
def Opened (e : EndpointRole) (t : RecordType) (h : List NetEvent) : Prop :=
  ∃ m ∈ receivedBy e h, m.recordType = t

/-- The context hashes differ, or the traffic keys do, index by index. -/
def Mismatched (s s' : DerivedSecrets) : Prop :=
  s.contextHash ≠ s'.contextHash ∨ ∀ i, (s.traffic i).key ≠ (s'.traffic i).key

theorem Mismatched.symm {s s' : DerivedSecrets} (h : Mismatched s s') : Mismatched s' s := by
  rcases h with h | h
  · exact .inl h.symm
  · exact .inr fun i => (h i).symm

variable {secrets : EndpointRole → DerivedSecrets} {h : List NetEvent} {net : Net}
variable {e : EndpointRole} {t : RecordType}

/-- What an endpoint opened its peer sealed. -/
theorem Opened.sealed_peer (hp : Path (Step Aead.Ideal) (init secrets) h net)
    (ho : Opened e t h) : Sealed e.peer t h := by
  obtain ⟨m, hm, rfl⟩ := ho
  have hmem : m ∈ onChannel m.channel (receivedBy e h) := by simpa [onChannel] using hm
  have hsent := (received_isPrefix hp e m.channel).subset hmem
  exact ⟨m, (List.mem_filter.mp hsent).1, rfl⟩

/-! ### The streams of one endpoint -/

/-- Where the streams of an endpoint stand, for what its lists and its state say. -/
theorem exists_duplex (hp : Path (Step Aead.Ideal) (init secrets) h net) (e : EndpointRole) :
    ∃ d : Duplex, Half.after ((sentBy e h).map Message.recordType) = some d.send ∧
      Half.after ((receivedBy e h).map Message.recordType) = some d.receive ∧
      ((net.session e).state ≠ .failed → (net.session e).state = d.state) ∧
      ((∃ t, t ≠ .commit ∧ (Sealed e t h ∨ Opened e t h)) → d.send ≠ .idle ∧ d.receive ≠ .idle) := by
  obtain ⟨d, hrun, hr⟩ := run_refines hp e
  obtain ⟨hsend, hreceive⟩ := Duplex.run_halves hrun
  refine ⟨d, hsend, hreceive, hr.state_eq, ?_⟩
  rintro ⟨t, ht, ⟨m, hm, rfl⟩ | ⟨m, hm, rfl⟩⟩
  · exact Duplex.run_committed hrun ⟨.sent m, sent_mem_of_mem_sentOf hm, ht⟩
  · exact Duplex.run_committed hrun ⟨.received m, received_mem_of_mem_receivedOf hm, ht⟩

theorem sealed_of_mem (ht : t ∈ (sentBy e h).map Message.recordType) : Sealed e t h :=
  List.mem_map.mp ht

theorem opened_of_mem (ht : t ∈ (receivedBy e h).map Message.recordType) : Opened e t h :=
  List.mem_map.mp ht

/-- A committed endpoint sealed its Commit and opened the peer's. -/
theorem commits_of_ne_idle {d : Duplex}
    (hsend : Half.after ((sentBy e h).map Message.recordType) = some d.send)
    (hreceive : Half.after ((receivedBy e h).map Message.recordType) = some d.receive)
    (hne : d.send ≠ .idle ∧ d.receive ≠ .idle) : Sealed e .commit h ∧ Opened e .commit h :=
  ⟨sealed_of_mem (Half.commit_mem_of_after hsend hne.1),
    opened_of_mem (Half.commit_mem_of_after hreceive hne.2)⟩

/-- The peer of an endpoint that got anything but a Commit has opened this endpoint's Commit. -/
theorem Opened.commits_peer (hp : Path (Step Aead.Ideal) (init secrets) h net)
    (ho : Opened e t h) (ht : t ≠ .commit) : Opened e.peer .commit h := by
  obtain ⟨d, hsend, hreceive, -, hcommitted⟩ := exists_duplex hp e.peer
  exact (commits_of_ne_idle hsend hreceive (hcommitted ⟨t, ht, .inl (ho.sealed_peer hp)⟩)).2

/-- An endpoint that sealed a Close sealed it last and once. -/
theorem Sealed.close_last (hp : Path (Step Aead.Ideal) (init secrets) h net)
    (hs : Sealed e .close h) :
    ∃ ms m, sentBy e h = ms ++ [m] ∧ m.recordType = .close ∧ ∀ x ∈ ms, x.recordType ≠ .close := by
  obtain ⟨d, hsend, -, -, -⟩ := exists_duplex hp e
  have hclosed : d.send = .closed := by
    by_contra hne
    exact Half.close_notMem_of_after hsend hne (List.mem_map.mpr hs)
  rw [hclosed] at hsend
  obtain ⟨mid, htypes, hmid⟩ := Half.after_closed hsend
  rw [List.map_eq_append_iff] at htypes
  obtain ⟨ms, last, heq, hms, hlast⟩ := htypes
  obtain ⟨m, rfl, hm⟩ := List.map_eq_singleton_iff.mp hlast
  refine ⟨ms, m, heq, hm, ?_⟩
  intro x hx hclose
  have hmem : RecordType.close ∈ RecordType.commit :: mid := by
    rw [← hms, ← hclose]
    exact List.mem_map_of_mem hx
  rcases List.mem_cons.mp hmem with hc | hc
  · cases hc
  · rcases hmid _ hc with hc | hc <;> cases hc

/-! ### Endpoints of different sessions -/

/-- Endpoints with different keys or context hashes open nothing of each other. -/
theorem receivedBy_of_mismatched (hp : Path (Step Aead.Ideal) (init secrets) h net)
    (hm : Mismatched (secrets .client) (secrets .server)) (e : EndpointRole) :
    receivedBy e h = [] := by
  refine hp.invariant (P := fun h _ => ∀ e, receivedBy e h = []) (fun _ => rfl) ?_ e
  intro h net ev next hp ih hs e
  have hpeer : Mismatched (secrets ev.who) (secrets ev.who.peer) := by
    cases ev.who with
    | client => exact hm
    | server => exact hm.symm
  cases step_cases hp hs with
  | quiet hacts _ _ _ => rw [receivedBy_snoc_of_not_received (by rw [hacts]; rfl), ih]
  | sealed _ _ _ _ _ _ _ hacts _ _ =>
      rw [receivedBy_snoc_of_not_received (by rw [hacts]; rfl), ih]
  | opened o _ _ _ _ _ _ _ _ _ _ _ _ _ _ hacts _ _ =>
      obtain ⟨x, -, -, -, -, -, hcontext, hkey⟩ := exists_sealed hp hs hacts
      rcases hpeer with hne | hne
      · exact absurd hcontext hne
      · exact absurd hkey (hne x.index)

/-! ### Agreement -/

/-- **Commit and close agreement**, for every run against an arbitrary network.

* An endpoint that is Active or Draining, or that got anything but a Commit, has sealed its
  Commit and opened the peer's, which the peer sealed.
* An endpoint that got anything but a Commit has a peer that opened its Commit.
* An endpoint that is Closed has sealed its Close, and the peer's last message is its only
  Close.
* An endpoint whose peer has other keys or another context hash is Committing or Failed. -/
theorem agreement (hp : Path (Step Aead.Ideal) (init secrets) h net) (e : EndpointRole) :
    (((net.session e).state = .active ∨ (net.session e).state = .draining ∨
        ∃ t, t ≠ .commit ∧ Opened e t h) →
      Sealed e .commit h ∧ Sealed e.peer .commit h ∧ Opened e .commit h) ∧
    ((∃ t, t ≠ .commit ∧ Opened e t h) → Opened e.peer .commit h) ∧
    ((net.session e).state = .closed → Sealed e .close h ∧
      ∃ ms m, sentBy e.peer h = ms ++ [m] ∧ m.recordType = .close ∧
        ∀ x ∈ ms, x.recordType ≠ .close) ∧
    (Mismatched (secrets .client) (secrets .server) →
      (net.session e).state = .committing ∨ (net.session e).state = .failed) := by
  obtain ⟨d, hsend, hreceive, hstate, hcommitted⟩ := exists_duplex hp e
  refine ⟨?_, ?_, ?_, ?_⟩
  · intro hcase
    have hne : d.send ≠ .idle ∧ d.receive ≠ .idle := by
      rcases hcase with hst | hst | ⟨t, ht, ho⟩
      · obtain ⟨hs, hr⟩ := Duplex.state_eq_active.mp ((hstate (by simp [hst])).symm.trans hst)
        simp [hs, hr]
      · rcases Duplex.state_eq_draining.mp ((hstate (by simp [hst])).symm.trans hst) with
          ⟨hs, hr⟩ | ⟨hs, hr⟩ <;> simp [hs, hr]
      · exact hcommitted ⟨t, ht, .inr ho⟩
    obtain ⟨hs, ho⟩ := commits_of_ne_idle hsend hreceive hne
    exact ⟨hs, ho.sealed_peer hp, ho⟩
  · rintro ⟨t, ht, ho⟩
    exact ho.commits_peer hp ht
  · intro hst
    obtain ⟨hs, hr⟩ := Duplex.state_eq_closed.mp ((hstate (by simp [hst])).symm.trans hst)
    rw [hs] at hsend
    rw [hr] at hreceive
    obtain ⟨_, htypes, -⟩ := Half.after_closed hsend
    obtain ⟨_, htypes', -⟩ := Half.after_closed hreceive
    have hopened : Opened e .close h := opened_of_mem (by rw [htypes']; simp)
    exact ⟨sealed_of_mem (by rw [htypes]; simp), (hopened.sealed_peer hp).close_last hp⟩
  · intro hm
    rw [receivedBy_of_mismatched hp hm e] at hreceive
    have hidle : d.receive = .idle := (Option.some.inj hreceive).symm
    by_cases hf : (net.session e).state = .failed
    · exact .inr hf
    · exact .inl ((hstate hf).trans (Duplex.state_eq_committing.mpr (.inr hidle)))

/-- The secrets of another application context: here only its hash differs. -/
def otherSecrets : DerivedSecrets := { whitepaperSecrets with contextHash := beVector 48 0 }

/-- After an orderly close, and between endpoints of different contexts. -/
theorem agreement_orderlyClose :
    let r := exec (move whitepaperAead) (init fun _ => whitepaperSecrets) orderlyClose
    let r' := exec (move whitepaperAead)
      (init fun e => if e = .client then whitepaperSecrets else otherSecrets)
      [.call .client .sealCommit, .deliver .server 0]
    ((r.2.session .client).state = .closed ∧ Sealed .client .close r.1 ∧
      ∃ ms m, sentBy .server r.1 = ms ++ [m] ∧ m.recordType = .close ∧
        ∀ x ∈ ms, x.recordType ≠ .close) ∧
    (Mismatched whitepaperSecrets otherSecrets ∧
      ((r'.2.session .server).state = .committing ∨ (r'.2.session .server).state = .failed)) := by
  intro r r'
  have hclosed : (r.2.session .client).state = .closed := by decide +kernel
  have hne : Mismatched whitepaperSecrets otherSecrets := .inl (by decide +kernel)
  have hr := agreement (path_execute (fun _ => Aead.ideal_answering _ _) _ _ :
    Path (Step Aead.Ideal) (init fun _ => whitepaperSecrets) r.1 r.2) .client
  have hr' := agreement (path_execute (fun _ => Aead.ideal_answering _ _) _ _ :
    Path (Step Aead.Ideal)
      (init fun e => if e = .client then whitepaperSecrets else otherSecrets) r'.1 r'.2) .server
  exact ⟨⟨hclosed, hr.2.2.1 hclosed⟩, hne, hr'.2.2.2 (by simpa using hne)⟩

end Net

end G301.Inner
