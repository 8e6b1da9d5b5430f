import G301.Inner.Integrity

/-! # When an orderly close loses nothing

Close travels on Guard, data on four other channels, and sequence numbers are per channel: an
orderly close says nothing about data that never arrived.  `Net.delivered_eq_iff` gives the
exact condition.  An endpoint that ends Closed was delivered everything its peer sealed on a
channel if and only if the network handed it each of these records before it closed. -/

namespace G301.Inner

open ByteString Lts

namespace Net

variable {secrets : EndpointRole → DerivedSecrets} {h : List NetEvent} {start net next : Net}
variable {ev : NetEvent} {e : EndpointRole}

/-- The network gave `record` to `e` while `e` was not yet closed. -/
def HandedOver (start : Net) (e : EndpointRole) (record : Bytes) (h : List NetEvent) (net : Net) :
    Prop :=
  ∃ h₁ ev h₂ net₁, h = h₁ ++ ev :: h₂ ∧ Path (Step Aead.Ideal) start h₁ net₁ ∧
    Path (Step Aead.Ideal) net₁ (ev :: h₂) net ∧ ev.who = e ∧ ev.call = .openRecord record ∧
    (net₁.session e).state ≠ .closed

/-! ### A failed endpoint stays failed -/

theorem path_failed (hp : Path (Step Aead.Ideal) start h net)
    (hf : (start.session e).state = .failed) : (net.session e).state = .failed := by
  have hrun := path_session hp e
  refine hrun.kept (p := fun _ => False) (Q := fun s => s.state = .failed) ?_ (by simp) hf
  rintro s ⟨call, out⟩ s' hs - ⟨aead, hstep⟩
  have hcase := Session.step_cases aead s call
  rw [hstep] at hcase
  have hdead : ¬ s.Live := fun hlive => hlive.state_ne_failed hs
  cases hcase with
  | terminal _ _ hnext => dsimp only at hnext; rw [hnext, hs]
  | refused _ hlive _ _ => exact absurd hlive hdead
  | sealed _ _ _ _ hmay _ _ _ _ _ => exact absurd hmay.live hdead
  | opened _ _ _ _ hmay _ _ _ _ _ => exact absurd hmay.live hdead

theorem path_log (hp : Path (Step Aead.Ideal) start h net) {x : SealEntry} (hx : x ∈ start.log) :
    x ∈ net.log := by
  refine hp.kept (p := fun _ => False) (Q := fun net => x ∈ net.log) ?_ (by simp) hx
  rintro net ev next hmem - ⟨aead, s', -, -, rfl⟩
  exact List.mem_append_left _ hmem

theorem path_received (hp : Path (Step Aead.Ideal) start h net) (h₀ : List NetEvent) (c : Channel) :
    onChannel c (receivedBy e h₀) <+: onChannel c (receivedBy e (h₀ ++ h)) := by
  refine hp.invariant (P := fun h _ =>
    onChannel c (receivedBy e h₀) <+: onChannel c (receivedBy e (h₀ ++ h))) ?_ ?_
  · simp
  · intro h _ ev _ _ ih _
    rw [← List.append_assoc]
    exact ih.trans (onChannel_prefix_snoc e c).2

/-! ### Records and positions -/

/-- A record that was handed over before an endpoint closed, and did not make it fail, was
opened: the endpoint got past its position. -/
theorem HandedOver.length_lt {x : SealEntry} (hx : x.Sound (secrets x.sender))
    (hh : HandedOver (init secrets) e x.record h net) (hne : (net.session e).state ≠ .failed) :
    x.sequence < (onChannel x.message.channel (receivedBy e h)).length := by
  obtain ⟨h₁, ev, h₂, net₁, rfl, hp₁, hp₂, rfl, hcall, hclosed⟩ := hh
  rw [← List.singleton_append] at hp₂
  obtain ⟨net₂, hone, hrest⟩ := hp₂.split
  obtain ⟨_, hnil, hs⟩ := Path.snoc_inv (h := []) hone
  rw [hnil.nil_inv] at hs
  have hgrow := @path_received _ _ _ ev.who hrest (h₁ ++ [ev]) x.message.channel
  simp only [List.append_assoc, List.singleton_append] at hgrow
  refine lt_of_lt_of_le ?_ hgrow.length_le
  cases step_cases hp₁ hs with
  | quiet _ _ _ hdead =>
      -- a refused record makes a live endpoint fail for good
      have hlive : (net₁.session ev.who).Live := by
        cases hst : (net₁.session ev.who).state with
        | closed => exact absurd hst hclosed
        | failed => exact absurd (path_failed hp₂ hst) hne
        | _ => rw [Session.Live, hst]; rfl
      have hfail : (net₂.session ev.who).state = .failed := by rw [hdead hlive]; rfl
      exact absurd (path_failed hrest hfail) hne
  | sealed m _ _ _ _ _ _ hacts _ _ =>
      obtain ⟨who, call, output⟩ := ev
      dsimp only at hcall hacts
      subst hcall
      cases output with
      | record r => cases r <;> cases hacts
      | opened r => cases r <;> cases hacts
      | none => cases hacts
  | opened o _ ciphertext _ _ sequence _ hsequence _ hcall' _ _ hlt hle hct hacts _ _ =>
      rw [hcall, Call.openRecord.injEq] at hcall'
      obtain ⟨-, hc, hseq, -⟩ := wire_inj hx.sequence_lt (hx.ciphertext_length ▸ hx.length_le) hlt
        (hct ▸ hle) hcall'
      rw [receivedBy_snoc_self, hacts, receivedOf_received, onChannel_append, hc,
        onChannel_singleton, if_pos rfl, List.length_append, ← hsequence, hseq]
      simp

/-- Every position an endpoint got past was handed over as a record of its peer. -/
theorem exists_handedOver (hp : Path (Step Aead.Ideal) (init secrets) h net) {c : Channel} {k : ℕ}
    (hk : k < (onChannel c (receivedBy e h)).length) :
    ∃ x ∈ net.log, x.sender = e.peer ∧ x.message.channel = c ∧ x.sequence = k ∧
      HandedOver (init secrets) e x.record h net := by
  refine hp.invariant (P := fun h net => ∀ k < (onChannel c (receivedBy e h)).length,
    ∃ x ∈ net.log, x.sender = e.peer ∧ x.message.channel = c ∧ x.sequence = k ∧
      HandedOver (init secrets) e x.record h net) ?_ ?_ k hk
  · intro k hk
    exact absurd hk (Nat.not_lt_zero k)
  intro h net ev next hp ih hs k hk
  by_cases hold : k < (onChannel c (receivedBy e h)).length
  · obtain ⟨x, hx, hsender, hchannel, hseq, h₁, ev', h₂, net₁, rfl, hp₁, hp₂, hrest⟩ := ih k hold
    refine ⟨x, path_log (.single hs) hx, hsender, hchannel, hseq, h₁, ev', h₂ ++ [ev], net₁, ?_,
      hp₁, hp₂.snoc hs, hrest⟩
    simp
  · have hnew : ∃ o : OpenedRecord, ev.who = e ∧ o.message.channel = c ∧
        actsOf [(ev.call, ev.output)] = [.received o.message] ∧ (net.session e).Live := by
      by_contra hno
      have hsame : onChannel c (receivedBy e (h ++ [ev])) = onChannel c (receivedBy e h) := by
        by_cases hwho : ev.who = e
        · subst hwho
          cases step_cases hp hs with
          | quiet hacts _ _ _ => rw [receivedBy_snoc_self, hacts]; simp
          | sealed _ _ _ _ _ _ _ hacts _ _ => rw [receivedBy_snoc_self, hacts]; simp
          | opened o _ _ _ _ _ _ _ _ _ _ hlive _ _ _ hacts _ _ =>
              have hc : o.message.channel ≠ c := fun hc => hno ⟨o, rfl, hc, hacts, hlive⟩
              rw [receivedBy_snoc_self, hacts]
              simp [onChannel_singleton, hc]
        · rw [receivedBy_snoc_ne hwho]
      rw [hsame] at hk
      exact hold hk
    obtain ⟨o, rfl, rfl, hacts, hlive⟩ := hnew
    obtain ⟨x, hx, hsender, hmessage, hseq, hcall, -⟩ := exists_sealed hp hs hacts
    rw [receivedBy_snoc_self, hacts, receivedOf_received, onChannel_append, onChannel_singleton,
      if_pos rfl, List.length_append, List.length_singleton] at hk
    refine ⟨x, path_log (.single hs) hx, hsender, by rw [hmessage], by omega,
      h, ev, [], net, rfl, hp, .single hs, rfl, hcall, ?_⟩
    intro hst
    rw [Session.Live, hst] at hlive
    cases hlive

/-- An entry is determined by its sender, channel and number. -/
theorem Logged.entry_unique (hl : Logged secrets h net) {x y : SealEntry} (hx : x ∈ net.log)
    (hy : y ∈ net.log) (hsender : x.sender = y.sender)
    (hchannel : x.message.channel = y.message.channel) (hseq : x.sequence = y.sequence) : x = y := by
  apply List.inj_on_of_nodup_map hl.distinct hx hy
  rw [SealEntry.index, SealEntry.index, hsender, hchannel, hseq]

/-- **What an orderly close guarantees.**  If both endpoints are Closed, then on every data
channel the receiver got a prefix of what was sealed, and all of it if and only if the network
handed it every record of the channel before it closed. -/
theorem delivered_eq_iff {secrets : DerivedSecrets} {h : List NetEvent} {net : Net}
    (hp : Path (Step Aead.Ideal) (init fun _ => secrets) h net)
    (hclosed : ∀ e, (net.session e).state = .closed) (e : EndpointRole) (c : DataChannel) :
    deliveredData e c h <+: sealedData e.peer c h ∧
      (deliveredData e c h = sealedData e.peer c h ↔
        ∀ x ∈ net.log, x.sender = e.peer → x.message.channel = c.channel →
          HandedOver (init fun _ => secrets) e x.record h net) := by
  have hl := run_logged hp
  have hpre := received_isPrefix hp e c.channel
  have hne : (net.session e).state ≠ .failed := by rw [hclosed e]; simp
  rw [deliveredData_eq, sealedData_eq]
  refine ⟨hpre.map Message.plaintext, ?_⟩
  constructor
  · intro heq x hx hsender hchannel
    have hlen : (onChannel c.channel (receivedBy e h)).length =
        (onChannel c.channel (sentBy e.peer h)).length := by
      have := congrArg List.length heq
      rwa [List.length_map, List.length_map] at this
    have hlt := hl.sequence_lt hx
    rw [hsender, hchannel, ← hlen] at hlt
    obtain ⟨y, hy, hysender, hychannel, hyseq, hh⟩ := exists_handedOver hp hlt
    rwa [hl.entry_unique hx hy (hsender.trans hysender.symm) (hchannel.trans hychannel.symm)
      hyseq.symm]
  · intro hall
    have hle : (onChannel c.channel (sentBy e.peer h)).length ≤
        (onChannel c.channel (receivedBy e h)).length := by
      by_contra hlt
      -- the first record that was not opened
      obtain ⟨x, hx, hsender, hmessage, hseq⟩ := hl.exists_entry
        (List.getElem?_eq_getElem (Nat.lt_of_not_le hlt))
      have hchannel : x.message.channel = c.channel := by
        have hmem := List.getElem_mem (Nat.lt_of_not_le hlt)
        rw [← hmessage] at hmem
        simpa [onChannel] using (List.mem_filter.mp hmem).2
      have hpast := (hall x hx hsender hchannel).length_lt (hl.sound x hx) hne
      rw [hchannel, hseq] at hpast
      exact absurd hpast (lt_irrefl _)
    rw [hpre.eq_of_length_le hle]

/-- An orderly close after one record, which is delivered. -/
def orderlyClose : List Input :=
  [.call .client .sealCommit, .call .server .sealCommit, .deliver .server 0, .deliver .client 1,
    .call .client (.sealData .menora (ascii "G301")), .deliver .server 2,
    .call .client .sealClose, .deliver .server 3, .call .server .sealClose, .deliver .client 4]

theorem delivered_eq_iff_orderlyClose :
    let r := exec (move whitepaperAead) (init fun _ => whitepaperSecrets) orderlyClose
    (∀ e, (r.2.session e).state = .closed) ∧
      deliveredData .server .menora r.1 <+: sealedData .client .menora r.1 ∧
      (deliveredData .server .menora r.1 = sealedData .client .menora r.1 ↔
        ∀ x ∈ r.2.log, x.sender = .client → x.message.channel = .menora →
          HandedOver (init fun _ => whitepaperSecrets) .server x.record r.1 r.2) := by
  have hclosed : ∀ e, ((exec (move whitepaperAead) (init fun _ => whitepaperSecrets)
      orderlyClose).2.session e).state = .closed := by
    intro e
    cases e <;> decide +kernel
  exact ⟨hclosed, delivered_eq_iff (path_execute (fun _ => Aead.ideal_answering _ _) _ _) hclosed
    .server .menora⟩

/-- The same close with the record dropped by the network. -/
def truncatedClose : List Input :=
  [.call .client .sealCommit, .call .server .sealCommit, .deliver .server 0, .deliver .client 1,
    .call .client (.sealData .menora (ascii "G301")),
    .call .client .sealClose, .deliver .server 3, .call .server .sealClose, .deliver .client 4]

/-- Both endpoints close in order although a sealed record was never delivered. -/
theorem truncatedClose_loses_data :
    ¬ ∀ (secrets : DerivedSecrets) (h : List NetEvent) (net : Net),
      Path (Step Aead.Ideal) (init fun _ => secrets) h net →
      (∀ e, (net.session e).state = .closed) →
      ∀ e c, deliveredData e c h = sealedData e.peer c h := by
  intro hclaim
  have heq := hclaim whitepaperSecrets _ _
    (@path_execute _ whitepaperAead (fun _ => Aead.ideal_answering _ _) _ truncatedClose)
    (by intro e; cases e <;> decide +kernel) .server .menora
  revert heq
  decide +kernel

end Net

end G301.Inner
