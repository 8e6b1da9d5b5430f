import G301.Inner.Integrity
import G301.Inner.Limits

/-! # What an endpoint accepts from the network

`Integrity` bounds what an endpoint can get from an arbitrary network.  Here the bound is met:
under an AEAD that opens what was sealed and nothing else (`Aead.Exact`), `accepts_iff` says which
byte strings a live endpoint opens at any moment of any run.  They are the records of its peer
that come next on their channel and that its state allows, whatever the network did before on
this channel or on the others; every other string ends the session. -/

namespace G301.Inner

open ByteString Lts Session

/-- Decryption opens what was sealed, as it was sealed, and nothing else. -/
def Aead.Exact (encryptions : List Encryption) (aead : Aead) : Prop :=
  Ideal encryptions aead ∧ ∀ x ∈ encryptions,
    aead.decrypt x.key x.nonce x.aad x.ciphertext x.tag = .plaintext x.plaintext

/-- An AEAD that looks up what was encrypted is exact, if no two encryptions with the same inputs
and output differ in the plaintext. -/
theorem Aead.exact_answering {encryptions : List Encryption} (aead : Aead)
    (hinj : ∀ x ∈ encryptions, ∀ y ∈ encryptions,
      x.Opens y.key y.nonce y.aad y.ciphertext y.tag → x.plaintext = y.plaintext) :
    Exact encryptions (answering encryptions aead) := by
  refine ⟨ideal_answering encryptions aead, ?_⟩
  intro y hy
  unfold answering
  have hself : y.Opens y.key y.nonce y.aad y.ciphertext y.tag := ⟨rfl, rfl, rfl, rfl, rfl⟩
  cases hfind : encryptions.find? fun x => x.Opens y.key y.nonce y.aad y.ciphertext y.tag with
  | none =>
      have hnone := List.find?_eq_none.mp hfind y hy
      simp [hself] at hnone
  | some x =>
      have hopens : x.Opens y.key y.nonce y.aad y.ciphertext y.tag := by
        simpa using List.find?_some hfind
      simp only [hfind]
      rw [hinj x (List.mem_of_find?_eq_some hfind) y hy hopens]

namespace Net

variable {secrets : DerivedSecrets} {h : List NetEvent} {net next : Net} {ev : NetEvent}
variable {e : EndpointRole} {input : Bytes} {x : SealEntry}

/-- The input is a record that the peer sealed, the next on its channel for the endpoint, and of
a type that its state allows. -/
structure Acceptable (h : List NetEvent) (net : Net) (e : EndpointRole) (input : Bytes)
    (x : SealEntry) : Prop where
  mem : x ∈ net.log
  sender_eq : x.sender = e.peer
  record_eq : x.record = input
  next : x.sequence = (onChannel x.message.channel (receivedBy e h)).length
  mayOpen : (net.session e).MayOpen x.message.recordType

theorem path_ideal (hp : Path (Step Aead.Exact) (init fun _ => secrets) h net) :
    Path (Step Aead.Ideal) (init fun _ => secrets) h net :=
  hp.mono fun _ _ _ ⟨aead, s', hexact, hstep⟩ => ⟨aead, s', hexact.1, hstep⟩

/-- Every message of the log is one that some opened record says. -/
theorem Logged.wellFormed (hl : Logged (fun _ => secrets) h net) (hx : x ∈ net.log) :
    x.message.WellFormed := by
  have hget := hl.getElem? hx
  have hmem : x.message ∈ onChannel x.message.channel (sentBy x.sender h) :=
    List.mem_of_getElem? hget
  exact wellFormed_of_mem_sentBy (List.mem_filter.mp hmem).1

/-- The associated data of an encryption of the log fixes its message. -/
theorem Logged.plaintext_eq (hl : Logged (fun _ => secrets) h net) {x y : Encryption}
    (hx : x ∈ net.encryptions) (hy : y ∈ net.encryptions)
    (hopens : x.Opens y.key y.nonce y.aad y.ciphertext y.tag) : x.plaintext = y.plaintext := by
  obtain ⟨x, hxlog, rfl⟩ := List.mem_map.mp hx
  obtain ⟨y, hylog, rfl⟩ := List.mem_map.mp hy
  have hxs := hl.sound x hxlog
  have hys := hl.sound y hylog
  have haad := hxs.aad_eq.symm.trans (hopens.aad_eq.trans hys.aad_eq)
  obtain ⟨-, -, hdirection, hheader⟩ := aad_inj haad
  obtain ⟨-, hchannel, hsequence, -⟩ :=
    encodeHeader_inj hxs.sequence_lt hxs.length_le hys.sequence_lt hys.length_le hheader
  have hget := hl.getElem? hxlog
  rw [EndpointRole.sendDirection_inj hdirection, hchannel, hsequence, hl.getElem? hylog,
    Option.some.injEq] at hget
  rw [hxs.plaintext_eq, hys.plaintext_eq, hget]

/-- Looking up what was encrypted is exact at every moment of every run. -/
theorem exact_of_path {allowed : List Encryption → Aead → Prop}
    (hp : Path (Step allowed) (init fun _ => secrets) h net) (aead : Aead) :
    (aead.answering net.encryptions).Exact net.encryptions :=
  Aead.exact_answering aead fun _ hx _ hy hopens => (run_logged hp).plaintext_eq hx hy hopens

/-- One move, decrypting by lookup. -/
theorem step_move {allowed : List Encryption → Aead → Prop}
    (hp : Path (Step allowed) (init fun _ => secrets) h net) (aead : Aead) (input : Input) :
    Step Aead.Exact net (move aead net input).1 (move aead net input).2 :=
  ⟨_, _, exact_of_path hp aead, rfl, rfl⟩

/-- A run whose decryptions look up what was encrypted is one under an exact AEAD. -/
theorem path_exact {aead : Aead}
    (hp : Path (Step fun encryptions a => a = aead.answering encryptions)
      (init fun _ => secrets) h net) :
    Path (Step Aead.Exact) (init fun _ => secrets) h net := by
  induction hp with
  | nil => exact .nil
  | snoc hp hs ih =>
      obtain ⟨_, s', rfl, hstep⟩ := hs
      exact ih.snoc ⟨_, s', exact_of_path hp aead, hstep⟩

/-- The peer encrypted an acceptable record as the endpoint expects its next one. -/
theorem Acceptable.encryption_eq (hx : Acceptable h net e input x) (hsound : x.Sound secrets) :
    x.encryption = nextEncryption secrets e.receiveDirection (receivedBy e h) x.message
      x.encryption.ciphertext x.encryption.tag := by
  have hindex : x.index = materialIndex x.message.channel e.receiveDirection := by
    rw [SealEntry.index, hx.sender_eq, EndpointRole.sendDirection_peer]
  have hdirection : x.sender.sendDirection = e.receiveDirection := by
    rw [hx.sender_eq, EndpointRole.sendDirection_peer]
  unfold nextEncryption
  rw [← hx.next, ← hindex, ← hdirection]
  dsimp only
  rw [← hsound.key_eq, ← hsound.nonce_eq, ← hsound.aad_eq, ← hsound.plaintext_eq]

/-- An acceptable record is opened as what the peer sealed. -/
theorem Acceptable.opened (hx : Acceptable h net e input x) {allowed : List Encryption → Aead → Prop}
    (hp : Path (Step allowed) (init fun _ => secrets) h net) {aead : Aead}
    (hexact : aead.Exact net.encryptions) : ∃ o : OpenedRecord, o.message = x.message ∧
      (net.session e).step aead (.openRecord input) =
        (.opened (.ok o), (net.session e).afterOpened x.message) := by
  have hl := run_logged hp
  have hsound := hl.sound x hx.mem
  obtain ⟨o, ho⟩ := (hl.wellFormed hx.mem).exists_opened
  obtain ⟨d, -, hr⟩ := run_refines hp e
  have hlive := hx.mayOpen.live
  have hfollows := hr.follows_receive hlive
  have hwithin := within_of_run (path_session hp e) hlive
  have hfits : (net.session e).Fits (net.session e).role.receiveDirection x.message :=
    ⟨(hwithin _).permits hsound.length_le, hsound.length_le⟩
  have hencryption := hfollows.encryption_eq x.message x.encryption.ciphertext x.encryption.tag
  rw [← receivedBy, ← hx.encryption_eq hsound] at hencryption
  have hdecrypt := hexact.2 x.encryption (List.mem_map.mpr ⟨x, hx.mem, rfl⟩)
  rw [← congrArg Encryption.key hencryption, ← congrArg Encryption.nonce hencryption,
    ← congrArg Encryption.aad hencryption, ← congrArg Encryption.plaintext hencryption] at hdecrypt
  have hinput : (net.session e).recordWire e.receiveDirection x.message
      x.encryption.ciphertext x.encryption.tag = input := by
    rw [hfollows.recordWire_eq, ← receivedBy, ← hx.next, ← hx.record_eq, SealEntry.record]
  refine ⟨o, ho, ?_⟩
  have hmay := hx.mayOpen
  have hct := hsound.ciphertext_length
  have hrole := hr.role_eq
  rw [← hinput]
  generalize net.session e = session at hmay hfits hdecrypt hrole ⊢
  subst hrole
  rw [← ho] at hmay hfits hdecrypt hct ⊢
  exact openRecord_recordWire hmay hfits hdecrypt hct

/-- **What a live endpoint accepts.**  Under an exact AEAD and at every moment of every run, it
opens an input exactly if this is the next record that its peer sealed on the channel and its
state allows the type, and it opens it as what the peer sealed.  Any other input makes it fail
and erase itself. -/
theorem accepts_iff (hp : Path (Step Aead.Exact) (init fun _ => secrets) h net)
    (hs : Step Aead.Exact net ev next) (hcall : ev.call = .openRecord input)
    (hlive : (net.session ev.who).Live) :
    (∀ o, ev.output = .opened (.ok o) ↔
      ∃ x, Acceptable h net ev.who input x ∧ x.message = o.message) ∧
    ((∃ x, Acceptable h net ev.who input x) ∨
      ∃ error, ev.output = .opened (.error error) ∧
        next.session ev.who = (net.session ev.who).dead) := by
  have hsound : ∀ o, ev.output = .opened (.ok o) →
      ∃ x, Acceptable h net ev.who input x ∧ x.message = o.message := by
    intro o hout
    have hacts : actsOf [(ev.call, ev.output)] = [.received o.message] := by
      rw [hout]
      exact actsOf_opened _ o
    obtain ⟨aead, s', hexact, hstep, hnext⟩ := hs
    obtain ⟨x, hx, hsender, hmessage, hseq, hrecord, -, -⟩ :=
      exists_sealed (path_ideal hp) ⟨aead, s', hexact.1, hstep, hnext⟩ hacts
    refine ⟨x, ⟨hx, hsender, ?_, hmessage ▸ hseq, ?_⟩, hmessage⟩
    · rw [hcall, Call.openRecord.injEq] at hrecord
      exact hrecord.symm
    · -- the session checked its state before it opened the record
      have hcase := Session.step_cases aead (net.session ev.who) ev.call
      rw [hstep, hout] at hcase
      cases hcase with
      | terminal hterm _ _ => exact absurd hterm (by simp [hlive])
      | refused error _ herror _ => rw [hcall] at herror; cases herror
      | sealed _ _ _ _ _ _ _ _ herror _ => cases herror
      | opened o' _ _ _ hmay _ _ _ hout' _ =>
          obtain rfl := Except.ok.inj (Output.opened.inj hout')
          rw [hmessage]
          exact hmay
  obtain ⟨aead, s', hexact, hstep, hnext⟩ := hs
  have hself : next.session ev.who = s' := by
    rw [hnext]
    simp [advance]
  rw [hcall] at hstep
  refine ⟨fun o => ⟨hsound o, ?_⟩, ?_⟩
  · rintro ⟨x, hx, hmessage⟩
    obtain ⟨o', ho', hopened⟩ := hx.opened hp hexact
    rw [hstep] at hopened
    have hout := congrArg Prod.fst hopened
    dsimp only at hout
    rw [hout, OpenedRecord.message_inj (ho'.trans hmessage)]
  · have hcase := Session.step_cases aead (net.session ev.who) (.openRecord input)
    rw [hstep] at hcase
    cases hcase with
    | terminal hterm _ _ => exact absurd hterm (by simp [hlive])
    | refused error _ hout hdead => exact .inr ⟨error, hout, hself.trans hdead⟩
    | sealed _ _ _ hseal _ _ _ _ _ _ => cases hseal
    | opened o _ _ _ _ _ _ _ hout _ =>
        obtain ⟨x, hx, -⟩ := hsound o hout
        exact .inl ⟨x, hx⟩

deriving instance DecidableEq for Output

/-- The Server may be given the first of two records, but not the second before it. -/
theorem accepts_iff_twoRecords :
    let r := exec (move whitepaperAead) (init fun _ => whitepaperSecrets) twoRecords
    (∃ x, Acceptable r.1 r.2 .server (r.2.log[2]?.elim [] SealEntry.record) x ∧
      x.message = ⟨.data, .menora, ascii "G301"⟩) ∧
    ¬ ∃ x, Acceptable r.1 r.2 .server (r.2.log[3]?.elim [] SealEntry.record) x := by
  intro r
  have hp : Path (Step Aead.Exact) (init fun _ => whitepaperSecrets) r.1 r.2 :=
    path_exact (@path_execute (fun encryptions a => a = whitepaperAead.answering encryptions)
      whitepaperAead (fun _ => rfl) _ _)
  have hlive : (r.2.session .server).Live := by decide +kernel
  have hcases := fun i => accepts_iff hp (step_move hp whitepaperAead (.deliver .server i)) rfl hlive
  constructor
  · have hout : (move whitepaperAead r.2 (.deliver .server 2)).1.output =
        .opened (.ok (.data .menora (ascii "G301"))) := by decide +kernel
    exact ((hcases 2).1 _).mp hout
  · have hout : (move whitepaperAead r.2 (.deliver .server 3)).1.output =
        .opened (.error .invalidRecord) := by decide +kernel
    rintro ⟨x, hx⟩
    obtain ⟨o, ho⟩ := (Logged.wellFormed (run_logged hp) hx.mem).exists_opened
    have hok := ((hcases 3).1 o).mpr ⟨x, hx, ho.symm⟩
    rw [hout] at hok
    cases hok

end Net

end G301.Inner
