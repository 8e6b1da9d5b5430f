import G301.Inner.Execution

/-! # The record grammar of one session

`record_grammar`: what a session seals, and what it opens, is the beginning of a word
`Commit (Data | RefreshRequired)* Close`; Data and RefreshRequired cross its border only
between the two Commits and the first of the two Closes; and `Draining` is the state between
the two Closes.

The types of the sealed records are read off the bytes that were returned (`sealedTypes`).
For a run they are those of the messages of `actsOf` (`sealedTypes_eq`), so that the grammar
is the one of `Duplex`, which every run refines. -/

namespace G301.Inner

open ByteString Lts

/-! ### The two traces -/

/-- The type of the record that a seal call returned. -/
def Event.sealedType? : Event → Option RecordType
  | (_, .record (.ok record)) => (parse record).toOption.map fun parsed => parsed.header.recordType
  | _ => none

/-- The type of the record that `open_record` delivered. -/
def Event.openedType? : Event → Option RecordType
  | (_, .opened (.ok o)) => some o.message.recordType
  | _ => none

def sealedTypes (h : List Event) : List RecordType := h.filterMap Event.sealedType?

def openedTypes (h : List Event) : List RecordType := h.filterMap Event.openedType?

/-- `Commit (Data | RefreshRequired)* Close`. -/
def Word (ts : List RecordType) : Prop :=
  ∃ mid, ts = .commit :: mid ++ [.close] ∧ ∀ t ∈ mid, Half.Payload t

theorem sealedTypes_append (h h' : List Event) :
    sealedTypes (h ++ h') = sealedTypes h ++ sealedTypes h' := by
  simp [sealedTypes]

theorem openedTypes_append (h h' : List Event) :
    openedTypes (h ++ h') = openedTypes h ++ openedTypes h' := by
  simp [openedTypes]

theorem openedTypes_eq (h : List Event) :
    openedTypes h = (receivedOf (actsOf h)).map Message.recordType := by
  induction h with
  | nil => rfl
  | cons e h ih =>
      rw [← List.singleton_append, openedTypes_append, actsOf_append, receivedOf_append,
        List.map_append, ih]
      congr 1
      obtain ⟨call, out⟩ := e
      cases out with
      | record r =>
          cases r with
          | error e => rfl
          | ok w => cases call <;> rfl
      | opened r => cases r <;> rfl
      | none => rfl

namespace Session

/-- The bytes of a sealed record carry the type that was asked for. -/
theorem sealedTypes_step {session next : Session} {e : Event} (h : session.Step e next) :
    sealedTypes [e] = (sentOf (actsOf [e])).map Message.recordType := by
  obtain ⟨aead, h⟩ := h
  obtain ⟨call, out⟩ := e
  have hcase := step_cases aead session call
  rw [h] at hcase
  have hrefusal (error : Error) : sealedTypes [(call, call.refusal error)] =
      (sentOf (actsOf [(call, call.refusal error)])).map Message.recordType := by
    cases call <;> rfl
  cases hcase with
  | terminal _ hout =>
      dsimp only at hout
      subst hout
      exact hrefusal _
  | refused error _ hout =>
      dsimp only at hout
      subst hout
      exact hrefusal _
  | sealed m ciphertext tag hcall _ hfits _ hct hout =>
      dsimp only at hout
      subst hout
      have hparse := parse_wire m.recordType m.channel tag
        (Usage.nextSequence_lt_of_permits hfits.permits) (hct ▸ hfits.length_le)
      rw [actsOf_sealed hcall]
      simp only [sealedTypes, List.filterMap_cons, List.filterMap_nil, Event.sealedType?,
        recordWire, hparse]
      rfl
  | opened o _ _ _ _ _ _ _ hout =>
      dsimp only at hout
      subst hout
      rfl

theorem sealedTypes_eq {role : EndpointRole} {secrets : DerivedSecrets} {h : List Event}
    {s : Session} (run : Path Step (ofSecrets role secrets) h s) :
    sealedTypes h = (sentOf (actsOf h)).map Message.recordType := by
  refine run.invariant
    (P := fun h _ => sealedTypes h = (sentOf (actsOf h)).map Message.recordType) rfl ?_
  intro h s e next _ ih hstep
  rw [sealedTypes_append, ih, sealedTypes_step hstep, actsOf_append, sentOf_append, List.map_append]

end Session

/-- Every record that a seal call returned has a type. -/
theorem Session.exists_sealedType {session next : Session} {call : Call} {record : Bytes}
    (h : session.Step (call, .record (.ok record)) next) :
    ∃ t, Event.sealedType? (call, .record (.ok record)) = some t := by
  have hmessage : ∃ m, call.message? = some m := by
    obtain ⟨aead, hstep⟩ := h
    cases call <;> simp [Session.step, Call.message?] at hstep ⊢
  obtain ⟨m, hm⟩ := hmessage
  have htypes := sealedTypes_step h
  rw [actsOf_sealed hm] at htypes
  cases htype : Event.sealedType? (call, .record (.ok record)) with
  | some t => exact ⟨t, rfl⟩
  | none => simp [sealedTypes, htype] at htypes

/-! ### Words -/

namespace Half

/-- What the automaton accepts is the beginning of a word. -/
theorem exists_word {ts : List RecordType} {half : Half} (h : after ts = some half) :
    ∃ word, Word word ∧ ts <+: word := by
  cases half with
  | idle =>
      rw [after_idle h]
      exact ⟨[.commit, .close], ⟨[], rfl, by simp⟩, List.nil_prefix⟩
  | opened =>
      obtain ⟨mid, rfl, hmid⟩ := after_opened h
      exact ⟨_, ⟨mid, rfl, hmid⟩, List.prefix_append _ _⟩
  | closed =>
      obtain ⟨mid, rfl, hmid⟩ := after_closed h
      exact ⟨_, ⟨mid, rfl, hmid⟩, List.prefix_rfl⟩

theorem close_mem_iff {ts : List RecordType} {half : Half} (h : after ts = some half) :
    .close ∈ ts ↔ half = closed := by
  constructor
  · intro hmem
    by_contra hne
    exact close_notMem_of_after h hne hmem
  · rintro rfl
    obtain ⟨mid, rfl, -⟩ := after_closed h
    simp

end Half

namespace Session

section
variable {role : EndpointRole} {secrets : DerivedSecrets} {h : List Event} {s : Session}

/-- The two traces of a run drive the two halves of its abstract run. -/
theorem halves_of_run (run : Path Step (ofSecrets role secrets) h s) :
    ∃ d : Duplex, Half.after (sealedTypes h) = some d.send ∧
      Half.after (openedTypes h) = some d.receive ∧ Refines role secrets (actsOf h) d s := by
  obtain ⟨d, hd, hr⟩ := run_refines run
  obtain ⟨hsend, hreceive⟩ := Duplex.run_halves hd
  rw [sealedTypes_eq run, openedTypes_eq]
  exact ⟨d, hsend, hreceive, hr⟩

/-- The message of an event that sealed or delivered a record of type `t`. -/
theorem act_of_passes {session next : Session} {e : Event} (hstep : session.Step e next)
    {t : RecordType} (hpasses : e.sealedType? = some t ∨ e.openedType? = some t) :
    ∃ a, actsOf [e] = [a] ∧ a.message.recordType = t := by
  have hmem : ∃ a ∈ actsOf [e], a.message.recordType = t := by
    rcases hpasses with hsealed | hopened
    · have htypes : sealedTypes [e] = [t] := by simp [sealedTypes, hsealed]
      rw [sealedTypes_step hstep] at htypes
      obtain ⟨m, hm, ht⟩ := List.mem_map.mp (htypes ▸ List.mem_singleton_self t)
      exact ⟨.sent m, sent_mem_of_mem_sentOf hm, ht⟩
    · have htypes : openedTypes [e] = [t] := by simp [openedTypes, hopened]
      rw [openedTypes_eq] at htypes
      obtain ⟨m, hm, ht⟩ := List.mem_map.mp (htypes ▸ List.mem_singleton_self t)
      exact ⟨.received m, received_mem_of_mem_receivedOf hm, ht⟩
  obtain ⟨a, ha, ht⟩ := hmem
  refine ⟨a, ?_, ht⟩
  cases hact : e.act? with
  | none => simp [actsOf, hact] at ha
  | some b =>
      simp only [actsOf, List.filterMap_cons, hact, List.filterMap_nil, List.mem_singleton] at ha ⊢
      rw [ha]

/-- Data and RefreshRequired pass while both streams are open. -/
theorem opened_of_payload (run : Path Step (ofSecrets role secrets) h s) {e : Event}
    {next : Session} (hstep : s.Step e next) {t : RecordType} (ht : Half.Payload t)
    (hpasses : e.sealedType? = some t ∨ e.openedType? = some t) :
    Half.after (sealedTypes h) = some .opened ∧ Half.after (openedTypes h) = some .opened := by
  obtain ⟨d, hsend, hreceive, hr⟩ := halves_of_run run
  obtain ⟨a, ha, hta⟩ := act_of_passes hstep hpasses
  obtain ⟨d', hd, -⟩ := hr.step hstep
  rw [ha] at hd
  obtain ⟨hs, hrec⟩ := hd.single_inv.opened_of_payload (hta ▸ ht)
  rw [hsend, hreceive, hs, hrec]
  exact ⟨rfl, rfl⟩

end

/-- **The record grammar.**  Whatever a session is asked, receives and is answered by the AEAD:
the records it seals and the records it opens are the beginnings of words; Data and
RefreshRequired pass after both Commits and before either Close; `Draining` means that the
session is live and exactly one Close passed. -/
theorem record_grammar {role : EndpointRole} {secrets : DerivedSecrets} {h : List Event}
    {s : Session} (run : Path Step (ofSecrets role secrets) h s) :
    (∀ call record, (call, .record (.ok record)) ∈ h →
        ∃ t, Event.sealedType? (call, .record (.ok record)) = some t) ∧
      (∃ word, Word word ∧ sealedTypes h <+: word) ∧
      (∃ word, Word word ∧ openedTypes h <+: word) ∧
      (∀ before e rest t, h = before ++ e :: rest → Half.Payload t →
        (e.sealedType? = some t ∨ e.openedType? = some t) →
        (.commit ∈ sealedTypes before ∧ .commit ∈ openedTypes before) ∧
          .close ∉ sealedTypes before ∧ .close ∉ openedTypes before) ∧
      (s.state = .draining ↔ s.Live ∧ Xor (.close ∈ sealedTypes h) (.close ∈ openedTypes h)) := by
  obtain ⟨d, hsend, hreceive, hr⟩ := halves_of_run run
  refine ⟨?_, Half.exists_word hsend, Half.exists_word hreceive, ?_, ?_⟩
  · intro call record hmem
    obtain ⟨before, rest, rfl⟩ := List.append_of_mem hmem
    obtain ⟨middle, -, hrest⟩ := run.split
    obtain ⟨next, hstep, -⟩ := hrest.cons_inv
    exact exists_sealedType hstep
  · rintro before e rest t rfl ht hpasses
    obtain ⟨middle, hbefore, hrest⟩ := run.split
    obtain ⟨next, hstep, -⟩ := hrest.cons_inv
    obtain ⟨hs, hrec⟩ := opened_of_payload hbefore hstep ht hpasses
    exact ⟨⟨Half.commit_mem_of_after hs (by simp), Half.commit_mem_of_after hrec (by simp)⟩,
      Half.close_notMem_of_after hs (by simp), Half.close_notMem_of_after hrec (by simp)⟩
  · rw [Half.close_mem_iff hsend, Half.close_mem_iff hreceive]
    constructor
    · intro hdraining
      have hlive : s.Live := live_of_state hdraining rfl
      refine ⟨hlive, ?_⟩
      rw [(hr.live hlive).1, Duplex.state_eq_draining] at hdraining
      rcases hdraining with ⟨hs, hrec⟩ | ⟨hs, hrec⟩
      · exact .inl ⟨hs, by simp [hrec]⟩
      · exact .inr ⟨hrec, by simp [hs]⟩
    · rintro ⟨hlive, hxor⟩
      have hcommitted := d.committed
      rw [(hr.live hlive).1, Duplex.state_eq_draining]
      rcases hxor with ⟨hs, hrec⟩ | ⟨hrec, hs⟩
      · have hne := (hcommitted (.inl hs)).2
        left
        exact ⟨hs, (Half.opened_of_ne hne hrec)⟩
      · have hne := (hcommitted (.inr hrec)).1
        right
        exact ⟨Half.opened_of_ne hne hs, hrec⟩

/-- Both Commits, then the Client's Close: the session drains after one of the two Closes. -/
theorem record_grammar_firstClose :
    let commit := ((ofSecrets .server whitepaperSecrets).sealCommit whitepaperAead).1.toOption
    let run := exec move (ofSecrets .client whitepaperSecrets)
      [(whitepaperAead, .sealCommit), (whitepaperAead, .openRecord (commit.getD [])),
        (whitepaperAead, .sealClose)]
    sealedTypes run.1 = [.commit, .close] ∧ (∃ word, Word word ∧ sealedTypes run.1 <+: word) ∧
      Xor (.close ∈ sealedTypes run.1) (.close ∈ openedTypes run.1) := by
  intro commit run
  have hdraining : run.2.state = .draining := by decide +kernel
  have htypes : sealedTypes run.1 = [.commit, .close] := by decide +kernel
  obtain ⟨-, hword, -, -, hstate⟩ :=
    record_grammar (path_execute (ofSecrets .client whitepaperSecrets)
      [(whitepaperAead, .sealCommit), (whitepaperAead, .openRecord (commit.getD [])),
        (whitepaperAead, .sealClose)])
  exact ⟨htypes, hword, (hstate.mp hdraining).2⟩

end Session

end G301.Inner
