import G301.Inner.Grammar
import G301.Inner.Terminal
import G301.Inner.Wire

/-! # The usage limits of one session

`limits_exact`: in a live session the counters of every context agree, stay below the hard
limits and leave room for one more record of any size, so that no limit error can occur; the
record that uses up a context is handed over with `Ok` and ends the session; and `refreshDue`
says exactly that some context has reached a soft limit.

`Usage.Within` is the invariant.  One step counts at most one record in one context and leaves
the session live only if that context stays below its limits (`usage_of_step`). -/

namespace G301.Inner

open ByteString Header Lts

/-! ### Counters below the limits -/

namespace Usage

/-- The three counters agree and are below the hard limits. -/
structure Within (usage : Usage) : Prop where
  sequence_eq : usage.nextSequence = usage.records
  records_lt : usage.records < hardRecordLimit
  bytes_le : usage.plaintextBytes ≤ usage.records * maxPlaintext

variable {usage : Usage} {n : ℕ}

theorem within_default : default.Within := ⟨rfl, by decide, by simp [default]⟩

/-- There is room for one more record of any size. -/
theorem Within.permits (h : usage.Within) (hn : n ≤ maxPlaintext) : usage.permits n = true := by
  obtain ⟨hsequence, hrecords, hbytes⟩ := h
  apply permits_iff.mpr
  simp only [hardRecordLimit, hardByteLimit, maxPlaintext] at *
  refine ⟨hrecords, ?_, ?_⟩ <;> omega

theorem Within.add (h : usage.Within) (hn : n ≤ maxPlaintext)
    (hlimit : (usage.add n).hardLimitReached = false) : (usage.add n).Within := by
  obtain ⟨hsequence, -, hbytes⟩ := h
  have hbelow := hardLimitReached_iff.not.mp (Bool.eq_false_iff.mp hlimit)
  simp only [Usage.add, hardRecordLimit, maxPlaintext] at *
  refine ⟨?_, ?_, ?_⟩
  · show usage.nextSequence + 1 = usage.records + 1
    omega
  · show usage.records + 1 < 2 ^ 22
    omega
  · show usage.plaintextBytes + n ≤ (usage.records + 1) * 16384
    omega

/-- No addition leaves 64 bits. -/
theorem Within.no_overflow (h : usage.Within) (hn : n ≤ maxPlaintext) :
    usage.nextSequence + 1 < 2 ^ 64 ∧ usage.records + 1 < 2 ^ 64 ∧
      usage.plaintextBytes + n < 2 ^ 64 := by
  obtain ⟨hsequence, hrecords, hbytes⟩ := h
  simp only [hardRecordLimit, maxPlaintext] at *
  omega

theorem refreshDue_iff : usage.refreshDue = true ↔
    softRecordLimit ≤ usage.records ∨ softByteLimit ≤ usage.plaintextBytes := by
  simp [refreshDue]

theorem refreshDue_add (h : usage.refreshDue = true) (n : ℕ) :
    (usage.add n).refreshDue = true := by
  apply refreshDue_iff.mpr
  obtain hrecords | hbytes := refreshDue_iff.mp h
  · left
    show softRecordLimit ≤ usage.records + 1
    omega
  · right
    show softByteLimit ≤ usage.plaintextBytes + n
    omega

end Usage

namespace Session

/-! ### One step counts one record -/

/-- A step into a live session changed no counter, or counted one record that reached no limit. -/
theorem usage_of_step {session next : Session} {e : Event} (h : session.Step e next)
    (hlive : next.Live) :
    session.Live ∧ (next.usage = session.usage ∨ ∃ d m, m.plaintext.length ≤ maxPlaintext ∧
      session.reachesLimit d m = false ∧ next.usage = (session.counted d m).usage) := by
  obtain ⟨aead, h⟩ := h
  have hcase := step_cases aead session e.1
  rw [h] at hcase
  cases hcase with
  | terminal hstate _ hnext =>
      dsimp only at hnext
      subst hnext
      exact ⟨hlive, .inl rfl⟩
  | refused _ _ _ hnext =>
      dsimp only at hnext
      subst hnext
      cases hlive
  | sealed m _ _ _ hmay hfits _ _ _ hnext =>
      dsimp only at hnext
      subst hnext
      refine ⟨hmay.live, .inr ⟨session.role.sendDirection, m, hfits.length_le, ?_⟩⟩
      cases hlimit : session.reachesLimit session.role.sendDirection m with
      | true =>
          rw [afterSealed_of_limit hlimit] at hlive
          cases hlive
      | false =>
          rw [afterSealed_of_not_limit hlimit] at hlive ⊢
          exact ⟨rfl, ((sameKeys_noteSealed _ _).kept hlive).2⟩
  | opened o _ _ _ hmay hfits _ _ _ hnext =>
      dsimp only at hnext
      subst hnext
      refine ⟨hmay.live, .inr ⟨session.role.receiveDirection, o.message, hfits.length_le, ?_⟩⟩
      have hafter : session.afterOpened o.message =
          (session.counted session.role.receiveDirection o.message).noteOpened
            o.message.recordType ∧
          session.reachesLimit session.role.receiveDirection o.message = false := by
        simp only [afterOpened, terminateIfHardLimitReached] at hlive ⊢
        split at hlive
        · cases hlive
        · rename_i hkept
          rw [if_neg hkept]
          rw [Live] at hlive
          exact ⟨rfl, by simpa [hlive] using hkept⟩
      rw [hafter.1] at hlive ⊢
      exact ⟨hafter.2, ((sameKeys_noteOpened _ _).kept hlive).2⟩

/-- The counters of all contexts are below the limits. -/
theorem within_of_run {role : EndpointRole} {secrets : DerivedSecrets} {h : List Event}
    {s : Session} (run : Path Step (ofSecrets role secrets) h s) :
    s.Live → ∀ i, (s.usage i).Within := by
  refine run.invariant (P := fun _ s => s.Live → ∀ i, (s.usage i).Within)
    (fun _ _ => Usage.within_default) ?_
  intro h s e next _ ih hstep hlive i
  obtain ⟨hlive, husage | ⟨d, m, hlen, hlimit, husage⟩⟩ := usage_of_step hstep hlive
  · rw [husage]
    exact ih hlive i
  · rw [husage]
    by_cases hi : i = materialIndex m.channel d
    · subst hi
      simp only [counted, setUsage, Function.update_self]
      exact (ih hlive _).add hlen hlimit
    · simp only [counted, setUsage, Function.update_of_ne hi]
      exact ih hlive i

end Session

/-! ### No limit error -/

/-- The error a call returned. -/
def Output.error? : Output → Option Error
  | .record (.error error) => some error
  | .opened (.error error) => some error
  | _ => .none

theorem seal_ne_limitReached {context : CryptoContext} {aead : Aead} {t : RecordType}
    {c : Channel} {sequence : ℕ} {p : Bytes} (hp : p.length ≤ maxPlaintext) :
    context.seal aead t c sequence p ≠ .error .limitReached := by
  unfold CryptoContext.seal
  rw [new_eq_ok hp]
  dsimp only
  split
  · simp
  · split <;> simp

theorem open_ne_limitReached {context : CryptoContext} {aead : Aead} {parsed : ParsedRecord} :
    context.open aead parsed ≠ .error .limitReached := by
  unfold CryptoContext.open
  dsimp only
  split
  · simp
  · simp
  · split <;> simp

namespace Session

section
variable {session : Session} {aead : Aead}

theorem guards_ne_error {a b : Bool} {e e' error : Error} (h : e ≠ error) (h' : e' ≠ error) :
    (if !a then .error e else if !b then .error e' else .ok () : Except Error Unit) ≠
      .error error := by
  cases a <;> cases b <;> simp [h, h']

theorem validateIncoming_ne_limitReached {header : Header} :
    session.validateIncoming header ≠ .error .limitReached :=
  guards_ne_error (by simp) (by simp)

theorem applyOpened_ne_limitReached {header : Header} {p : Bytes} :
    (session.applyOpened header p).1 ≠ .error .limitReached := by
  unfold applyOpened
  cases header.recordType with
  | data =>
      dsimp only
      split <;> simp [fail]
  | commit => simp
  | refreshRequired => simp
  | close => simp

/-- With room in every context a record is not refused for its context's limits. -/
theorem sealRaw_ne_limitReached (hwithin : ∀ i, (session.usage i).Within) (t : RecordType)
    (c : Channel) {p : Bytes} (hp : p.length ≤ maxPlaintext) :
    (session.sealRaw aead t c p).1 ≠ .error .limitReached := by
  have hpermits := (hwithin (materialIndex c session.role.sendDirection)).permits hp
  unfold sealRaw
  dsimp only
  rw [if_neg (by simp [hpermits]), Usage.consume_of_permits hpermits]
  split
  · rename_i e hseal
    rintro hlimit
    obtain rfl := Except.error.inj hlimit
    exact seal_ne_limitReached hp hseal
  · simp

theorem openRecord_ne_limitReached (hwithin : ∀ i, (session.usage i).Within) (input : Bytes) :
    (session.openRecord aead input).1 ≠ .error .limitReached := by
  unfold openRecord
  split
  · simp
  split
  · rename_i e hparse
    rw [parse_eq_error hparse]
    simp [fail]
  rename_i parsed hparse
  split
  · rename_i e hvalidate
    rintro hlimit
    obtain rfl := Except.error.inj hlimit
    exact validateIncoming_ne_limitReached hvalidate
  dsimp only
  split
  · simp [fail]
  have hlen := (parse_eq_ok hparse).1.plaintextLen_le
  have hpermits := (hwithin (materialIndex parsed.header.channel
    session.role.receiveDirection)).permits hlen
  rw [if_neg (by simp [hpermits]), Usage.consume_of_permits hpermits]
  split
  · rename_i e hopen
    rintro hlimit
    obtain rfl := Except.error.inj hlimit
    exact open_ne_limitReached hopen
  dsimp only
  split
  · rename_i e _ happly
    rintro hlimit
    obtain rfl := Except.error.inj hlimit
    exact applyOpened_ne_limitReached (congrArg Prod.fst happly)
  · simp

/-- No call of a session within its limits returns a limit error. -/
theorem step_ne_limitReached (hwithin : session.Live → ∀ i, (session.usage i).Within)
    (call : Call) : (session.step aead call).1.error? ≠ some .limitReached := by
  by_cases hterminal : session.state.terminal = true
  · have hrefused := (step_terminal hterminal aead call)
    rw [hrefused]
    cases call <;> simp [Call.refusal, Output.error?]
  have hwithin := hwithin (by simpa using hterminal)
  -- a seal call returns the error of its own check or of `sealRaw`
  have herror {r : Except Error Bytes} (h : r ≠ .error .limitReached) :
      (Output.record r).error? ≠ some .limitReached := by
    cases r with
    | ok record => simp [Output.error?]
    | error e => simpa [Output.error?] using h
  cases call with
  | sealCommit =>
      apply herror
      have hraw := @sealRaw_ne_limitReached session aead hwithin .commit .guard [] (by simp)
      unfold sealCommit
      split
      · simp [fail]
      split
      · rename_i heq
        rwa [heq] at hraw
      · split <;> simp
  | sealData c p =>
      apply herror
      unfold sealData
      split
      · simp [fail]
      split
      · simp [fail]
      · rename_i hlen
        exact sealRaw_ne_limitReached hwithin .data c.channel (by omega)
  | sealRefreshRequired =>
      apply herror
      unfold sealRefreshRequired
      split
      · simp [fail]
      · exact sealRaw_ne_limitReached hwithin .refreshRequired .guard (by simp)
  | sealClose =>
      apply herror
      have hraw := @sealRaw_ne_limitReached session aead hwithin .close .guard [] (by simp)
      unfold sealClose
      dsimp only
      split
      · simp [fail]
      split
      · rename_i heq
        rwa [heq] at hraw
      · split <;> simp
  | openRecord input =>
      have hopen := @openRecord_ne_limitReached session aead hwithin input
      show (Output.opened (session.openRecord aead input).1).error? ≠ _
      cases hresult : (session.openRecord aead input).1 with
      | ok o => simp [Output.error?]
      | error e =>
          rw [hresult] at hopen
          simpa [Output.error?] using hopen
  | abort => simp [step, Output.error?]

end

end Session

/-! ### What a context processed -/

/-- The messages of a direction that an endpoint processed. -/
def processed (role : EndpointRole) (d : Direction) (h : List Event) : List Message :=
  if d = role.sendDirection then sentOf (actsOf h) else receivedOf (actsOf h)

/-- The number of records that a context processed. -/
def recordsOn (role : EndpointRole) (d : Direction) (c : Channel) (h : List Event) : ℕ :=
  (onChannel c (processed role d h)).length

/-- The number of plaintext bytes that a context processed. -/
def bytesOn (role : EndpointRole) (d : Direction) (c : Channel) (h : List Event) : ℕ :=
  ((onChannel c (processed role d h)).map fun m => m.plaintext.length).sum

theorem plaintextBytes_usageOf (c : Channel) (ms : List Message) :
    (usageOf c ms).plaintextBytes =
      ((onChannel c ms).map fun m => m.plaintext.length).sum := by
  induction ms using List.reverseRecOn with
  | nil => rfl
  | append_singleton ms m ih =>
      rw [usageOf_snoc, onChannel_append, onChannel_singleton]
      split
      · simp [Usage.add, ih]
      · simpa using ih

/-- A call that processed a message returned `Ok`. -/
theorem isOk_of_act? {e : Event} {a : Act} (h : e.act? = some a) : e.2.isOk = true := by
  obtain ⟨call, out⟩ := e
  cases out with
  | record r => cases r <;> simp_all [Event.act?, Output.isOk]
  | opened r => cases r <;> simp_all [Event.act?, Output.isOk]
  | none => simp [Event.act?] at h

/-- A call processes at most one record. -/
theorem recordsOn_snoc (role : EndpointRole) (d : Direction) (c : Channel) (h : List Event)
    (e : Event) :
    recordsOn role d c (h ++ [e]) ≤ recordsOn role d c h + 1 ∧
      (recordsOn role d c (h ++ [e]) ≠ recordsOn role d c h → e.2.isOk = true) := by
  have hone (ms : List Message) (hms : ms.length ≤ 1) : (onChannel c ms).length ≤ 1 :=
    (List.length_filter_le _ _).trans hms
  cases hact : e.act? with
  | none =>
      have hacts : actsOf [e] = [] := by simp [actsOf, hact]
      simp [recordsOn, processed, hacts]
  | some a =>
      have hacts : actsOf [e] = [a] := by simp [actsOf, hact]
      refine ⟨?_, fun _ => isOk_of_act? hact⟩
      simp only [recordsOn, processed, actsOf_append, hacts, sentOf_append, receivedOf_append]
      split
      · have hnew := hone (sentOf [a]) (by cases a <;> simp)
        simp only [onChannel_append, List.length_append]
        omega
      · have hnew := hone (receivedOf [a]) (by cases a <;> simp)
        simp only [onChannel_append, List.length_append]
        omega

namespace Session

section
variable {role : EndpointRole} {secrets : DerivedSecrets} {h : List Event} {s : Session}

/-- The counters of a live session are those of what its contexts processed. -/
theorem usageOn_of_run (run : Path Step (ofSecrets role secrets) h s) (hlive : s.Live)
    (d : Direction) (c : Channel) :
    (s.usageOn d c).records = recordsOn role d c h ∧
      (s.usageOn d c).plaintextBytes = bytesOn role d c h := by
  obtain ⟨_, -, hr⟩ := run_refines run
  have husage : s.usageOn d c = usageOf c (processed role d h) := by
    unfold processed
    split
    · rename_i hd
      rw [hd]
      exact hr.sendUsage hlive c
    · rename_i hd
      have hd : d = role.receiveDirection := by
        cases role <;> cases d <;>
          simp [EndpointRole.sendDirection, EndpointRole.receiveDirection] at hd ⊢
      rw [hd]
      exact hr.receiveUsage hlive c
  rw [husage]
  exact ⟨(usageOf_counts c _).2, plaintextBytes_usageOf c _⟩

theorem recordsOn_lt (run : Path Step (ofSecrets role secrets) h s) (hlive : s.Live)
    (d : Direction) (c : Channel) : recordsOn role d c h < hardRecordLimit := by
  rw [← (usageOn_of_run run hlive d c).1]
  exact (within_of_run run hlive _).records_lt

/-- No context processes more than the hard limit. -/
theorem recordsOn_le (run : Path Step (ofSecrets role secrets) h s) (d : Direction)
    (c : Channel) : recordsOn role d c h ≤ hardRecordLimit := by
  refine run.invariant (P := fun h _ => recordsOn role d c h ≤ hardRecordLimit)
    (by simp [recordsOn, processed, actsOf, onChannel]) ?_
  intro h t e u hbefore ih hstep
  by_cases hlive : t.Live
  · have hlt := recordsOn_lt hbefore hlive d c
    have hone := (recordsOn_snoc role d c h e).1
    omega
  · obtain ⟨aead, hstep⟩ := hstep
    rw [step_terminal (by simpa using hlive)] at hstep
    have hacts : actsOf [e] = [] := by
      rw [show e = (e.1, e.1.refusal .invalidState) from Prod.ext rfl (congrArg Prod.fst hstep).symm]
      exact actsOf_refusal _ _
    have hsame : recordsOn role d c (h ++ [e]) = recordsOn role d c h := by
      simp [recordsOn, processed, hacts]
    omega

theorem refreshDue_iff : s.refreshDue = true ↔ ∃ i, (s.usage i).refreshDue = true := by
  simp [refreshDue]

/-- A record never takes the refresh back. -/
theorem refreshDue_step {next : Session} {e : Event} (hstep : s.Step e next) (hlive : next.Live)
    (hdue : s.refreshDue = true) : next.refreshDue = true := by
  obtain ⟨i, hi⟩ := refreshDue_iff.mp hdue
  apply refreshDue_iff.mpr
  refine ⟨i, ?_⟩
  obtain ⟨-, husage | ⟨d, m, -, -, husage⟩⟩ := usage_of_step hstep hlive
  · rw [husage]
    exact hi
  · rw [husage]
    by_cases hindex : i = materialIndex m.channel d
    · subst hindex
      simp only [counted, setUsage, Function.update_self]
      exact Usage.refreshDue_add hi _
    · simp only [counted, setUsage, Function.update_of_ne hindex]
      exact hi

end

/-- **The usage limits.**  In every reachable live session the counters of each context agree
and leave room for one more record of any size; no call of any run returns a limit error; the
record that uses up a context is returned or delivered and ends the session; the refresh is
due exactly when some context reached a soft limit, and stays due while the session lives. -/
theorem limits_exact {role : EndpointRole} {secrets : DerivedSecrets} {h : List Event}
    {s : Session} (run : Path Step (ofSecrets role secrets) h s) :
    (s.Live → ∀ i, let usage := s.usage i
      usage.nextSequence = usage.records ∧ usage.records < 2 ^ 22 ∧
        usage.plaintextBytes ≤ usage.records * 2 ^ 14 ∧
        ∀ n ≤ maxPlaintext, usage.permits n = true ∧
          (∃ reached, usage.consume n = (.ok reached, usage.add n)) ∧
          usage.nextSequence + 1 < 2 ^ 64 ∧ usage.records + 1 < 2 ^ 64 ∧
          usage.plaintextBytes + n < 2 ^ 64) ∧
    (∀ aead call, (s.step aead call).1.error? ≠ some .limitReached) ∧
    (∀ d c, recordsOn role d c h ≤ 2 ^ 22) ∧
    (∀ d c before e, h = before ++ [e] → recordsOn role d c before < 2 ^ 22 →
      recordsOn role d c h = 2 ^ 22 → (s.state = .failed ∨ s.state = .closed) ∧ e.2.isOk = true) ∧
    (s.refreshDue = true → ∀ later after, Path Step s later after → after.Live →
      after.refreshDue = true) ∧
    (s.Live → (s.refreshDue = true ↔
      ∃ d c, 2 ^ 21 ≤ recordsOn role d c h ∨ 2 ^ 35 ≤ bytesOn role d c h)) := by
  have hwithin := within_of_run run
  refine ⟨?_, fun _ => step_ne_limitReached hwithin, ?_, ?_, ?_, ?_⟩
  · intro hlive i usage
    obtain ⟨hsequence, hrecords, hbytes⟩ := hwithin hlive i
    refine ⟨hsequence, hrecords, hbytes, fun n hn => ?_⟩
    have hpermits := (hwithin hlive i).permits hn
    exact ⟨hpermits, ⟨_, Usage.consume_of_permits hpermits⟩, (hwithin hlive i).no_overflow hn⟩
  · exact recordsOn_le run
  · rintro d c before e rfl hbefore hnow
    obtain ⟨t, hbefore_run, hstep⟩ := run.snoc_inv
    have hterminal : s.state.terminal = true := by
      by_contra hlive
      have hlt := recordsOn_lt run (by simpa using hlive) d c
      simp only [hardRecordLimit] at hlt
      omega
    refine ⟨(SessionState.eq_of_terminal hterminal).symm, ?_⟩
    apply (recordsOn_snoc role d c before e).2
    omega
  · intro hdue later after hpath hlive
    refine hpath.invariant (P := fun _ t => t.Live → t.refreshDue = true) (fun _ => hdue) ?_ hlive
    intro _ t e u _ ih hstep hu
    exact refreshDue_step hstep hu (ih (usage_of_step hstep hu).1)
  · intro hlive
    rw [refreshDue_iff]
    constructor
    · rintro ⟨i, hi⟩
      obtain ⟨c, d, rfl⟩ := exists_materialIndex i
      refine ⟨d, c, ?_⟩
      obtain ⟨hrecords, hbytes⟩ := usageOn_of_run run hlive d c
      rw [← hrecords, ← hbytes]
      exact Usage.refreshDue_iff.mp hi
    · rintro ⟨d, c, hdue⟩
      refine ⟨materialIndex c d, Usage.refreshDue_iff.mpr ?_⟩
      obtain ⟨hrecords, hbytes⟩ := usageOn_of_run run hlive d c
      rw [← hrecords, ← hbytes] at hdue
      exact hdue

/-! ### Using up a context -/

/-- An active session seals one more empty record on every data channel, and stays active below
the limit. -/
theorem exists_sealData {role : EndpointRole} {secrets : DerivedSecrets} {h : List Event}
    {s : Session} {aead : Aead} (haead : aead.Correct)
    (run : Path Step (ofSecrets role secrets) h s)
    (hactive : s.state = .active) (c : DataChannel) :
    ∃ e next, Path Step (ofSecrets role secrets) (h ++ [e]) next ∧
      recordsOn role role.sendDirection c.channel (h ++ [e]) =
        recordsOn role role.sendDirection c.channel h + 1 ∧
      (recordsOn role role.sendDirection c.channel h + 1 < hardRecordLimit →
        next.state = .active) := by
  have hlive := live_of_state hactive rfl
  obtain ⟨d, -, hr⟩ := run_refines run
  have hrole := hr.role_eq
  have hwithin := within_of_run run hlive (materialIndex c.channel role.sendDirection)
  let m : Message := ⟨.data, c.channel, []⟩
  have hfits : s.Fits s.role.sendDirection m := by
    refine ⟨?_, Nat.zero_le _⟩
    rw [hrole]
    exact hwithin.permits (Nat.zero_le _)
  obtain ⟨ciphertext, tag, hencrypt, hct, -⟩ := haead (s.keyOn s.role.sendDirection m.channel)
    (s.recordNonce s.role.sendDirection m.channel) (s.recordAad s.role.sendDirection m)
    m.plaintext
  have hcall : (Call.sealData c []).message? = some m := rfl
  have hstep := step_of_maySeal hcall hactive hfits hencrypt hct
  let w := s.recordWire s.role.sendDirection m ciphertext tag
  refine ⟨(.sealData c [], .record (.ok w)), s.afterSealed m, run.snoc ⟨aead, hstep⟩, ?_, ?_⟩
  · have hacts : actsOf [(Call.sealData c [], Output.record (.ok w))] = [.sent m] :=
      actsOf_sealed hcall w
    simp [recordsOn, processed, hacts, onChannel_append, onChannel_singleton, m]
  · intro hbelow
    have hrecords := (usageOn_of_run run hlive role.sendDirection c.channel).1
    have hlimit : s.reachesLimit s.role.sendDirection m = false := by
      obtain ⟨hsequence, hlt, hbytes⟩ := hwithin
      rw [Bool.eq_false_iff, Ne, reachesLimit, Usage.hardLimitReached_iff, hrole]
      simp only [usageOn, Usage.add, m, hardRecordLimit, hardByteLimit, maxPlaintext,
        List.length_nil] at *
      omega
    rw [afterSealed_of_not_limit hlimit]
    exact hactive

/-- An active session seals any number of records that stays below the limit. -/
theorem exists_sealData_run {role : EndpointRole} {secrets : DerivedSecrets} {h : List Event}
    {s : Session} {aead : Aead} (haead : aead.Correct)
    (run : Path Step (ofSecrets role secrets) h s)
    (hactive : s.state = .active) (c : DataChannel) (n : ℕ)
    (hn : recordsOn role role.sendDirection c.channel h + n < hardRecordLimit) :
    ∃ h' s', Path Step (ofSecrets role secrets) h' s' ∧ s'.state = .active ∧
      recordsOn role role.sendDirection c.channel h' =
        recordsOn role role.sendDirection c.channel h + n := by
  induction n with
  | zero => exact ⟨h, s, run, hactive, rfl⟩
  | succ n ih =>
      obtain ⟨h', s', run', hactive', hcount⟩ := ih (by omega)
      obtain ⟨e, next, hnext, hone, hbelow⟩ := exists_sealData haead run' hactive' c
      refine ⟨h' ++ [e], next, hnext, hbelow (by omega), ?_⟩
      omega

/-- The Client commits and takes the Server's Commit. -/
def bothCommits : List (Aead × Call) :=
  [(whitepaperAead, .sealCommit), (whitepaperAead, .openRecord
    (((ofSecrets .server whitepaperSecrets).sealCommit whitepaperAead).1.toOption.getD []))]

/-- The Client uses up its context of Menora: the last record but one finds room and the refresh
due, and the last one is returned and ends the session. -/
theorem limits_exact_menoraUsedUp :
    ∃ before s e last, Path Step (ofSecrets .client whitepaperSecrets) before s ∧
      Path Step (ofSecrets .client whitepaperSecrets) (before ++ [e]) last ∧
      recordsOn .client .clientToServer .menora before = 2 ^ 22 - 1 ∧
      (s.usageOn .clientToServer .menora).permits maxPlaintext = true ∧ s.refreshDue = true ∧
      recordsOn .client .clientToServer .menora (before ++ [e]) = 2 ^ 22 ∧
      (last.state = .failed ∨ last.state = .closed) ∧ e.2.isOk = true := by
  have haead : whitepaperAead.Correct := Aead.gcm_correct _ _
  have hcommitted := path_execute (ofSecrets .client whitepaperSecrets) bothCommits
  obtain ⟨before, s, run, hactive, hcount⟩ :=
    exists_sealData_run haead hcommitted (by decide +kernel) .menora (2 ^ 22 - 1) (by decide +kernel)
  obtain ⟨e, last, run', hone, -⟩ := exists_sealData haead run hactive .menora
  have hnone : recordsOn .client .clientToServer .menora
      (exec move (ofSecrets .client whitepaperSecrets) bothCommits).1 = 0 := by
    decide +kernel
  have hbefore : recordsOn .client .clientToServer .menora before = 2 ^ 22 - 1 := by
    rw [← Nat.zero_add (2 ^ 22 - 1), ← hnone]
    exact hcount
  have hlast : recordsOn .client .clientToServer .menora (before ++ [e]) = 2 ^ 22 := by
    have hsum : recordsOn .client .clientToServer .menora (before ++ [e]) =
        recordsOn .client .clientToServer .menora before + 1 := hone
    omega
  have hlive := live_of_state hactive rfl
  obtain ⟨hroom, -, -, -, -, hrefresh⟩ := limits_exact run
  obtain ⟨-, -, -, hended, -⟩ := limits_exact run'
  refine ⟨before, s, e, last, run, run', hbefore, ?_, ?_, hlast, ?_⟩
  · exact ((hroom hlive _).2.2.2 maxPlaintext le_rfl).1
  · exact (hrefresh hlive).mpr ⟨.clientToServer, .menora, .inl (by omega)⟩
  · exact hended _ _ _ _ rfl (by omega) hlast

end Session

end G301.Inner
