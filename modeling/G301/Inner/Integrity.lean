import G301.Inner.Execution
import G301.Inner.Terminal

/-! # Nonces and order of the record streams

Two endpoints of one exporter and context against an arbitrary network.

* `Net.nonces_nodup`: no pair of traffic key and nonce is ever used twice, whatever the AEAD
  answers.
* `Net.received_isPrefix`: on every channel an endpoint opens a prefix of what its peer sealed;
  `Net.delivered_isPrefix` reads this for the plaintexts of each data channel and the counts of
  the control records. -/

namespace G301.Inner

open ByteString Lts

namespace Net

/-- Every list of the run only grows. -/
theorem onChannel_prefix_snoc {h : List NetEvent} {ev : NetEvent} (e : EndpointRole) (c : Channel) :
    onChannel c (sentBy e h) <+: onChannel c (sentBy e (h ++ [ev])) ∧
      onChannel c (receivedBy e h) <+: onChannel c (receivedBy e (h ++ [ev])) := by
  by_cases hwho : ev.who = e
  · subst hwho
    rw [sentBy_snoc_self, receivedBy_snoc_self, onChannel_append, onChannel_append]
    exact ⟨List.prefix_append _ _, List.prefix_append _ _⟩
  · rw [sentBy_snoc_ne hwho, receivedBy_snoc_ne hwho]
    exact ⟨List.prefix_refl _, List.prefix_refl _⟩

/-! ### Nonce uniqueness -/

section calls
variable {allowed : List Encryption → Aead → Prop} {secrets : EndpointRole → DerivedSecrets}
variable {s : DerivedSecrets} {h : List CallEvent} {net next : Net} {ev : CallEvent}
variable {x y : Fin materialCount × EncryptCall}

/-- The encryption call has the key of `e` for a channel, and the nonce of a sequence number. -/
structure Numbered (secrets : DerivedSecrets) (e : EndpointRole) (c : Channel) (n : ℕ)
    (x : Fin materialCount × EncryptCall) : Prop where
  index_eq : x.1 = materialIndex c e.sendDirection
  key_eq : x.2.key = (secrets.traffic x.1).key
  nonce_eq : x.2.nonce = nonce (secrets.traffic x.1).iv n
  lt : n < 256 ^ 8

/-- Calls under one key index and nonce are of one endpoint, channel and number. -/
theorem Numbered.unique {e e' : EndpointRole} {c c' : Channel} {n n' : ℕ}
    (hx : Numbered (secrets e) e c n x) (hy : Numbered (secrets e') e' c' n' y)
    (hindex : x.1 = y.1) (hnonce : x.2.nonce = y.2.nonce) : e = e' ∧ c = c' ∧ n = n' := by
  have heq := hindex
  rw [hx.index_eq, hy.index_eq, materialIndex_eq_iff] at heq
  obtain ⟨rfl, hdirection⟩ := heq
  obtain rfl := EndpointRole.sendDirection_inj hdirection
  rw [hx.nonce_eq, hy.nonce_eq, hindex] at hnonce
  exact ⟨rfl, rfl, nonce_inj hx.lt hy.lt hnonce⟩

/-- Every call made has a number of its own on its channel; those of a live endpoint are below the
number of records it sealed there. -/
structure Numbering (secrets : EndpointRole → DerivedSecrets) (h : List CallEvent) (net : Net) :
    Prop where
  numbered : ∀ ev ∈ h, ∀ x ∈ ev.2, ∃ c n, Numbered (secrets ev.1.who) ev.1.who c n x ∧
    ((net.session ev.1.who).Live →
      n < (onChannel c (sentBy ev.1.who (h.map Prod.fst))).length)
  nodup : ((callsOf h).map fun x => (x.1, x.2.nonce)).Nodup

/-- An endpoint that is live after a step was live before it. -/
theorem live_of_step (hs : Step allowed net ev.1 next) {e : EndpointRole}
    (hlive : (next.session e).Live) : (net.session e).Live := by
  have hp : Path (Step allowed) net [ev.1] next := .single hs
  exact Session.live_of_path (path_session hp e) hlive

/-- The call for the next record of an endpoint is numbered by the records before it. -/
theorem numbered_encryptCall (hp : Path (CallStep allowed) (init secrets) h net)
    {e : EndpointRole} {m : Message} (hmay : (net.session e).MaySeal m.recordType)
    (hfits : (net.session e).Fits (net.session e).role.sendDirection m) (aead : Aead) :
    Numbered (secrets e) e m.channel (onChannel m.channel (sentBy e (h.map Prod.fst))).length
      ((net.session e).encryptCall aead m) := by
  obtain ⟨d, -, hr⟩ := run_refines (path_of_calls hp) e
  have hfollows := hr.follows_send hmay.live
  have hlt := Usage.nextSequence_lt_of_permits hfits.permits
  rw [hr.role_eq, hfollows.sequence_eq] at hlt
  unfold Session.encryptCall
  rw [hr.role_eq]
  refine ⟨rfl, ?_, ?_, hlt⟩
  · show ((net.session e).traffic _).key = _
    rw [hfollows.traffic_eq]
  · show nonce ((net.session e).traffic _).iv _ = _
    rw [hfollows.traffic_eq, hfollows.sequence_eq]
    rfl

/-- A step keeps the numbers of the calls made before it. -/
theorem Numbering.before (hn : Numbering secrets h net) (hs : Step allowed net ev.1 next)
    {ev' : CallEvent} (hev : ev' ∈ h) (hx : x ∈ ev'.2) :
    ∃ c n, Numbered (secrets ev'.1.who) ev'.1.who c n x ∧ ((next.session ev'.1.who).Live →
      n < (onChannel c (sentBy ev'.1.who ((h ++ [ev]).map Prod.fst))).length) := by
  obtain ⟨c, n, hx, hlt⟩ := hn.numbered ev' hev x hx
  refine ⟨c, n, hx, fun hlive => ?_⟩
  have hprefix := (@onChannel_prefix_snoc (h.map Prod.fst) ev.1 ev'.1.who c).1.length_le
  have hbefore := hlt (live_of_step hs hlive)
  rw [List.map_append, List.map_singleton]
  omega

/-- A step that makes no call keeps the numbering. -/
theorem Numbering.kept (hn : Numbering secrets h net) (hs : Step allowed net ev.1 next)
    (hcalls : ev.2 = []) : Numbering secrets (h ++ [ev]) next := by
  constructor
  · intro ev' hev x hx
    rcases List.mem_append.mp hev with hev | hev
    · exact hn.before hs hev hx
    · rw [List.mem_singleton.mp hev, hcalls] at hx
      cases hx
  · rw [callsOf_snoc, hcalls, List.append_nil]
    exact hn.nodup

/-- A new call has a number of its own, and its endpoint seals a record with it or dies. -/
theorem Numbering.called (hn : Numbering secrets h net) (hs : Step allowed net ev.1 next)
    (hcalls : ev.2 = [x]) {m : Message} (hlive : (net.session ev.1.who).Live)
    (hx : Numbered (secrets ev.1.who) ev.1.who m.channel
      (onChannel m.channel (sentBy ev.1.who (h.map Prod.fst))).length x)
    (hsent : (next.session ev.1.who).Live → actsOf [(ev.1.call, ev.1.output)] = [.sent m]) :
    Numbering secrets (h ++ [ev]) next := by
  constructor
  · intro ev' hev y hy
    rcases List.mem_append.mp hev with hev | hev
    · exact hn.before hs hev hy
    · rw [List.mem_singleton] at hev
      subst hev
      rw [hcalls, List.mem_singleton] at hy
      subst hy
      refine ⟨m.channel, _, hx, fun hnext => ?_⟩
      rw [List.map_append, List.map_singleton, sentBy_snoc_self, hsent hnext, sentOf_sent,
        onChannel_append, onChannel_singleton, if_pos rfl, List.length_append,
        List.length_singleton]
      omega
  · rw [callsOf_snoc, hcalls, List.map_append, List.map_singleton]
    refine List.nodup_append.mpr ⟨hn.nodup, List.nodup_singleton _, ?_⟩
    intro p hp q hq heq
    obtain ⟨y, hy, rfl⟩ := List.mem_map.mp hp
    rw [List.mem_singleton.mp hq] at heq
    obtain ⟨hindex, hnonce⟩ := Prod.mk.inj heq
    obtain ⟨ev', hev, hy⟩ := List.mem_flatMap.mp hy
    obtain ⟨c, n, hy, hlt⟩ := hn.numbered ev' hev y hy
    obtain ⟨hwho, rfl, rfl⟩ := hy.unique hx hindex hnonce
    rw [hwho] at hlt
    have hbefore := hlt hlive
    omega

/-- The key of a call is that of its index. -/
theorem Numbering.key_eq (hn : Numbering (fun _ => s) h net) (hx : x ∈ callsOf h) :
    x.2.key = (s.traffic x.1).key := by
  obtain ⟨ev, hev, hx⟩ := List.mem_flatMap.mp hx
  obtain ⟨c, n, hx, -⟩ := hn.numbered ev hev x hx
  exact hx.key_eq

/-- **Every call has its own number** in every run, whatever the AEAD answers. -/
theorem run_numbering (hp : Path (CallStep allowed) (init secrets) h net) :
    Numbering secrets h net := by
  refine hp.invariant (P := Numbering secrets) ⟨fun ev hev => ?_, List.nodup_nil⟩ ?_
  · cases hev
  rintro h net ⟨ev, calls⟩ next hp ih ⟨aead, next', hallowed, hstep, hnext⟩
  have hs : Step allowed net ev next := CallStep.step ⟨aead, next', hallowed, hstep, hnext⟩
  rcases Session.stepLogged_cases (net.session ev.who) aead ev.call with
    ⟨m, hcall, hmay, hfits, hcalls⟩ | ⟨hcalls, -⟩
  · rw [hstep] at hcalls
    refine ih.called hs hcalls hmay.live (numbered_encryptCall hp hmay hfits aead) ?_
    intro hlive
    rw [hnext] at hlive
    simp only [advance, Function.update_self] at hlive
    have hcase := Session.step_cases aead (net.session ev.who) ev.call
    rw [← Session.stepLogged_step, hstep] at hcase
    cases hcase with
    | terminal hterm _ _ => exact absurd hmay.live (by simp [hterm])
    | refused _ _ _ hdead =>
        rw [show next' = _ from hdead] at hlive
        cases hlive
    | sealed m' _ _ hcall' _ _ _ _ hout _ =>
        rw [hcall, Option.some.injEq] at hcall'
        subst hcall'
        rw [show ev.output = _ from hout]
        exact actsOf_sealed hcall _
    | opened _ _ _ hopen _ _ _ _ _ _ =>
        rw [hopen] at hcall
        cases hcall
  · rw [hstep] at hcalls
    exact ih.kept hs hcalls

/-- The record carries the answer to the one encryption call that its event made, and says the
number of that call. -/
def Carries (secrets : EndpointRole → DerivedSecrets) (ev : CallEvent) (w : Bytes) : Prop :=
  ∃ x t c n ciphertext tag, ev.2 = [x] ∧ Numbered (secrets ev.1.who) ev.1.who c n x ∧
    x.2.answer = some (ciphertext, tag) ∧ w = wire t c n ciphertext tag

theorem CallStep.carries (hp : Path (CallStep allowed) (init secrets) h net)
    (hs : CallStep allowed net ev next) {w : Bytes} (hout : ev.1.output = .record (.ok w)) :
    Carries secrets ev w := by
  obtain ⟨d, -, hr⟩ := run_refines (path_of_calls hp) ev.1.who
  obtain ⟨aead, next', -, hstep, -⟩ := hs
  rcases Session.stepLogged_cases (net.session ev.1.who) aead ev.1.call with
    ⟨m, hcall, hmay, hfits, hcalls⟩ | ⟨-, hnone⟩
  · rw [hstep] at hcalls
    have hcase := Session.step_cases aead (net.session ev.1.who) ev.1.call
    rw [← Session.stepLogged_step, hstep] at hcase
    cases hcase with
    | terminal _ hrefused _ => exact absurd (hrefused.symm.trans hout) (Session.refusal_ne_ok _ _ _)
    | refused _ _ hrefused _ =>
        exact absurd (hrefused.symm.trans hout) (Session.refusal_ne_ok _ _ _)
    | opened _ _ _ _ _ _ _ _ hopened _ => cases hopened.symm.trans hout
    | sealed m' ciphertext tag hcall' _ _ hencrypt hct hout' _ =>
        rw [hcall, Option.some.injEq] at hcall'
        subst hcall'
        rw [hout] at hout'
        obtain rfl := Except.ok.inj (Output.record.inj hout')
        refine ⟨_, m.recordType, m.channel, _, ciphertext, tag, hcalls,
          numbered_encryptCall hp hmay hfits aead, hencrypt, ?_⟩
        rw [hr.role_eq, (hr.follows_send hmay.live).recordWire_eq]
        rfl
  · rw [← Session.stepLogged_step, hstep] at hnone
    exact absurd hout (hnone w)

/-- **Every record carries its call.** -/
theorem run_carries (hp : Path (CallStep allowed) (init secrets) h net) :
    ∀ ev ∈ h, ∀ w, ev.1.output = .record (.ok w) → Carries secrets ev w := by
  refine hp.invariant (P := fun h _ => ∀ ev ∈ h, ∀ w, ev.1.output = .record (.ok w) →
    Carries secrets ev w) (by simp) ?_
  intro h net ev next hp ih hs ev' hev'
  rcases List.mem_append.mp hev' with hev' | hev'
  · exact ih ev' hev'
  · rw [List.mem_singleton.mp hev']
    exact fun w hout => hs.carries hp hout

end calls

/-- **Nonce uniqueness.**  Over all encryption calls that the two endpoints make, the pairs of
traffic key index and AES-GCM nonce are distinct, and the key is that of the index.  Behind every
record that a seal call returns stands one of these calls. -/
theorem nonces_nodup {secrets : DerivedSecrets} {h : List CallEvent} {net : Net}
    (hp : Path (CallStep fun _ _ => True) (init fun _ => secrets) h net) :
    ((callsOf h).map fun x => (x.1, x.2.nonce)).Nodup ∧
    (∀ x ∈ callsOf h, x.2.key = (secrets.traffic x.1).key) ∧
    ∀ ev ∈ h, ∀ w, ev.1.output = .record (.ok w) → Carries (fun _ => secrets) ev w := by
  have hnumbering := run_numbering hp
  exact ⟨hnumbering.nodup, fun x hx => hnumbering.key_eq hx, run_carries hp⟩

/-- Both Commits and two records on one channel. -/
def twoRecords : List Input :=
  [.call .client .sealCommit, .call .server .sealCommit, .deliver .server 0, .deliver .client 1,
    .call .client (.sealData .menora (ascii "G301")),
    .call .client (.sealData .menora (ascii "G301"))]

theorem nonces_nodup_twoRecords :
    let r := exec (moveLogged whitepaperAead) (init fun _ => whitepaperSecrets) twoRecords
    (callsOf r.1).length = 4 ∧ ((callsOf r.1).map fun x => (x.1, x.2.nonce)).Nodup ∧
      (sealedRecords (r.1.map Prod.fst)).length = 4 := by
  intro r
  have hp : Path (CallStep fun _ _ => True) (init fun _ => whitepaperSecrets) r.1 r.2 :=
    path_executeLogged (fun _ => trivial) _ _
  exact ⟨by decide +kernel, (nonces_nodup hp).1, by decide +kernel⟩

/-! ### Prefixes -/

theorem prefix_snoc {α : Type} {l l' : List α} {a : α} (hp : l <+: l')
    (ha : l'[l.length]? = some a) : l ++ [a] <+: l' := by
  obtain ⟨t, rfl⟩ := hp
  cases t with
  | nil => simp at ha
  | cons b t =>
      simp only [List.getElem?_append_right (le_refl _), Nat.sub_self, List.getElem?_cons_zero,
        Option.some.injEq] at ha
      subst ha
      exact ⟨t, by simp⟩

section
variable {secrets : EndpointRole → DerivedSecrets} {h : List NetEvent} {net next : Net}
variable {ev : NetEvent}

/-- A step that opens nothing keeps the prefixes. -/
theorem received_isPrefix_of_not_received
    (ih : ∀ e c, onChannel c (receivedBy e h) <+: onChannel c (sentBy e.peer h))
    (hrec : receivedOf (actsOf [(ev.call, ev.output)]) = []) (e : EndpointRole) (c : Channel) :
    onChannel c (receivedBy e (h ++ [ev])) <+: onChannel c (sentBy e.peer (h ++ [ev])) := by
  rw [receivedBy_snoc_of_not_received hrec]
  exact (ih e c).trans (onChannel_prefix_snoc e.peer c).1

/-- **In-order integrity**, channel by channel. -/
theorem received_isPrefix (hp : Path (Step Aead.Ideal) (init secrets) h net) (e : EndpointRole)
    (c : Channel) : onChannel c (receivedBy e h) <+: onChannel c (sentBy e.peer h) := by
  refine hp.invariant (P := fun h _ => ∀ e c,
    onChannel c (receivedBy e h) <+: onChannel c (sentBy e.peer h)) ?_ ?_ e c
  · intro e c
    exact List.prefix_refl _
  intro h net ev next hp ih hs
  cases step_cases hp hs with
  | quiet hacts _ _ _ => exact received_isPrefix_of_not_received ih (by rw [hacts]; rfl)
  | sealed m x _ _ _ _ _ hacts _ _ => exact received_isPrefix_of_not_received ih (by rw [hacts]; rfl)
  | opened o _ _ _ _ _ _ _ _ _ _ _ _ _ _ hacts _ _ =>
      intro e c
      by_cases hwho : ev.who = e
      · subst hwho
        rw [receivedBy_snoc_self, hacts, receivedOf_received, onChannel_append,
          onChannel_singleton, sentBy_snoc_ne ev.who.peer_ne.symm]
        by_cases hc : o.message.channel = c
        · subst hc
          -- the entry behind the record sits right after the prefix opened so far
          obtain ⟨x, hx, hsender, hmessage, hseq, -⟩ := exists_sealed hp hs hacts
          have hget := (run_logged hp).getElem? hx
          rw [hsender, hmessage, hseq] at hget
          simp only [if_true]
          exact prefix_snoc (ih ev.who o.message.channel) hget
        · simp only [hc, if_false, List.append_nil]
          exact ih ev.who c
      · rw [receivedBy_snoc_ne hwho]
        exact (ih e c).trans (onChannel_prefix_snoc e.peer c).1

end

/-! ### Plaintexts and control records -/

/-- The plaintext that a call sealed on a data channel. -/
def sealedOn (c : DataChannel) (ev : NetEvent) : Option Bytes :=
  match ev.call, ev.output with
  | .sealData c' p, .record (.ok _) => if c' = c then some p else none
  | _, _ => none

/-- The plaintext that a call opened as Data on a data channel. -/
def openedOn (c : DataChannel) (ev : NetEvent) : Option Bytes :=
  match ev.output with
  | .opened (.ok (.data c' p)) => if c' = c then some p else none
  | _ => none

/-- The plaintexts an endpoint sealed with `sealData` on a channel, in order. -/
def sealedData (e : EndpointRole) (c : DataChannel) (h : List NetEvent) : List Bytes :=
  h.filterMap fun ev => if ev.who = e then sealedOn c ev else none

/-- The plaintexts `openRecord` returned to an endpoint as Data of a channel, in order. -/
def deliveredData (e : EndpointRole) (c : DataChannel) (h : List NetEvent) : List Bytes :=
  h.filterMap fun ev => if ev.who = e then openedOn c ev else none

theorem sealedOn_eq (c : DataChannel) (ev : NetEvent) :
    (sealedOn c ev).toList =
      (onChannel c.channel (sentOf (actsOf [(ev.call, ev.output)]))).map Message.plaintext := by
  obtain ⟨who, call, output⟩ := ev
  have hguard := c.channel_ne_guard.symm
  cases output with
  | record r =>
      cases r with
      | error e => cases call <;> rfl
      | ok w =>
          cases call with
          | sealData c' p =>
              rw [actsOf_sealed rfl, sentOf_sent, onChannel_singleton]
              by_cases hc : c' = c <;> simp [sealedOn, hc]
          | openRecord _ => rfl
          | abort => rfl
          | _ =>
              rw [actsOf_sealed rfl, sentOf_sent, onChannel_singleton]
              simp [sealedOn, hguard]
  | opened r => cases r <;> cases call <;> rfl
  | none => cases call <;> rfl

theorem openedOn_eq (c : DataChannel) (ev : NetEvent) :
    (openedOn c ev).toList =
      (onChannel c.channel (receivedOf (actsOf [(ev.call, ev.output)]))).map
        Message.plaintext := by
  obtain ⟨who, call, output⟩ := ev
  have hguard := c.channel_ne_guard.symm
  cases output with
  | record r =>
      cases r with
      | error e => cases call <;> rfl
      | ok w => cases call <;> rfl
  | opened r =>
      cases r with
      | error e => cases call <;> rfl
      | ok o =>
          rw [actsOf_opened, receivedOf_received, onChannel_singleton]
          cases o with
          | data c' p =>
              by_cases hc : c' = c <;> simp [openedOn, OpenedRecord.message, hc]
          | _ => simp [openedOn, OpenedRecord.message, hguard]
  | none => cases call <;> rfl

theorem sealedData_eq (e : EndpointRole) (c : DataChannel) (h : List NetEvent) :
    sealedData e c h = (onChannel c.channel (sentBy e h)).map Message.plaintext := by
  induction h using List.reverseRecOn with
  | nil => rfl
  | append_singleton h ev ih =>
      rw [sealedData, List.filterMap_append, ← sealedData, ih]
      by_cases hwho : ev.who = e
      · subst hwho
        rw [sentBy_snoc_self, onChannel_append, List.map_append, ← sealedOn_eq]
        cases hs : sealedOn c ev <;> simp [hs]
      · rw [sentBy_snoc_ne hwho]
        simp [hwho]

theorem deliveredData_eq (e : EndpointRole) (c : DataChannel) (h : List NetEvent) :
    deliveredData e c h = (onChannel c.channel (receivedBy e h)).map Message.plaintext := by
  induction h using List.reverseRecOn with
  | nil => rfl
  | append_singleton h ev ih =>
      rw [deliveredData, List.filterMap_append, ← deliveredData, ih]
      by_cases hwho : ev.who = e
      · subst hwho
        rw [receivedBy_snoc_self, onChannel_append, List.map_append, ← openedOn_eq]
        cases hs : openedOn c ev <;> simp [hs]
      · rw [receivedBy_snoc_ne hwho]
        simp [hwho]

/-- Records of the control types are all on Guard. -/
theorem countP_onChannel {ms : List Message} (hwf : ∀ m ∈ ms, m.WellFormed) {t : RecordType}
    (ht : t ≠ .data) :
    (onChannel .guard ms).countP (fun m => m.recordType = t) =
      ms.countP fun m => m.recordType = t := by
  rw [onChannel, List.countP_filter]
  apply List.countP_congr
  intro m hm
  simp only [Bool.and_eq_true, decide_eq_true_eq, and_iff_left_iff_imp]
  rintro rfl
  rcases hwf m hm with ⟨hdata, -⟩ | ⟨-, hguard, -⟩
  · exact absurd hdata ht
  · exact hguard

theorem wellFormed_of_mem_sentBy {e : EndpointRole} {h : List NetEvent} {m : Message}
    (hm : m ∈ sentBy e h) : m.WellFormed :=
  wellFormed_of_mem_actsOf (sent_mem_of_mem_sentOf hm)

theorem wellFormed_of_mem_receivedBy {e : EndpointRole} {h : List NetEvent} {m : Message}
    (hm : m ∈ receivedBy e h) : m.WellFormed :=
  wellFormed_of_mem_actsOf (received_mem_of_mem_receivedOf hm)

/-- **In-order integrity.**  On every data channel the plaintexts an endpoint got are a prefix
of those its peer sealed, and it got no more control records of a type than the peer sealed. -/
theorem delivered_isPrefix {secrets : DerivedSecrets} {h : List NetEvent} {net : Net}
    (hp : Path (Step Aead.Ideal) (init fun _ => secrets) h net) (e : EndpointRole) :
    (∀ c, deliveredData e c h <+: sealedData e.peer c h) ∧
      ∀ t, t ≠ .data → (receivedBy e h).countP (fun m => m.recordType = t) ≤
        (sentBy e.peer h).countP fun m => m.recordType = t := by
  constructor
  · intro c
    rw [deliveredData_eq, sealedData_eq]
    exact (received_isPrefix hp e c.channel).map Message.plaintext
  · intro t ht
    rw [← countP_onChannel (fun m => wellFormed_of_mem_receivedBy) ht,
      ← countP_onChannel (fun m => wellFormed_of_mem_sentBy) ht]
    exact (received_isPrefix hp e .guard).sublist.countP_le

/-- The first of two records, delivered. -/
def oneDelivered : List Input := twoRecords ++ [.deliver .server 2]

theorem delivered_isPrefix_oneDelivered :
    let r := exec (move whitepaperAead) (init fun _ => whitepaperSecrets) oneDelivered
    deliveredData .server .menora r.1 = [ascii "G301"] ∧
      sealedData .client .menora r.1 = [ascii "G301", ascii "G301"] ∧
      (∀ c, deliveredData .server c r.1 <+: sealedData .client c r.1) ∧
      ∀ t, t ≠ .data → (receivedBy .server r.1).countP (fun m => m.recordType = t) ≤
        (sentBy .client r.1).countP fun m => m.recordType = t :=
  ⟨by decide +kernel, by decide +kernel,
    delivered_isPrefix (path_execute (fun _ => Aead.ideal_answering _ _) _ _) .server⟩

end Net

end G301.Inner
