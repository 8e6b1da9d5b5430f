import G301.Inner.SessionSpec
import G301.Lib.Path

/-! # What a session is for: two half-duplex streams

The abstract model of one endpoint, independent of keys, counters and wire format.  Each
direction is a stream `Commit (Data | RefreshRequired)* Close`, read by the three-state
automaton `Half`; a `Duplex` is the pair of the two, with the rules that tie them together:
nothing but a Commit before both directions are committed, Data and RefreshRequired only
while both are open.  `Duplex.state` is the protocol state the pair stands for.

`Duplex.Step` moves by one message sent or received.  The facts proved here about its runs
(`Duplex.run_halves`, `Duplex.run_committed`, and the grammar lemmas of `Half`) are what
the session inherits through `Session.run_refines`. -/

namespace G301.Inner

open Lts

/-- One direction: nothing yet, committed, closed. -/
inductive Half where
  | idle
  | opened
  | closed
deriving DecidableEq, Repr

namespace Half

def next : Half → RecordType → Option Half
  | idle, .commit => some opened
  | opened, .data => some opened
  | opened, .refreshRequired => some opened
  | opened, .close => some closed
  | _, _ => none

/-- The automaton run on a list of record types. -/
def after (ts : List RecordType) : Option Half := ts.foldlM next idle

theorem after_snoc (ts : List RecordType) (t : RecordType) :
    after (ts ++ [t]) = (after ts).bind fun h => h.next t := by
  simp [after, List.foldlM_append]

/-- A message of the open phase. -/
def Payload (t : RecordType) : Prop := t = .data ∨ t = .refreshRequired

theorem next_idle {h : Half} {t : RecordType} : h.next t ≠ some idle := by
  cases h <;> cases t <;> simp [next]

theorem next_opened {h : Half} {t : RecordType} (hn : h.next t = some opened) :
    (h = idle ∧ t = .commit) ∨ (h = opened ∧ Payload t) := by
  cases h <;> cases t <;> simp_all [next, Payload]

theorem next_closed {h : Half} {t : RecordType} (hn : h.next t = some closed) :
    h = opened ∧ t = .close := by
  cases h <;> cases t <;> simp_all [next]

theorem after_idle {ts : List RecordType} (h : after ts = some idle) : ts = [] := by
  induction ts using List.reverseRecOn with
  | nil => rfl
  | append_singleton ts t _ =>
      rw [after_snoc, Option.bind_eq_some_iff] at h
      obtain ⟨h', -, hn⟩ := h
      exact absurd hn next_idle

/-- An open stream is one Commit and messages of the open phase. -/
theorem after_opened {ts : List RecordType} (h : after ts = some opened) :
    ∃ mid, ts = .commit :: mid ∧ ∀ t ∈ mid, Payload t := by
  induction ts using List.reverseRecOn with
  | nil => simp [after] at h
  | append_singleton ts t ih =>
      rw [after_snoc, Option.bind_eq_some_iff] at h
      obtain ⟨h', hts, hn⟩ := h
      rcases next_opened hn with ⟨rfl, rfl⟩ | ⟨rfl, ht⟩
      · rw [after_idle hts]
        exact ⟨[], rfl, by simp⟩
      · obtain ⟨mid, rfl, hmid⟩ := ih hts
        refine ⟨mid ++ [t], rfl, ?_⟩
        intro x hx
        rcases List.mem_append.mp hx with hx | hx
        · exact hmid x hx
        · rw [List.mem_singleton.mp hx]; exact ht

/-- A closed stream is an open one and one Close. -/
theorem after_closed {ts : List RecordType} (h : after ts = some closed) :
    ∃ mid, ts = (.commit :: mid) ++ [.close] ∧ ∀ t ∈ mid, Payload t := by
  induction ts using List.reverseRecOn with
  | nil => simp [after] at h
  | append_singleton ts t _ =>
      rw [after_snoc, Option.bind_eq_some_iff] at h
      obtain ⟨h', hts, hn⟩ := h
      obtain ⟨rfl, rfl⟩ := next_closed hn
      obtain ⟨mid, rfl, hmid⟩ := after_opened hts
      exact ⟨mid, rfl, hmid⟩

/-- In a stream that the automaton accepts every type is a move from where it stands. -/
theorem exists_next_of_after {ts rest : List RecordType} {t : RecordType} {h h' : Half}
    (hts : after ts = some h) (hall : after (ts ++ t :: rest) = some h') :
    ∃ k, h.next t = some k := by
  have hfold : after (ts ++ t :: rest) = ((after ts).bind fun h => h.next t).bind
      fun k => rest.foldlM next k := by
    simp only [after, List.foldlM_append, List.foldlM_cons]
    cases hh : List.foldlM next idle ts <;> simp
  rw [hfold, hts, Option.bind_some] at hall
  exact Option.bind_eq_some_iff.mp hall |>.imp fun _ hk => hk.1

theorem commit_mem_of_after {ts : List RecordType} {h : Half} (ha : after ts = some h)
    (hne : h ≠ idle) : RecordType.commit ∈ ts := by
  cases h with
  | idle => exact absurd rfl hne
  | opened => obtain ⟨mid, rfl, -⟩ := after_opened ha; simp
  | closed => obtain ⟨mid, rfl, -⟩ := after_closed ha; simp

theorem opened_of_ne {h : Half} (hi : h ≠ idle) (hc : h ≠ closed) : h = opened := by
  cases h
  · exact absurd rfl hi
  · rfl
  · exact absurd rfl hc

theorem close_notMem_of_after {ts : List RecordType} {h : Half} (ha : after ts = some h)
    (hne : h ≠ closed) : RecordType.close ∉ ts := by
  cases h with
  | idle => rw [after_idle ha]; simp
  | opened =>
      obtain ⟨mid, rfl, hmid⟩ := after_opened ha
      intro hmem
      rcases List.mem_cons.mp hmem with h | h
      · cases h
      · rcases hmid _ h with h | h <;> cases h
  | closed => exact absurd rfl hne

end Half

/-- A message that crossed the endpoint's border, with its direction. -/
inductive Act where
  | sent (m : Message)
  | received (m : Message)
deriving DecidableEq, Repr

def Act.message : Act → Message
  | sent m => m
  | received m => m

/-- The messages sent, in order. -/
def sentOf (acts : List Act) : List Message :=
  acts.filterMap fun | .sent m => some m | .received _ => none

/-- The messages received, in order. -/
def receivedOf (acts : List Act) : List Message :=
  acts.filterMap fun | .sent _ => none | .received m => some m

@[simp] theorem sentOf_nil : sentOf [] = [] := rfl
@[simp] theorem receivedOf_nil : receivedOf [] = [] := rfl

@[simp] theorem sentOf_append (as bs : List Act) : sentOf (as ++ bs) = sentOf as ++ sentOf bs := by
  simp [sentOf]

@[simp] theorem receivedOf_append (as bs : List Act) :
    receivedOf (as ++ bs) = receivedOf as ++ receivedOf bs := by
  simp [receivedOf]

@[simp] theorem sentOf_sent (m : Message) : sentOf [.sent m] = [m] := rfl
@[simp] theorem sentOf_received (m : Message) : sentOf [.received m] = [] := rfl
@[simp] theorem receivedOf_sent (m : Message) : receivedOf [.sent m] = [] := rfl
@[simp] theorem receivedOf_received (m : Message) : receivedOf [.received m] = [m] := rfl

theorem sent_mem_of_mem_sentOf {acts : List Act} {m : Message} (h : m ∈ sentOf acts) :
    Act.sent m ∈ acts := by
  simp only [sentOf, List.mem_filterMap] at h
  obtain ⟨a, ha, hm⟩ := h
  cases a <;> simp at hm
  subst hm; exact ha

theorem received_mem_of_mem_receivedOf {acts : List Act} {m : Message}
    (h : m ∈ receivedOf acts) : Act.received m ∈ acts := by
  simp only [receivedOf, List.mem_filterMap] at h
  obtain ⟨a, ha, hm⟩ := h
  cases a <;> simp at hm
  subst hm; exact ha

/-- The two directions of one endpoint; neither closes before both are committed. -/
structure Duplex where
  send : Half
  receive : Half
  committed : send = .closed ∨ receive = .closed → send ≠ .idle ∧ receive ≠ .idle

namespace Duplex

def init : Duplex := ⟨.idle, .idle, by simp⟩

/-- The protocol state the pair stands for. -/
def state (d : Duplex) : SessionState :=
  match d.send, d.receive with
  | .closed, .closed => .closed
  | .closed, _ => .draining
  | _, .closed => .draining
  | .opened, .opened => .active
  | _, _ => .committing

/-- The rule for the next message of the direction `h`, the other one being `other`. -/
def May (h other : Half) : RecordType → Prop
  | .commit => h = .idle
  | .data | .refreshRequired => h = .opened ∧ other = .opened
  | .close => h = .opened ∧ other ≠ .idle

/-- One message sent or received. -/
inductive Step (d : Duplex) : Act → Duplex → Prop
  | sent {m : Message} {d' : Duplex} (hmay : May d.send d.receive m.recordType)
      (hnext : d.send.next m.recordType = some d'.send) (hother : d'.receive = d.receive) :
      Step d (.sent m) d'
  | received {m : Message} {d' : Duplex} (hmay : May d.receive d.send m.recordType)
      (hnext : d.receive.next m.recordType = some d'.receive) (hother : d'.send = d.send) :
      Step d (.received m) d'

/-- Each half is where its own messages lead. -/
theorem run_halves {acts : List Act} {d : Duplex} (h : Path Step init acts d) :
    Half.after ((sentOf acts).map Message.recordType) = some d.send ∧
      Half.after ((receivedOf acts).map Message.recordType) = some d.receive := by
  refine h.invariant (P := fun acts d =>
    Half.after ((sentOf acts).map Message.recordType) = some d.send ∧
      Half.after ((receivedOf acts).map Message.recordType) = some d.receive) ⟨rfl, rfl⟩ ?_
  intro acts d a d' _ ih hs
  cases hs with
  | sent _ hnext hother =>
      refine ⟨?_, by simpa [hother] using ih.2⟩
      simp only [sentOf_append, sentOf_sent, List.map_append, List.map_cons, List.map_nil]
      rw [Half.after_snoc, ih.1]
      exact hnext
  | received _ hnext hother =>
      refine ⟨by simpa [hother] using ih.1, ?_⟩
      simp only [receivedOf_append, receivedOf_received, List.map_append, List.map_cons,
        List.map_nil]
      rw [Half.after_snoc, ih.2]
      exact hnext

theorem May.not_idle {h other : Half} {t : RecordType} (hm : May h other t) (ht : t ≠ .commit) :
    h ≠ .idle ∧ other ≠ .idle := by
  cases t
  case commit => exact absurd rfl ht
  case data => rw [hm.1, hm.2]; simp
  case refreshRequired => rw [hm.1, hm.2]; simp
  case close => rw [hm.1]; exact ⟨by simp, hm.2⟩

theorem next_ne_idle {h h' : Half} {t : RecordType} (hn : h.next t = some h') : h' ≠ .idle := by
  intro he; rw [he] at hn; exact Half.next_idle hn

/-- Once anything but a Commit was sent or received, both directions are committed. -/
theorem run_committed {acts : List Act} {d : Duplex} (h : Path Step init acts d)
    (hex : ∃ a ∈ acts, a.message.recordType ≠ .commit) : d.send ≠ .idle ∧ d.receive ≠ .idle := by
  refine h.invariant (P := fun acts d =>
    (∃ a ∈ acts, a.message.recordType ≠ .commit) → d.send ≠ .idle ∧ d.receive ≠ .idle) ?_ ?_ hex
  · simp
  intro acts d a d' _ ih hs hex
  obtain ⟨b, hb, hbt⟩ := hex
  cases hs with
  | @sent m _ hmay hnext hother =>
      refine ⟨next_ne_idle hnext, ?_⟩
      rw [hother]
      rcases List.mem_append.mp hb with hb | hb
      · exact (ih ⟨b, hb, hbt⟩).2
      · rw [List.mem_singleton.mp hb] at hbt
        exact (hmay.not_idle hbt).2
  | @received m _ hmay hnext hother =>
      refine ⟨?_, next_ne_idle hnext⟩
      rw [hother]
      rcases List.mem_append.mp hb with hb | hb
      · exact (ih ⟨b, hb, hbt⟩).1
      · rw [List.mem_singleton.mp hb] at hbt
        exact (hmay.not_idle hbt).2

/-- Messages of the open phase pass while both directions are open. -/
theorem Step.opened_of_payload {d d' : Duplex} {a : Act} (h : Step d a d')
    (ht : Half.Payload a.message.recordType) : d.send = .opened ∧ d.receive = .opened := by
  cases h with
  | @sent m _ hmay =>
      change Half.Payload m.recordType at ht
      rcases ht with ht | ht <;> rw [ht] at hmay
      · exact hmay
      · exact hmay
  | @received m _ hmay =>
      change Half.Payload m.recordType at ht
      rcases ht with ht | ht <;> rw [ht] at hmay
      · exact ⟨hmay.2, hmay.1⟩
      · exact ⟨hmay.2, hmay.1⟩

/-! ### Reading the state -/

theorem state_eq_active {d : Duplex} :
    d.state = .active ↔ d.send = .opened ∧ d.receive = .opened := by
  obtain ⟨s, r, hc⟩ := d
  cases s <;> cases r <;> simp [state]

theorem state_eq_closed {d : Duplex} :
    d.state = .closed ↔ d.send = .closed ∧ d.receive = .closed := by
  obtain ⟨s, r, hc⟩ := d
  cases s <;> cases r <;> simp [state]

theorem state_eq_committing {d : Duplex} :
    d.state = .committing ↔ d.send = .idle ∨ d.receive = .idle := by
  obtain ⟨s, r, hc⟩ := d
  cases s <;> cases r <;> simp [state] at hc ⊢

theorem state_eq_draining {d : Duplex} :
    d.state = .draining ↔ (d.send = .closed ∧ d.receive = .opened) ∨
      (d.send = .opened ∧ d.receive = .closed) := by
  obtain ⟨s, r, hc⟩ := d
  cases s <;> cases r <;> simp [state] at hc ⊢

/-- Before the close neither direction is closed. -/
theorem ne_closed_of_state {d : Duplex} (h : d.state = .committing ∨ d.state = .active) :
    d.send ≠ .closed ∧ d.receive ≠ .closed := by
  obtain ⟨s, r, hc⟩ := d
  cases s <;> cases r <;> simp [state] at h hc ⊢

end Duplex

end G301.Inner
