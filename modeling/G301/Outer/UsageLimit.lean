import G301.Outer.Counter

/-! # The write-key usage limit

`usage_limit`: under one write key at most as many encryption records start as the limit
allows, the next one is refused before the inner context sees anything of it, and none is
refused for that reason before.

`Ledger` is the count as the limit means it, kept from the events alone: the key of the
latest init that took effect, the write key of the running epoch, and the encryption records
of the epoch whose manifest was handed to the inner context.  `Matches` says that the keys,
flags and counter of the context are the ledger's, `Tracks` the same of the record that is
about to start. -/

namespace G301.Outer

open ByteString Param Lts

/-! ### The ledger -/

structure Ledger where
  /-- The key of the latest init whose inner init and key recording succeeded. -/
  effective : Option Bytes
  /-- The effective key of the latest successful encrypt init with an IV. -/
  writeKey : Option Bytes
  /-- The encryption records since `writeKey` was installed. -/
  records : ℕ
  /-- An encryption record has begun, its manifest is still to come. -/
  pending : Bool
deriving DecidableEq, Repr

def ExtCall.handsManifest : ExtCall → Bool
  | update false data _ => decide (data = manifest)
  | _ => false

def Event.handsManifest (ev : Event) : Bool := ev.trace.any ExtCall.handsManifest

/-- The first manifest of an encryption record counts. -/
def Ledger.hand (l : Ledger) (handed : Bool) : Ledger :=
  if l.pending && handed then { l with records := l.records + 1, pending := false } else l

def Ledger.note (l : Ledger) (ev : Event) : Ledger :=
  let effective := ev.recordsKey <|> l.effective
  if ev.begins then
    if ev.encrypts then
      { effective := effective
        writeKey := effective
        records := if l.writeKey = effective then l.records else 0
        pending := true }
    else { l with effective := effective, pending := false }
  else { l with effective := effective }.hand ev.handsManifest

/-- The ledger after a history. -/
def ledger (h : List Event) : Ledger := h.foldl Ledger.note ⟨none, none, 0, false⟩

theorem ledger_snoc (h : List Event) (ev : Event) : ledger (h ++ [ev]) = (ledger h).note ev := by
  simp [ledger]

theorem Ledger.note_of_not_begins (l : Ledger) {ev : Event} (hbegins : ev.begins = false)
    (hkey : ev.recordsKey = none) : l.note ev = l.hand ev.handsManifest := by
  simp [note, hbegins, hkey]

theorem recordsKey_of_not_isInit {ev : Event} (h : ∀ c ∈ ev.trace, c.isInit = false) :
    ev.recordsKey = none := by
  unfold Event.recordsKey
  split
  case h_1 key iv encrypt params rest heq =>
    have hinit := h (.init (some key) iv encrypt params true) (by rw [heq]; simp)
    cases hinit
  case h_2 => rfl

/-! ### The invariants -/

structure Matches (L : ℤ) (l : Ledger) (ctx : Ctx) : Prop where
  limit : ctx.recordLimit = L
  effective : l.effective = if ctx.currentKeyValid then some ctx.currentKey else none
  writeKey : l.writeKey = if ctx.usageKeyValid then some ctx.usageKey else none
  installed : ctx.usageKeyValid = true → ctx.currentKeyChanged = false →
    ctx.usageKey = ctx.currentKey
  keyValid : ctx.keyValid = true → ctx.currentKeyValid = true
  nonneg : 0 ≤ ctx.encryptedRecords
  le : ctx.encryptedRecords ≤ L + 1
  exhausted : ctx.usageExhausted = true ↔ ctx.encryptedRecords = L + 1
  records : (l.records : ℤ) = min ctx.encryptedRecords L

/-- The ledger awaits a manifest exactly for a pending encryption record. -/
structure Tracks (l : Ledger) (ctx : Ctx) : Prop where
  pending : ctx.refuses = false → ctx.phase = .manifestPending → ctx.encrypt = true →
    l.pending = true ∧ ctx.recordReserved = false ∧ ctx.usageKeyValid = true
  only : ctx.refuses = false → l.pending = true →
    ctx.phase = .manifestPending ∧ ctx.encrypt = true

theorem Matches.congr {L : ℤ} {l : Ledger} {ctx next : Ctx} (hm : Matches L l ctx)
    (hkeys : next.keys = ctx.keys) (hrecords : next.encryptedRecords = ctx.encryptedRecords)
    (hexhausted : next.usageExhausted = ctx.usageExhausted) : Matches L l next := by
  obtain ⟨hencrypt, hvalid, hcurrent, hcurrentValid, hchanged, husage, husageValid, hlimit⟩ :=
    Keys.mk.inj hkeys
  constructor
  · rw [hlimit, hm.limit]
  · rw [hm.effective, hcurrentValid, hcurrent]
  · rw [hm.writeKey, husageValid, husage]
  · rw [husageValid, hchanged, husage, hcurrent]
    exact hm.installed
  · rw [hvalid, hcurrentValid]
    exact hm.keyValid
  · rw [hrecords]
    exact hm.nonneg
  · rw [hrecords]
    exact hm.le
  · rw [hrecords, hexhausted]
    exact hm.exhausted
  · rw [hrecords]
    exact hm.records

theorem Inject.handsManifest_of_true {ctx next : Ctx} {trace : List ExtCall} {raised : List Reason}
    (hphase : ctx.phase = .manifestPending) (h : Inject ctx trace raised true next) :
    trace.any ExtCall.handsManifest = true := by
  obtain ⟨-, ⟨hactive, -⟩ | ⟨-, adds, -, rfl⟩⟩ := h.of_true
  · rw [hphase] at hactive
    cases hactive
  · rw [List.any_append, Bool.or_eq_true]
    exact .inr (by decide +kernel)

@[simp] theorem Ledger.hand_false (l : Ledger) : l.hand false = l := by
  simp [hand]

theorem Ledger.hand_of_not_pending {l : Ledger} (h : l.pending = false) (handed : Bool) :
    l.hand handed = l := by
  simp [hand, h]

theorem Matches.counted {L : ℤ} {l : Ledger} {ctx : Ctx} (hm : Matches L l ctx) :
    Counted L ctx :=
  ⟨hm.limit, hm.nonneg, hm.le, hm.exhausted.mpr⟩

theorem Matches.reserve {L : ℤ} {l : Ledger} {ctx reserved : Ctx} {trace : List ExtCall}
    (hmax : L < intMax) (hm : Matches L l ctx) (ht : Tracks l ctx) (hlive : ctx.refuses = false)
    (hphase : ctx.phase = .manifestPending) (h : Reserved ctx trace reserved) :
    Matches L (l.hand true) reserved := by
  cases h with
  | decrypt hdecrypt =>
      have hidle : l.pending = false := by
        by_contra hpending
        have hencrypt := (ht.only hlive (by simpa using hpending)).2
        rw [hdecrypt] at hencrypt
        cases hencrypt
      rw [Ledger.hand_of_not_pending hidle]
      exact hm
  | again hencrypt hreserved =>
      have hfresh := (ht.pending hlive hphase hencrypt).2.1
      rw [hreserved] at hfresh
      cases hfresh
  | counted hencrypt _ _ hopen hlimit =>
      obtain ⟨hle, hwrap⟩ := hm.counted.succ hmax hopen
      rw [hwrap, hm.limit] at hlimit
      have hpending := (ht.pending hlive hphase hencrypt).1
      have hrecords := hm.records
      have hnonneg := hm.nonneg
      simp only [Ledger.hand, hpending, Bool.and_self, if_true]
      refine ⟨hm.limit, hm.effective, hm.writeKey, hm.installed, hm.keyValid, ?_, ?_, ?_, ?_⟩
      · show 0 ≤ wrapInt _
        omega
      · show wrapInt _ ≤ L + 1
        omega
      · show ctx.usageExhausted = true ↔ wrapInt _ = L + 1
        rw [hopen, hwrap]
        constructor
        · intro h
          cases h
        · intro h
          omega
      · show ((l.records + 1 : ℕ) : ℤ) = min (wrapInt _) L
        push_cast
        omega

/-- What the injection does to the count. -/
theorem Matches.inject {L : ℤ} {l : Ledger} {ctx next : Ctx} {trace : List ExtCall}
    {raised : List Reason} {ok : Bool} (hL : 1 ≤ L) (hmax : L < intMax) (hm : Matches L l ctx)
    (ht : Tracks l ctx) (hlive : ctx.refuses = false) (h : Inject ctx trace raised ok next) :
    Matches L (l.hand (trace.any ExtCall.handsManifest)) next := by
  have hhands {adds : List ExtCall} {reply : Reply} :
      (adds ++ [ExtCall.update false manifest reply]).any ExtCall.handsManifest = true := by
    simp [ExtCall.handsManifest]
  have hidle (trace : List ExtCall) (htrace : trace.any ExtCall.handsManifest = false) :
      l.hand (trace.any ExtCall.handsManifest) = l := by
    rw [htrace, Ledger.hand_false]
  cases h with
  | active => simpa using hm
  | exhausted =>
      rw [hidle [] rfl]
      exact hm.congr rfl rfl rfl
  | atomicFailed =>
      rw [hidle [.atomicAdd false] rfl]
      exact hm.congr rfl rfl rfl
  | overLimit _ _ _ _ hopen hlimit =>
      rw [hidle [.atomicAdd true] rfl]
      obtain ⟨hle, hwrap⟩ := hm.counted.succ hmax hopen
      rw [hwrap, hm.limit] at hlimit
      have hrecords := hm.records
      refine ⟨hm.limit, hm.effective, hm.writeKey, hm.installed, hm.keyValid, ?_, ?_, ?_, ?_⟩
      · show 0 ≤ wrapInt _
        omega
      · show wrapInt _ ≤ L + 1
        omega
      · show true = true ↔ wrapInt _ = L + 1
        simp only [true_iff]
        omega
      · show (l.records : ℤ) = min (wrapInt _) L
        omega
  | manifestFailed reply raised hphase hr =>
      rw [hhands]
      exact (hm.reserve hmax ht hlive hphase hr).congr rfl rfl rfl
  | injected hphase hr =>
      rw [hhands]
      exact (hm.reserve hmax ht hlive hphase hr).congr rfl rfl rfl

/-- What comes after the injection in the same call does not count. -/
theorem Tracks.hand_or {l : Ledger} {ctx next : Ctx} {trace : List ExtCall} {raised : List Reason}
    (ht : Tracks l ctx) (hlive : ctx.refuses = false) (h : Inject ctx trace raised true next)
    (last : ExtCall) :
    l.hand ((trace ++ [last]).any ExtCall.handsManifest) =
      l.hand (trace.any ExtCall.handsManifest) := by
  cases hpending : l.pending with
  | false => rw [Ledger.hand_of_not_pending hpending, Ledger.hand_of_not_pending hpending]
  | true =>
      have hhands := h.handsManifest_of_true (ht.only hlive hpending).1
      rw [List.any_append, hhands, Bool.true_or]

/-- Calls that are no init. -/
theorem Matches.call {L : ℤ} {l : Ledger} {ctx next : Ctx} {ev : Event} (hL : 1 ≤ L)
    (hmax : L < intMax) (hm : Matches L l ctx) (ht : Tracks l ctx) (h : StepCase ctx ev next)
    (hinit : ∀ encrypt key iv params, ev.call ≠ .init encrypt key iv params) :
    Matches L (l.hand ev.handsManifest) next := by
  have hother {trace : List ExtCall} (htrace : ev.trace = trace)
      (hhands : trace.any ExtCall.handsManifest = false) : l.hand ev.handsManifest = l := by
    rw [Event.handsManifest, htrace, hhands, Ledger.hand_false]
  cases h with
  | init hcall => exact absurd hcall (hinit _ _ _ _)
  | update _ hcase =>
      cases hcase with
      | refused _ _ htrace _ hnext => rw [hother htrace rfl, hnext]; exact hm
      | empty _ _ _ htrace _ hnext => rw [hother htrace rfl, hnext]; exact hm
      | injectFailed _ _ _ hlive hinject => exact hm.inject hL hmax ht hlive hinject
      | failed _ _ _ _ hlive hinject _ _ htrace _ hnext =>
          rw [Event.handsManifest, htrace, ht.hand_or hlive hinject, hnext]
          exact (hm.inject hL hmax ht hlive hinject).congr rfl rfl rfl
      | done _ _ _ hlive _ hinject _ htrace _ hnext =>
          rw [Event.handsManifest, htrace, ht.hand_or hlive hinject, hnext]
          exact (hm.inject hL hmax ht hlive hinject).congr rfl rfl rfl
  | final _ hcase =>
      cases hcase with
      | refused _ _ htrace _ hnext => rw [hother htrace rfl, hnext]; exact hm
      | poisoned _ _ _ htrace _ hnext =>
          rw [hother htrace rfl, hnext]
          exact hm.congr rfl rfl rfl
      | injectFailed _ hlive _ hinject => exact hm.inject hL hmax ht hlive hinject
      | failed _ _ hlive _ hinject _ _ htrace _ hnext =>
          rw [Event.handsManifest, htrace, ht.hand_or hlive hinject, hnext]
          exact (hm.inject hL hmax ht hlive hinject).congr rfl rfl rfl
      | done _ hlive _ hinject _ htrace _ hnext =>
          rw [Event.handsManifest, htrace, ht.hand_or hlive hinject, hnext]
          exact (hm.inject hL hmax ht hlive hinject).congr rfl rfl rfl
  | getCtxParams _ hcase =>
      cases hcase with
      | quiet _ htrace _ hnext => rw [hother htrace rfl, hnext]; exact hm
      | failed _ _ _ _ _ _ htrace _ hnext =>
          rw [hother htrace rfl, hnext]
          exact hm.congr rfl rfl rfl
      | fetched _ _ _ _ _ _ _ htrace _ hnext => rw [hother htrace rfl, hnext]; exact hm
  | setCtxParams _ hcase =>
      cases hcase with
      | quiet _ htrace _ hnext =>
          rw [hother htrace rfl, hnext]
          split
          · exact hm.congr rfl rfl rfl
          · exact hm
      | failed _ _ _ _ _ _ htrace _ hnext =>
          rw [hother htrace rfl, hnext]
          exact hm.congr rfl rfl rfl
      | done _ _ _ _ _ _ htrace _ hnext =>
          rw [hother htrace rfl, hnext]
          exact hm.congr rfl rfl rfl

theorem Matches.setPending {L : ℤ} {l : Ledger} {ctx : Ctx} (hm : Matches L l ctx)
    (pending : Bool) : Matches L { l with pending := pending } ctx :=
  ⟨hm.limit, hm.effective, hm.writeKey, hm.installed, hm.keyValid, hm.nonneg, hm.le, hm.exhausted,
    hm.records⟩

theorem Matches.takeKey {L : ℤ} {l : Ledger} {ctx : Ctx} (hm : Matches L l ctx) (encrypt : Bool)
    (key : Buffer) :
    Matches L { l with effective := key.data? <|> l.effective } (ctx.takeKey encrypt key) := by
  cases key with
  | null size =>
      exact ⟨hm.limit, hm.effective, hm.writeKey, hm.installed, hm.keyValid, hm.nonneg, hm.le,
        hm.exhausted, hm.records⟩
  | bytes k =>
      refine ⟨hm.limit, rfl, hm.writeKey, fun husage hchanged => ?_, fun _ => rfl, hm.nonneg, hm.le,
        hm.exhausted, hm.records⟩
      obtain ⟨⟨hchanged, hvalid⟩, hsame⟩ : (ctx.currentKeyChanged = false ∧
          ctx.currentKeyValid = true) ∧ ctx.currentKey = k := by
        simpa [Ctx.takeKey, Ctx.recordKey] using hchanged
      exact (hm.installed husage hchanged).trans hsame

theorem Matches.installKey {L : ℤ} {l : Ledger} {ctx : Ctx} (hL : 1 ≤ L) (hm : Matches L l ctx)
    (hvalid : ctx.currentKeyValid = true) :
    Matches L { l with
      writeKey := l.effective, records := if l.writeKey = l.effective then l.records else 0 }
      ctx.installKey := by
  have heffective : l.effective = some ctx.currentKey := by rw [hm.effective, hvalid, if_pos rfl]
  have hkeeps : ctx.keepsWriteKey = true ↔ l.writeKey = l.effective := by
    rw [hm.writeKey, heffective, Ctx.keepsWriteKey]
    cases husage : ctx.usageKeyValid with
    | false => simp
    | true =>
        have hinstalled := hm.installed husage
        cases hchanged : ctx.currentKeyChanged with
        | false => simp [hinstalled hchanged]
        | true => simp
  have hrecords := hm.records
  by_cases hsame : l.writeKey = l.effective
  · have hkeep : ctx.keepsWriteKey = true := hkeeps.mpr hsame
    have husage : ctx.usageKeyValid = true := (Bool.and_eq_true_iff.mp hkeep).1
    have hkey : ctx.usageKey = ctx.currentKey := by
      rw [hm.writeKey, husage, if_pos rfl, heffective] at hsame
      exact Option.some.inj hsame
    refine ⟨hm.limit, hm.effective, ?_, fun _ _ => ?_, hm.keyValid, ?_, ?_, ?_, ?_⟩
    · simp [Ctx.installKey, hkeep, hkey, heffective]
    · simp [Ctx.installKey, hkeep, hkey]
    · simpa [Ctx.installKey, hkeep] using hm.nonneg
    · simpa [Ctx.installKey, hkeep] using hm.le
    · simpa [Ctx.installKey, hkeep] using hm.exhausted
    · simpa [Ctx.installKey, hkeep, hsame] using hrecords
  · have hkeep : ctx.keepsWriteKey = false := by
      rw [← Bool.not_eq_true, hkeeps]
      exact hsame
    refine ⟨hm.limit, hm.effective, ?_, fun _ _ => ?_, hm.keyValid, ?_, ?_, ?_, ?_⟩
    · simp [Ctx.installKey, hkeep, heffective]
    · simp [Ctx.installKey, hkeep]
    · simp [Ctx.installKey, hkeep]
    · show (if ctx.keepsWriteKey = true then _ else (0 : ℤ)) ≤ L + 1
      rw [hkeep, if_neg Bool.false_ne_true]
      omega
    · simp only [Ctx.installKey, hkeep, Bool.false_and, Bool.false_eq_true, if_false, false_iff]
      omega
    · simp only [Ctx.installKey, hkeep, hsame, Bool.false_eq_true, if_false]
      push_cast
      omega

theorem Matches.beginRecord {L : ℤ} {l : Ledger} {ctx : Ctx} (hm : Matches L l ctx)
    (tagCurrent : Bool) : Matches L l (ctx.beginRecord tagCurrent) :=
  ⟨hm.limit, hm.effective, hm.writeKey, hm.installed, hm.keyValid, hm.nonneg, hm.le, hm.exhausted,
    hm.records⟩

theorem Matches.dropKey {L : ℤ} {l : Ledger} {ctx : Ctx} (hm : Matches L l ctx) (key : Buffer) :
    Matches L l (ctx.dropKey key).drop := by
  cases key with
  | null size => exact hm.congr rfl rfl rfl
  | bytes k =>
      refine ⟨hm.limit, hm.effective, hm.writeKey, hm.installed, fun hvalid => ?_, hm.nonneg, hm.le,
        hm.exhausted, hm.records⟩
      cases hvalid

theorem handsManifest_eq_false {trace : List ExtCall} (h : ∀ c ∈ trace, c.isInner = false) :
    trace.any ExtCall.handsManifest = false := by
  rw [List.any_eq_false]
  intro c hc
  have hinner := h c hc
  cases c <;> first | exact Bool.false_ne_true | cases hinner

/-- The key an init records, seen from its requests. -/
theorem recordsKey_of_taken {ev : Event} {encrypt : Bool} {key iv : Buffer}
    {params : Option (List Param)} {locks : List ExtCall}
    (htrace : ev.trace =
      initRequest encrypt key iv params true :: (recordTrace key true ++ locks)) :
    ev.recordsKey = key.data? := by
  rw [Event.recordsKey, htrace]
  cases key <;> rfl

/-- Inits. -/
theorem Matches.init {L : ℤ} {l : Ledger} {ctx next : Ctx} {ev : Event} {encrypt : Bool}
    {key iv : Buffer} {params : Option (List Param)} (hL : 1 ≤ L) (hm : Matches L l ctx)
    (hcall : ev.call = .init encrypt key iv params)
    (h : InitCase ctx encrypt key iv params ev next) : Matches L (l.note ev) next := by
  have hfailed (hret : ev.ret = false) : ev.begins = false := by
    simp [Event.begins, hcall, hret]
  have hhands {ok : Bool} {rest : List ExtCall}
      (htrace : ev.trace = initRequest encrypt key iv params ok :: rest)
      (hrest : ∀ c ∈ rest, c.isInner = false) : ev.handsManifest = false := by
    rw [Event.handsManifest, htrace, List.any_cons, handsManifest_eq_false hrest]
    rfl
  cases h with
  | rejected hret htrace _ hrejects =>
      have hkey : ev.recordsKey = none := by simp [Event.recordsKey, htrace]
      have hhands : ev.handsManifest = false := by simp [Event.handsManifest, htrace]
      have hsame := hrejects.invalidateRecord_eq
      rw [Ledger.note_of_not_begins l (hfailed hret) hkey, hhands, Ledger.hand_false]
      exact hm.congr (Ctx.keys_eq_of_record hsame)
        (congrArg (fun c => c.encryptedRecords) hsame) (congrArg (fun c => c.usageExhausted) hsame)
  | innerFailed _ hret htrace _ hnext =>
      have hkey : ev.recordsKey = none := by
        rw [Event.recordsKey, htrace]
        cases key <;> rfl
      rw [Ledger.note_of_not_begins l (hfailed hret) hkey, hhands htrace (by simp),
        Ledger.hand_false, hnext]
      exact hm.dropKey key
  | recordFailed _ _ hret htrace _ hnext =>
      have hkey : ev.recordsKey = none := by
        rw [Event.recordsKey, htrace]
        cases key <;> rfl
      rw [Ledger.note_of_not_begins l (hfailed hret) hkey,
        hhands htrace (recordTrace_not_isInner key false), Ledger.hand_false, hnext]
      exact hm.dropKey key
  | installFailed locks _ _ _ hlocks hret htrace _ hnext =>
      simp only [Ledger.note, hfailed hret, recordsKey_of_taken htrace,
        hhands htrace (locks_not_isInner key true hlocks), Bool.false_eq_true, if_false,
        Ledger.hand_false]
      rw [hnext]
      exact (hm.takeKey encrypt key).congr rfl rfl rfl
  | staged _ hiv hret htrace _ hnext =>
      have hbegins : ev.begins = false := by simp [Event.begins, hcall, hiv]
      have htrace' : ev.trace =
          initRequest encrypt key iv params true :: (recordTrace key true ++ []) := by
        rw [htrace, List.append_nil]
      simp only [Ledger.note, hbegins, recordsKey_of_taken htrace',
        hhands htrace (recordTrace_not_isInner key true), Bool.false_eq_true, if_false,
        Ledger.hand_false]
      rw [hnext]
      exact (hm.takeKey encrypt key).congr rfl rfl rfl
  | begun locks hadmits hiv hlocks hret htrace _ hnext =>
      have hbegins : ev.begins = true := by simp [Event.begins, hcall, hret, hiv]
      have hencrypts : ev.encrypts = encrypt := by simp [Event.encrypts, hcall]
      have hm' := hm.takeKey encrypt key
      simp only [Ledger.note, hbegins, hencrypts, recordsKey_of_taken htrace, if_true]
      rw [hnext]
      cases encrypt with
      | false =>
          exact (hm'.setPending false).beginRecord _
      | true =>
          obtain ⟨v, rfl⟩ := Buffer.eq_bytes_of_isNull hiv
          have hvalid := hm'.keyValid (takeKey_keyValid hadmits)
          exact ((hm'.installKey hL hvalid).setPending true).beginRecord _

theorem Matches.step {L : ℤ} {l : Ledger} {ctx next : Ctx} {ev : Event} (hL : 1 ≤ L)
    (hmax : L < intMax) (hm : Matches L l ctx) (ht : Tracks l ctx) (h : StepCase ctx ev next) :
    Matches L (l.note ev) next := by
  obtain ⟨encrypt, key, iv, params, hcall, hinit⟩ | ⟨hcall, -, htrace⟩ := h.frame
  · exact hm.init hL hcall hinit
  · have hkey := recordsKey_of_not_isInit htrace
    have hbegins : ev.begins = false := by
      unfold Event.begins
      split
      case h_1 hcall' => exact absurd hcall' (hcall _ _ _ _)
      case h_2 => rfl
    rw [Ledger.note_of_not_begins l hbegins hkey]
    exact hm.call hL hmax ht h hcall

theorem Tracks.step {l : Ledger} {ctx next : Ctx} {ev : Event} (ht : Tracks l ctx)
    (h : StepCase ctx ev next) : Tracks (l.note ev) next := by
  have hsame {tagCurrent : Bool} (hlive : ctx.refuses = false) (hbegins : ev.begins = false)
      (hkey : ev.recordsKey = none) (hhands : ev.handsManifest = false)
      (hnext : next = { ctx with decryptTagCurrent := tagCurrent }) : Tracks (l.note ev) next := by
    rw [Ledger.note_of_not_begins l hbegins hkey, hhands, Ledger.hand_false, hnext]
    exact ⟨fun _ => ht.pending hlive, fun _ => ht.only hlive⟩
  by_cases hlive : next.refuses = false
  case neg => exact ⟨fun h => absurd h hlive, fun h => absurd h hlive⟩
  cases live_cases h hlive with
  | @begun encrypt key v params locks hcall _ _ hret _ hnext =>
      have hbegins : ev.begins = true := by simp [Event.begins, hcall, hret, Buffer.isNull]
      have hencrypts : ev.encrypts = encrypt := by simp [Event.encrypts, hcall]
      rw [hnext, Ledger.note]
      simp only [hbegins, hencrypts, if_true]
      cases encrypt with
      | false =>
          refine ⟨fun _ _ hencrypt => ?_, fun _ hpending => ?_⟩
          · cases key <;> cases hencrypt
          · cases hpending
      | true =>
          refine ⟨fun _ _ _ => ⟨rfl, rfl, rfl⟩, fun _ _ => ⟨rfl, ?_⟩⟩
          cases key <;> rfl
  | idle tagCurrent hlive hbegins htrace _ _ hnext =>
      exact hsame hlive hbegins (by simp [Event.recordsKey, htrace])
        (by simp [Event.handsManifest, htrace]) hnext
  | tagged hlive hcall _ _ _ htrace hnext =>
      exact hsame hlive (by simp [Event.begins, hcall]) (by simp [Event.recordsKey, htrace])
        (by simp [Event.handsManifest, htrace, ExtCall.handsManifest]) hnext
  | fed hlive hcall _ _ hinject _ htrace hnext =>
      have hkey : ev.recordsKey = none := by
        apply recordsKey_of_not_isInit
        rw [htrace]
        exact not_isInit_snoc hinject.frame.2 rfl
      rw [Ledger.note_of_not_begins l (by simp [Event.begins, hcall]) hkey, hnext]
      obtain ⟨⟨records, isReserved, rfl⟩, -⟩ := hinject.of_true
      refine ⟨fun _ hphase => (by cases hphase), fun _ hpending => ?_⟩
      rw [Event.handsManifest, htrace, ht.hand_or hlive hinject] at hpending
      cases hawaits : l.pending with
      | false =>
          rw [Ledger.hand_of_not_pending hawaits, hawaits] at hpending
          cases hpending
      | true =>
          have hhands := hinject.handsManifest_of_true (ht.only hlive hawaits).1
          rw [hhands, Ledger.hand, hawaits] at hpending
          cases hpending

theorem run_matches {lib : Libcrypto} {L : ℤ} {h : List Event} {ctx : Ctx} (hL : 1 ≤ L)
    (hmax : L < intMax) (run : Path (Cipher.Step lib) (Ctx.new L) h ctx) :
    Matches L (ledger h) ctx ∧ Tracks (ledger h) ctx := by
  refine run.invariant (P := fun h ctx => Matches L (ledger h) ctx ∧ Tracks (ledger h) ctx) ?_ ?_
  · refine ⟨⟨rfl, rfl, rfl, ?_, ?_, ?_, ?_, ?_, ?_⟩, ⟨?_, ?_⟩⟩
    all_goals simp [Ctx.new, Ctx.refuses, ledger]
    all_goals omega
  · rintro h ctx ev next - ⟨hm, ht⟩ hstep
    rw [ledger_snoc]
    have hcase := Cipher.step_cases hstep
    exact ⟨hm.step hL hmax ht hcase, ht.step hcase⟩

/-! ### The limit -/

/-- The call asks for the first bytes of a pending encryption record. -/
def Ctx.attempts (ctx : Ctx) (call : Call) : Bool :=
  !ctx.refuses && decide (ctx.phase = .manifestPending) && ctx.encrypt &&
    match call with
    | .update out hasOutl outsize input =>
        ctx.admitsUpdate out hasOutl outsize input && decide (input.size ≠ 0)
    | .final hasOutl => hasOutl
    | _ => false

/-- An attempt gets as far as the injection of the manifest. -/
theorem inject_of_attempts {ctx next : Ctx} {ev : Event} (h : StepCase ctx ev next)
    (hattempts : ctx.attempts ev.call = true) :
    (ctx.refuses = false ∧ ctx.phase = .manifestPending ∧ ctx.encrypt = true) ∧
      ((Inject ctx ev.trace ev.raised false next ∧ ev.ret = false) ∨
        ∃ trace injected last, Inject ctx trace [] true injected ∧ ev.trace = trace ++ [last]) := by
  simp only [Ctx.attempts, Bool.and_eq_true, Bool.not_eq_true', decide_eq_true_eq] at hattempts
  obtain ⟨⟨⟨hlive, hphase⟩, hencrypt⟩, hcalled⟩ := hattempts
  refine ⟨⟨hlive, hphase, hencrypt⟩, ?_⟩
  cases h with
  | init hcall => simp [hcall] at hcalled
  | update hcall hcase =>
      simp only [hcall, Bool.and_eq_true, decide_eq_true_eq] at hcalled
      cases hcase with
      | refused hcause => simp [hcalled.1] at hcause
      | empty _ hinput => exact absurd hinput hcalled.2
      | injectFailed _ _ _ _ hinject hret => exact .inl ⟨hinject, hret⟩
      | failed _ _ _ _ _ hinject _ _ htrace => exact .inr ⟨_, _, _, hinject, htrace⟩
      | done _ _ _ _ _ hinject _ htrace => exact .inr ⟨_, _, _, hinject, htrace⟩
  | final hcall hcase =>
      simp only [hcall] at hcalled
      cases hcase with
      | refused hrefuses => simp [hlive] at hrefuses
      | poisoned _ hcause => simp [hcalled, hencrypt] at hcause
      | injectFailed _ _ _ hinject hret => exact .inl ⟨hinject, hret⟩
      | failed _ _ _ _ hinject _ _ htrace => exact .inr ⟨_, _, _, hinject, htrace⟩
      | done _ _ _ hinject _ htrace => exact .inr ⟨_, _, _, hinject, htrace⟩
  | getCtxParams hcall => simp [hcall] at hcalled
  | setCtxParams hcall => simp [hcall] at hcalled

/-- The limit is reported by the injection only. -/
theorem inject_of_limit {ctx next : Ctx} {ev : Event} (h : StepCase ctx ev next)
    (hlimit : .keyUsageLimitExceeded ∈ ev.raised) :
    ctx.refuses = false ∧ ∃ trace, Inject ctx trace ev.raised false next := by
  cases h with
  | init _ hcase =>
      cases hcase with
      | rejected _ _ hraised => exact absurd hlimit hraised
      | innerFailed _ _ _ hraised => simp [hraised] at hlimit
      | recordFailed _ _ _ _ hraised => simp [hraised] at hlimit
      | installFailed _ _ _ _ _ _ _ hraised => simp [hraised] at hlimit
      | staged _ _ _ _ hraised => simp [hraised] at hlimit
      | begun _ _ _ _ _ _ hraised => simp [hraised] at hlimit
  | update _ hcase =>
      cases hcase with
      | refused _ _ _ hraised => exact absurd hlimit hraised
      | empty _ _ _ _ hraised => simp [hraised] at hlimit
      | injectFailed _ _ _ hlive hinject => exact ⟨hlive, _, hinject⟩
      | failed _ _ _ _ _ _ _ _ _ hraised => exact absurd hlimit hraised
      | done _ _ _ _ _ _ _ _ hraised => simp [hraised] at hlimit
  | final _ hcase =>
      cases hcase with
      | refused _ _ _ hraised => exact absurd hlimit hraised
      | poisoned _ _ _ _ hraised => exact absurd hlimit hraised
      | injectFailed _ hlive _ hinject => exact ⟨hlive, _, hinject⟩
      | failed _ _ _ _ _ _ _ _ hraised => exact absurd hlimit hraised
      | done _ _ _ _ _ _ hraised => simp [hraised] at hlimit
  | getCtxParams _ hcase =>
      cases hcase with
      | quiet _ _ hraised => exact absurd hlimit hraised
      | failed _ _ _ _ _ _ _ hraised => exact absurd hlimit hraised
      | fetched _ _ _ _ _ _ _ _ hraised => simp [hraised] at hlimit
  | setCtxParams _ hcase =>
      cases hcase with
      | quiet _ _ hraised => exact absurd hlimit hraised
      | failed _ _ _ _ _ _ _ hraised => simp [hraised] at hlimit
      | done _ _ _ _ _ _ _ hraised => simp [hraised] at hlimit

theorem Matches.records_of_limit {L : ℤ} {l : Ledger} {ctx next : Ctx} {trace : List ExtCall}
    {raised : List Reason} (hmax : L < intMax) (hm : Matches L l ctx) (ht : Tracks l ctx)
    (hlive : ctx.refuses = false) (h : Inject ctx trace raised false next)
    (hlimit : .keyUsageLimitExceeded ∈ raised) : (l.records : ℤ) = L := by
  have hrecords := hm.records
  cases h with
  | exhausted hphase hencrypt _ hover =>
      have husage := (ht.pending hlive hphase hencrypt).2.2
      have hfull := hm.exhausted.mp (hover.resolve_left (by simp [husage]))
      omega
  | atomicFailed => simp at hlimit
  | overLimit _ _ _ _ hopen hover =>
      obtain ⟨hle, hwrap⟩ := hm.counted.succ hmax hopen
      rw [hwrap, hm.limit] at hover
      omega
  | manifestFailed _ _ _ _ _ hraised => exact absurd hlimit hraised

/-- A record can be reserved only below the limit. -/
theorem Matches.records_of_reserved {L : ℤ} {l : Ledger} {ctx reserved : Ctx}
    {trace : List ExtCall} (hmax : L < intMax) (hm : Matches L l ctx) (ht : Tracks l ctx)
    (hlive : ctx.refuses = false) (hphase : ctx.phase = .manifestPending)
    (hencrypt : ctx.encrypt = true) (h : Reserved ctx trace reserved) : (l.records : ℤ) < L := by
  have hrecords := hm.records
  cases h with
  | decrypt hdecrypt => simp [hencrypt] at hdecrypt
  | again _ hreserved => simp [(ht.pending hlive hphase hencrypt).2.1] at hreserved
  | counted _ _ _ hopen hlimit =>
      obtain ⟨hle, hwrap⟩ := hm.counted.succ hmax hopen
      rw [hwrap, hm.limit] at hlimit
      omega

/-- The attempt after the last record. -/
theorem Matches.refused_of_full {L : ℤ} {l : Ledger} {ctx next : Ctx} {ev : Event}
    (hmax : L < intMax) (hm : Matches L l ctx) (ht : Tracks l ctx) (h : StepCase ctx ev next)
    (hattempts : ctx.attempts ev.call = true) (hfull : (l.records : ℤ) = L) :
    ev.ret = false ∧ (∀ c ∈ ev.trace, c.isInner = false) ∧
      (ev.raised = [.keyUsageLimitExceeded] ∨
        (ev.raised = [.internalError] ∧ ev.trace = [.atomicAdd false])) := by
  obtain ⟨⟨hlive, hphase, hencrypt⟩, hattempt⟩ := inject_of_attempts h hattempts
  have hreserved {trace : List ExtCall} {reserved : Ctx} (h : Reserved ctx trace reserved) :
      False := by
    have hbelow := hm.records_of_reserved hmax ht hlive hphase hencrypt h
    omega
  obtain ⟨hinject, hret⟩ | ⟨trace, injected, last, hinject, -⟩ := hattempt
  · refine ⟨hret, ?_⟩
    generalize ev.trace = trace, ev.raised = raised at hinject
    cases hinject with
    | exhausted => simp
    | atomicFailed => simp [ExtCall.isInner]
    | overLimit => simp [ExtCall.isInner]
    | manifestFailed _ _ _ hr => exact (hreserved hr).elim
  · cases hinject with
    | active hactive =>
        rw [hphase] at hactive
        cases hactive
    | injected _ hr => exact (hreserved hr).elim

/-- An attempt before it. -/
theorem Matches.hands_of_below {L : ℤ} {l : Ledger} {ctx next : Ctx} {ev : Event}
    (hmax : L < intMax) (hm : Matches L l ctx) (ht : Tracks l ctx) (h : StepCase ctx ev next)
    (hattempts : ctx.attempts ev.call = true) (hbelow : (l.records : ℤ) < L) :
    ev.handsManifest = true ∨ ev.trace = [.atomicAdd false] := by
  obtain ⟨⟨hlive, hphase, -⟩, hattempt⟩ := inject_of_attempts h hattempts
  obtain ⟨hinject, -⟩ | ⟨trace, injected, last, hinject, htrace⟩ := hattempt
  · have hlimit (h : .keyUsageLimitExceeded ∈ ev.raised) : False := by
      have hfull := hm.records_of_limit hmax ht hlive hinject h
      omega
    unfold Event.handsManifest
    generalize ev.trace = trace, ev.raised = raised at hinject hlimit
    cases hinject with
    | exhausted => exact (hlimit (by simp)).elim
    | atomicFailed => exact .inr rfl
    | overLimit => exact (hlimit (by simp)).elim
    | manifestFailed => exact .inl (by simp [ExtCall.handsManifest])
  · left
    rw [Event.handsManifest, htrace, List.any_append,
      hinject.handsManifest_of_true hphase, Bool.true_or]

/-- **The write-key usage limit.**  No epoch has more than `L` records; only the attempt after
the `L`-th is refused because of the limit; that attempt fails, without reaching the inner
context, for the limit or because `CRYPTO_atomic_add` failed; any attempt before it hands
over its manifest unless `CRYPTO_atomic_add` failed. -/
theorem usage_limit {lib : Libcrypto} {L : ℤ} {h : List Event} {ctx next : Ctx} {ev : Event}
    (hL : 1 ≤ L) (hmax : L < intMax) (run : Path (Cipher.Step lib) (Ctx.new L) h ctx)
    (hstep : Cipher.Step lib ctx ev next) :
    (ledger (h ++ [ev])).records ≤ L ∧
    (.keyUsageLimitExceeded ∈ ev.raised → (ledger h).records = L) ∧
    (ctx.attempts ev.call = true → (ledger h).records = L →
      ev.ret = false ∧ (∀ c ∈ ev.trace, c.isInner = false) ∧
      (ev.raised = [.keyUsageLimitExceeded] ∨
        (ev.raised = [.internalError] ∧ ev.trace = [.atomicAdd false]))) ∧
    (ctx.attempts ev.call = true → (ledger h).records < L →
      ev.handsManifest = true ∨ ev.trace = [.atomicAdd false]) := by
  obtain ⟨hm, ht⟩ := run_matches hL hmax run
  have hcase := Cipher.step_cases hstep
  refine ⟨?_, fun hlimit => ?_, hm.refused_of_full hmax ht hcase, hm.hands_of_below hmax ht hcase⟩
  · have hrecords := (run_matches hL hmax (run.snoc hstep)).1.records
    omega
  · obtain ⟨hlive, trace, hinject⟩ := inject_of_limit hcase hlimit
    exact hm.records_of_limit hmax ht hlive hinject hlimit

/-- A limit of one record, used up; a second record has begun under the same key. -/
def usedUp : List Event × Ctx :=
  exec (Cipher.move littleEndian) (Ctx.new 1)
    (encryptRecord keyA ivA ++ [(compliant 0, .init true (.null 0) ivB none)])

theorem usage_limit_usedUp :
    let second := Cipher.step littleEndian usedUp.2 (compliant 4) (.update true true 4 payload)
    (ledger (usedUp.1 ++ [second.1])).records ≤ (1 : ℤ) ∧ second.1.ret = false ∧
      ∀ c ∈ second.1.trace, c.isInner = false := by
  intro second
  obtain ⟨hle, -, hrefused, -⟩ := usage_limit (L := 1) (by decide) (by decide)
    (Cipher.path_execute littleEndian (Ctx.new 1) _) (Cipher.step_self littleEndian usedUp.2
      (compliant 4) (.update true true 4 payload))
  obtain ⟨hret, htrace, -⟩ := hrefused (by decide +kernel) (by decide +kernel)
  exact ⟨hle, hret, htrace⟩

/-- If `CRYPTO_atomic_add` fails at the attempt after the last record, the attempt is refused,
but not for the limit. -/
theorem failedAdd_hides_limit :
    ¬ ∀ (lib : Libcrypto) (L : ℤ) (h : List Event) (ctx next : Ctx) (ev : Event),
      1 ≤ L → L < intMax → Path (Cipher.Step lib) (Ctx.new L) h ctx → Cipher.Step lib ctx ev next →
        ctx.attempts ev.call = true → (ledger h).records = L →
          .keyUsageLimitExceeded ∈ ev.raised := by
  intro hall
  have hraised := hall littleEndian 1 usedUp.1 usedUp.2 _ _ (by decide) (by decide)
    (Cipher.path_execute _ _ _) (Cipher.step_self littleEndian usedUp.2
      { compliant 4 with atomicAdd := false } (.update true true 4 payload))
    (by decide +kernel) (by decide +kernel)
  revert hraised
  decide +kernel

end G301.Outer
