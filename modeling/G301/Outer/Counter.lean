import G301.Outer.Execution
import G301.Outer.Records

/-! # The arithmetic of the record counter

`counts_safely_iff`: the 32-bit counter stays within the record limit, plus the one attempt
that finds it used up, exactly for limits below `INT_MAX`.  The code admits `INT_MAX` as well;
there the counter wraps (`wraps_at_intMax`).

The counter changes in three ways (`counter_cases`): it stays, a new write key resets it, or
an attempt to reserve a record adds one; the attempt that exceeds the limit sets the latch
that stops all later ones. -/

namespace G301.Outer

open ByteString Param Lts

/-! ### The admitted limits -/

/-- `g301_test_cipher_set_record_limit`. -/
def setRecordLimit (limit : ℕ) (ctx : Ctx) : Bool × Ctx :=
  if limit = 0 ∨ intMax < limit then (false, ctx) else (true, { ctx with recordLimit := limit })

/-- A context whose limit is `L` before its first record: compiled in, as the static assertion
allows, or set by the test hook. -/
inductive Fixed (lib : Libcrypto) : ℤ → Ctx → Prop
  | compiled (L : ℤ) (h0 : 0 ≤ L) (h : L ≤ intMax) : Fixed lib L (Ctx.new L)
  | hook {L : ℤ} {start ctx next : Ctx} {h : List Event} {limit : ℕ} (hfixed : Fixed lib L start)
      (run : Path (Cipher.Step lib) start h ctx)
      (hnone : ∀ ev ∈ h, ExtCall.atomicAdd true ∉ ev.trace)
      (hset : setRecordLimit limit ctx = (true, next)) : Fixed lib limit next

/-- The counter stays between zero and one more than the limit, and that fits an `int`. -/
def InRange (lib : Libcrypto) (L : ℤ) : Prop :=
  ∀ start h ctx, Fixed lib L start → Path (Cipher.Step lib) start h ctx →
    0 ≤ ctx.encryptedRecords ∧ ctx.encryptedRecords ≤ ctx.recordLimit + 1 ∧
      ctx.recordLimit + 1 ≤ intMax

/-- Every increment of the counter is exact, so that the limit is compared with the number of
attempts. -/
def NeverWraps (lib : Libcrypto) (L : ℤ) : Prop :=
  ∀ start h ctx ev next, Fixed lib L start → Path (Cipher.Step lib) start h ctx →
    Cipher.Step lib ctx ev next → ExtCall.atomicAdd true ∈ ev.trace →
      next.encryptedRecords = ctx.encryptedRecords + 1

/-! ### What a step does to the counter -/

/-- An init does not touch the counter of `CRYPTO_atomic_add`. -/
theorem init_adds (lib : Libcrypto) (ans : Answers) (encrypt : Bool) (key iv : Buffer)
    (params : Option (List Param)) (ctx : Ctx) (ok : Bool) :
    ExtCall.atomicAdd ok ∉ (init lib ans encrypt key iv params ctx).2.trace := by
  obtain ⟨next, reason, heq, -⟩ | ⟨-, prepared, -, heq⟩ :=
    init_cases lib ans encrypt key iv params ctx
  · rw [heq]
    simp
  rw [heq]
  obtain ⟨answer, locks, htrace, hlocks⟩ := initInner_trace ans encrypt key iv params
    (tagOf params).isSome (Exec.start prepared)
  rw [htrace]
  intro hmem
  obtain hmem | hmem := List.mem_cons.mp hmem
  · cases hmem
  · obtain ⟨ok, hlock⟩ := hlocks _ hmem
    cases hlock

/-- Everything a call can do to the counter and its latch. -/
inductive CounterCase (ctx : Ctx) (ev : Event) (next : Ctx) : Prop
  | kept (hnone : ExtCall.atomicAdd true ∉ ev.trace)
      (hrecords : next.encryptedRecords = ctx.encryptedRecords)
      (hexhausted : next.usageExhausted = ctx.usageExhausted)
  | reset (hnone : ExtCall.atomicAdd true ∉ ev.trace) (hrecords : next.encryptedRecords = 0)
      (hexhausted : next.usageExhausted = false)
  | added (hopen : ctx.usageExhausted = false) (hadd : ExtCall.atomicAdd true ∈ ev.trace)
      (hrecords : next.encryptedRecords = wrapInt (ctx.encryptedRecords + 1))
      (hexhausted : next.usageExhausted =
        decide (ctx.recordLimit < wrapInt (ctx.encryptedRecords + 1)))

theorem CounterCase.congr {ctx next next' : Ctx} {ev : Event} (h : CounterCase ctx ev next)
    (hrecords : next'.encryptedRecords = next.encryptedRecords)
    (hexhausted : next'.usageExhausted = next.usageExhausted) : CounterCase ctx ev next' := by
  cases h with
  | kept hnone hr he => exact .kept hnone (hrecords.trans hr) (hexhausted.trans he)
  | reset hnone hr he => exact .reset hnone (hrecords.trans hr) (hexhausted.trans he)
  | added hopen hadd hr he => exact .added hopen hadd (hrecords.trans hr) (hexhausted.trans he)

/-- The counter after the injection of a manifest. -/
theorem Inject.counter {ctx next : Ctx} {trace rest : List ExtCall} {raised : List Reason}
    {ok : Bool} (h : Inject ctx trace raised ok next) {ev : Event}
    (htrace : ev.trace = trace ++ rest) (hrest : ExtCall.atomicAdd true ∉ rest) :
    CounterCase ctx ev next := by
  have hreserved {trace rest : List ExtCall} {reserved after : Ctx}
      (hr : Reserved ctx trace reserved) (htrace : ev.trace = trace ++ rest)
      (hrest : ExtCall.atomicAdd true ∉ rest)
      (hrecords : after.encryptedRecords = reserved.encryptedRecords)
      (hexhausted : after.usageExhausted = reserved.usageExhausted) :
      CounterCase ctx ev after := by
    cases hr with
    | decrypt => exact .kept (by simpa [htrace] using hrest) hrecords hexhausted
    | again => exact .kept (by simpa [htrace] using hrest) hrecords hexhausted
    | counted _ _ _ hopen hlimit =>
        refine .added hopen (by simp [htrace]) hrecords ?_
        rw [hexhausted, hopen, decide_eq_false (not_lt.mpr hlimit)]
  cases h with
  | active => exact .kept (by simpa [htrace] using hrest) rfl rfl
  | exhausted => exact .kept (by simpa [htrace] using hrest) rfl rfl
  | atomicFailed => exact .kept (by simpa [htrace] using hrest) rfl rfl
  | overLimit _ _ _ _ hopen hlimit =>
      exact .added hopen (by simp [htrace]) rfl (decide_eq_true hlimit).symm
  | manifestFailed reply _ _ hr =>
      rw [List.append_assoc] at htrace
      exact hreserved hr htrace (by simpa using hrest) rfl rfl
  | injected _ hr =>
      rw [List.append_assoc] at htrace
      exact hreserved hr htrace (by simpa using hrest) rfl rfl

theorem Ctx.dropKey_counter (ctx : Ctx) (key : Buffer) :
    (ctx.dropKey key).recordLimit = ctx.recordLimit ∧
      (ctx.dropKey key).encryptedRecords = ctx.encryptedRecords ∧
      (ctx.dropKey key).usageExhausted = ctx.usageExhausted := by
  cases key <;> exact ⟨rfl, rfl, rfl⟩

theorem Ctx.takeKey_counter (ctx : Ctx) (encrypt : Bool) (key : Buffer) :
    (ctx.takeKey encrypt key).recordLimit = ctx.recordLimit ∧
      (ctx.takeKey encrypt key).encryptedRecords = ctx.encryptedRecords ∧
      (ctx.takeKey encrypt key).usageExhausted = ctx.usageExhausted := by
  cases key <;> exact ⟨rfl, rfl, rfl⟩

/-- An init keeps limit and counter, or installs a write key and starts a new count. -/
theorem InitCase.counter {ctx next : Ctx} {encrypt : Bool} {key iv : Buffer}
    {params : Option (List Param)} {ev : Event}
    (h : InitCase ctx encrypt key iv params ev next) :
    next.recordLimit = ctx.recordLimit ∧
      ((next.encryptedRecords = ctx.encryptedRecords ∧
          next.usageExhausted = ctx.usageExhausted) ∨
        (next.encryptedRecords = 0 ∧ next.usageExhausted = false)) := by
  obtain ⟨hdropLimit, hdrop⟩ := ctx.dropKey_counter key
  obtain ⟨htakeLimit, htake⟩ := ctx.takeKey_counter encrypt key
  cases h with
  | rejected _ _ _ hrejects =>
      obtain ⟨rfl | rfl | rfl, -⟩ := hrejects <;> exact ⟨rfl, .inl ⟨rfl, rfl⟩⟩
  | innerFailed _ _ _ _ hnext =>
      subst hnext
      exact ⟨hdropLimit, .inl hdrop⟩
  | recordFailed _ _ _ _ _ hnext =>
      subst hnext
      exact ⟨hdropLimit, .inl hdrop⟩
  | installFailed _ _ _ _ _ _ _ _ hnext =>
      subst hnext
      exact ⟨htakeLimit, .inl htake⟩
  | staged _ _ _ _ _ hnext =>
      subst hnext
      exact ⟨htakeLimit, .inl htake⟩
  | begun _ _ _ _ _ _ _ hnext =>
      subst hnext
      cases hencrypt : encrypt with
      | false =>
          subst hencrypt
          exact ⟨htakeLimit, .inl htake⟩
      | true =>
          subst hencrypt
          refine ⟨htakeLimit, ?_⟩
          cases hkeeps : (ctx.takeKey true key).keepsWriteKey with
          | true =>
              left
              simpa [Ctx.installKey, Ctx.beginRecord, hkeeps] using htake
          | false =>
              right
              simp [Ctx.installKey, Ctx.beginRecord, hkeeps]

theorem counter_cases {lib : Libcrypto} {ctx next : Ctx} {ev : Event}
    (h : Cipher.Step lib ctx ev next) :
    next.recordLimit = ctx.recordLimit ∧ CounterCase ctx ev next := by
  have hquiet (htrace : ev.trace = []) : ExtCall.atomicAdd true ∉ ev.trace := by
    simp [htrace]
  obtain ⟨encrypt, key, iv, params, hcall, hinit⟩ | ⟨hnotInit, hkeys, -⟩ :=
    (Cipher.step_cases h).frame
  · obtain ⟨hlimit, hcounter⟩ := hinit.counter
    have hnone : ExtCall.atomicAdd true ∉ ev.trace := by
      obtain ⟨ans, hstep⟩ := h
      rw [hcall] at hstep
      have htrace : (init lib ans encrypt key iv params ctx).2.trace = ev.trace :=
        congrArg (fun r => r.1.trace) hstep
      rw [← htrace]
      exact init_adds lib ans encrypt key iv params ctx true
    obtain ⟨hrecords, hexhausted⟩ | ⟨hrecords, hexhausted⟩ := hcounter
    · exact ⟨hlimit, .kept hnone hrecords hexhausted⟩
    · exact ⟨hlimit, .reset hnone hrecords hexhausted⟩
  refine ⟨congrArg Keys.recordLimit hkeys, ?_⟩
  cases Cipher.step_cases h with
  | init hcall => exact absurd hcall (hnotInit _ _ _ _)
  | update _ hcase =>
      cases hcase with
      | refused _ _ htrace _ hnext => exact .kept (hquiet htrace) (by rw [hnext]) (by rw [hnext])
      | empty _ _ _ htrace _ hnext => exact .kept (hquiet htrace) (by rw [hnext]) (by rw [hnext])
      | injectFailed _ _ _ _ hinject =>
          exact hinject.counter (List.append_nil _).symm (by simp)
      | failed _ _ _ _ _ hinject _ _ htrace _ hnext =>
          exact hnext ▸ (hinject.counter htrace (by simp)).congr rfl rfl
      | done _ _ _ _ _ hinject _ htrace _ hnext =>
          exact hnext ▸ (hinject.counter htrace (by simp)).congr rfl rfl
  | final _ hcase =>
      cases hcase with
      | refused _ _ htrace _ hnext => exact .kept (hquiet htrace) (by rw [hnext]) (by rw [hnext])
      | poisoned _ _ _ htrace _ hnext =>
          exact .kept (hquiet htrace) (by rw [hnext]; rfl) (by rw [hnext]; rfl)
      | injectFailed _ _ _ hinject => exact hinject.counter (List.append_nil _).symm (by simp)
      | failed _ _ _ _ hinject _ _ htrace _ hnext =>
          exact hnext ▸ (hinject.counter htrace (by simp)).congr rfl rfl
      | done _ _ _ hinject _ htrace _ hnext =>
          exact hnext ▸ (hinject.counter htrace (by simp)).congr rfl rfl
  | getCtxParams _ hcase =>
      cases hcase with
      | quiet _ htrace _ hnext => exact .kept (hquiet htrace) (by rw [hnext]) (by rw [hnext])
      | failed _ _ _ _ _ _ htrace _ hnext =>
          exact .kept (by simp [htrace]) (by rw [hnext]; rfl) (by rw [hnext]; rfl)
      | fetched _ _ _ _ _ _ _ htrace _ hnext =>
          exact .kept (by simp [htrace]) (by rw [hnext]) (by rw [hnext])
  | setCtxParams _ hcase =>
      cases hcase with
      | quiet _ htrace _ hnext =>
          exact .kept (hquiet htrace) (by rw [hnext]; split <;> rfl)
            (by rw [hnext]; split <;> rfl)
      | failed _ _ _ _ _ _ htrace _ hnext =>
          exact .kept (by simp [htrace]) (by rw [hnext]; rfl) (by rw [hnext]; rfl)
      | done _ _ _ _ _ _ htrace _ hnext =>
          exact .kept (by simp [htrace]) (by rw [hnext]) (by rw [hnext])

/-! ### Limits below `INT_MAX` -/

/-- The counter of a context with limit `L`; the attempt that exceeds the limit is the last. -/
structure Counted (L : ℤ) (ctx : Ctx) : Prop where
  limit : ctx.recordLimit = L
  nonneg : 0 ≤ ctx.encryptedRecords
  le : ctx.encryptedRecords ≤ L + 1
  exhausted : ctx.encryptedRecords = L + 1 → ctx.usageExhausted = true

namespace Counted

variable {L : ℤ} {ctx next : Ctx} {ev : Event}

/-- As long as the key is not exhausted, one more record does not wrap the counter. -/
theorem succ (hc : Counted L ctx) (hmax : L < intMax) (hopen : ctx.usageExhausted = false) :
    ctx.encryptedRecords ≤ L ∧ wrapInt (ctx.encryptedRecords + 1) = ctx.encryptedRecords + 1 := by
  have hle := hc.le
  have hnonneg := hc.nonneg
  have hne : ctx.encryptedRecords ≠ L + 1 := by
    intro heq
    rw [hc.exhausted heq] at hopen
    cases hopen
  refine ⟨by omega, wrapInt_of_le ?_ ?_⟩ <;> omega

theorem step (hc : Counted L ctx) (h0 : 0 ≤ L) (hmax : L < intMax)
    (hlimit : next.recordLimit = ctx.recordLimit) (h : CounterCase ctx ev next) :
    Counted L next := by
  have hL := hlimit.trans hc.limit
  cases h with
  | kept _ hrecords hexhausted =>
      refine ⟨hL, ?_, ?_, ?_⟩
      · rw [hrecords]
        exact hc.nonneg
      · rw [hrecords]
        exact hc.le
      · rw [hrecords, hexhausted]
        exact hc.exhausted
  | reset _ hrecords _ =>
      refine ⟨hL, ?_, ?_, ?_⟩ <;> rw [hrecords] <;> omega
  | added hopen _ hrecords hexhausted =>
      obtain ⟨hle, hexact⟩ := hc.succ hmax hopen
      have hnonneg := hc.nonneg
      rw [hexact] at hrecords hexhausted
      refine ⟨hL, by omega, by omega, fun hfull => ?_⟩
      rw [hexhausted, decide_eq_true_iff, hc.limit]
      omega

end Counted

/-- Before the first record the counter is zero. -/
theorem Fixed.counted {lib : Libcrypto} {L : ℤ} {ctx : Ctx} (h : Fixed lib L ctx) :
    0 ≤ L ∧ ctx.recordLimit = L ∧ ctx.encryptedRecords = 0 := by
  induction h with
  | compiled L h0 _ => exact ⟨h0, rfl, rfl⟩
  | @hook L start ctx next h limit _ run hnone hset ih =>
      have hzero : ctx.encryptedRecords = 0 := by
        refine run.kept (p := fun ev : Event => ExtCall.atomicAdd true ∈ ev.trace)
          (Q := fun ctx => ctx.encryptedRecords = 0) ?_ hnone ih.2.2
        intro ctx ev next hctx hev hstep
        cases (counter_cases hstep).2 with
        | kept _ hrecords _ => rw [hrecords, hctx]
        | reset _ hrecords _ => exact hrecords
        | added _ hadd _ _ => exact absurd hadd hev
      unfold setRecordLimit at hset
      split at hset
      · simp at hset
      · obtain rfl := (Prod.mk.inj hset).2
        exact ⟨by omega, rfl, hzero⟩

theorem Fixed.run_counted {lib : Libcrypto} {L : ℤ} {start ctx : Ctx} {h : List Event}
    (hmax : L < intMax) (hfixed : Fixed lib L start) (run : Path (Cipher.Step lib) start h ctx) :
    Counted L ctx := by
  obtain ⟨h0, hlimit, hzero⟩ := hfixed.counted
  refine run.invariant (P := fun _ ctx => Counted L ctx) ?_ ?_
  · refine ⟨hlimit, ?_, ?_, ?_⟩ <;> omega
  · intro h ctx ev next _ hc hstep
    obtain ⟨hkept, hcase⟩ := counter_cases hstep
    exact hc.step h0 hmax hkept hcase

/-! ### The limit `INT_MAX` -/

/-- A pending encryption record whose attempt to count passes the limit. -/
structure Ctx.Countable (ctx : Ctx) : Prop where
  phase : ctx.phase = .manifestPending
  encrypt : ctx.encrypt = true
  live : ctx.needsReinit = false
  fresh : ctx.recordReserved = false
  valid : ctx.usageKeyValid = true
  opened : ctx.usageExhausted = false
  below : wrapInt (ctx.encryptedRecords + 1) ≤ ctx.recordLimit

/-- The record is counted and active. -/
def Ctx.count (ctx : Ctx) : Ctx :=
  { ctx with
    phase := .active, encryptedRecords := wrapInt (ctx.encryptedRecords + 1),
    recordReserved := true }

theorem reserveEncryptionRecord_countable {ctx : Ctx} (h : ctx.Countable) (n : ℕ) :
    reserveEncryptionRecord (compliant n) (Exec.start ctx) =
      (true, ⟨{ ctx with
        encryptedRecords := wrapInt (ctx.encryptedRecords + 1), recordReserved := true },
        [.atomicAdd true], []⟩) := by
  simp [reserveEncryptionRecord, h.fresh, h.valid, h.opened, h.below, Exec.request, Exec.modify,
    compliant]

theorem injectManifest_countable {ctx : Ctx} (h : ctx.Countable) (n : ℕ) :
    injectManifest (compliant n) (Exec.start ctx) =
      (true, ⟨ctx.count, [.atomicAdd true, manifestCall], []⟩) := by
  rw [injectManifest, if_neg (not_not.mpr h.phase), h.encrypt, if_pos rfl,
    reserveEncryptionRecord_countable h]
  rfl

theorem update_countable {ctx : Ctx} (h : ctx.Countable) (hpayload : ctx.payloadStarted = false)
    (data : Bytes) (hdata : data ≠ []) (hsize : data.length ≤ intMax) :
    update (compliant data.length) false true 0 (.bytes data) ctx =
      (true, some data.length,
        ⟨ctx.count, [.atomicAdd true, manifestCall, dataCall false data], []⟩) := by
  have hlive : ctx.refuses = false := Ctx.refuses_eq_false_iff.mpr ⟨h.live, .inl h.phase⟩
  have hfits : ¬ intMax < ((Buffer.bytes data).size : ℤ) := not_lt.mpr hsize
  have hsome : (Buffer.bytes data).size ≠ 0 := by simpa [Buffer.size] using hdata
  simp only [update, hlive, hpayload, hfits, hsome, injectManifest_countable h]
  simp [compliant, Exec.request, dataCall, Buffer.isNull, Buffer.size, Buffer.data?]

theorem step_countable (lib : Libcrypto) {ctx : Ctx} (h : ctx.Countable)
    (hpayload : ctx.payloadStarted = false) (data : Bytes) (hdata : data ≠ [])
    (hsize : data.length ≤ intMax) :
    Cipher.Step lib ctx ⟨.update false true 0 (.bytes data), true, some data.length, none, [],
      [.atomicAdd true, manifestCall, dataCall false data]⟩ ctx.count :=
  ⟨compliant data.length, by
    simp only [Cipher.step, update_countable h hpayload data hdata hsize]⟩

/-- A record under `keyA` has begun after `n` others. -/
def afterRecords (n : ℤ) : Ctx :=
  { ((Ctx.new intMax).takeKey true keyA).installKey.beginRecord false with encryptedRecords := n }

/-- One more record, and the next one begins under the same key. -/
theorem afterRecords_path (lib : Libcrypto) {n : ℤ} (h : wrapInt (n + 1) ≤ intMax) :
    ∃ ev ev', ExtCall.atomicAdd true ∈ ev.trace ∧
      Cipher.Step lib (afterRecords n) ev (afterRecords n).count ∧
      Cipher.Step lib (afterRecords n).count ev' (afterRecords (wrapInt (n + 1))) := by
  have hcountable : (afterRecords n).Countable := ⟨rfl, rfl, rfl, rfl, rfl, rfl, h⟩
  exact ⟨_, _, List.mem_cons_self,
    step_countable lib hcountable rfl [0x17, 0x03, 0x03, 0x00, 0x20] (by decide) (by decide),
    Cipher.step_self lib _ (compliant 0) (.init true (.null 0) ivB none)⟩

theorem afterRecords_reached (lib : Libcrypto) (n : ℕ) (hn : (n : ℤ) ≤ intMax) :
    ∃ h, Path (Cipher.Step lib) (Ctx.new intMax) h (afterRecords n) := by
  induction n with
  | zero =>
      exact ⟨_, .single (Cipher.step_self lib (Ctx.new intMax) (compliant 0)
        (.init true keyA ivA none))⟩
  | succ n ih =>
      obtain ⟨h, run⟩ := ih (by omega)
      have hexact : wrapInt (n + 1) = ((n + 1 : ℕ) : ℤ) := by
        rw [wrapInt_of_le] <;> push_cast at * <;> omega
      obtain ⟨ev, ev', -, hupdate, hinit⟩ := afterRecords_path lib (by rwa [hexact])
      rw [hexact] at hinit
      exact ⟨_, (run.snoc hupdate).snoc hinit⟩

/-- With the limit `INT_MAX` the next record after `INT_MAX` others wraps the counter, and the
test against the limit lets it pass. -/
theorem wrapped_reached (lib : Libcrypto) :
    ∃ h ctx ev next, Path (Cipher.Step lib) (Ctx.new intMax) h ctx ∧
      Cipher.Step lib ctx ev next ∧ ExtCall.atomicAdd true ∈ ev.trace ∧
      ctx.encryptedRecords = intMax ∧ next.encryptedRecords = -2 ^ 31 ∧
      next.phase = .active := by
  obtain ⟨h, run⟩ := afterRecords_reached lib (2 ^ 31 - 1) (by decide)
  have hwraps : wrapInt (((2 ^ 31 - 1 : ℕ) : ℤ) + 1) = -2 ^ 31 := by decide
  obtain ⟨ev, _, hadd, hstep, -⟩ := @afterRecords_path lib ((2 ^ 31 - 1 : ℕ) : ℤ) (by decide)
  exact ⟨h, _, ev, _, run, hstep, hadd, rfl, hwraps, rfl⟩

theorem not_neverWraps (lib : Libcrypto) : ¬ NeverWraps lib intMax := by
  intro hexact
  obtain ⟨h, ctx, ev, next, run, hstep, hadd, hfull, hwrapped, -⟩ := wrapped_reached lib
  have hsucc := hexact _ h ctx ev next (.compiled intMax (by decide) le_rfl) run hstep hadd
  rw [hfull, hwrapped] at hsucc
  exact absurd hsucc (by decide)

/-! ### Every admitted limit -/

/-- For the limits that the code admits, zero to `INT_MAX`: the counter stays in its range, and
no increment wraps, exactly if the limit is below `INT_MAX`. -/
theorem counts_safely_iff {lib : Libcrypto} {L : ℤ} (h0 : 0 ≤ L) (hL : L ≤ intMax) :
    (InRange lib L ↔ L < intMax) ∧ (NeverWraps lib L ↔ L < intMax) := by
  constructor
  · constructor
    · intro hrange
      have hfits := (hrange _ _ _ (.compiled L h0 hL) .nil).2.2
      exact Int.lt_of_add_one_le hfits
    · intro hmax start h ctx hfixed run
      have hc := hfixed.run_counted hmax run
      rw [hc.limit]
      exact ⟨hc.nonneg, hc.le, hmax⟩
  · constructor
    · intro hexact
      by_contra hmax
      obtain rfl : L = intMax := le_antisymm hL (not_lt.mp hmax)
      exact not_neverWraps lib hexact
    · intro hmax start h ctx ev next hfixed run hstep hadd
      have hc := hfixed.run_counted hmax run
      cases (counter_cases hstep).2 with
      | kept hnone _ _ => exact absurd hadd hnone
      | reset hnone _ _ => exact absurd hadd hnone
      | added hopen _ hrecords _ => rw [hrecords, (hc.succ hmax hopen).2]

theorem counts_safely_iff_compiled :
    InRange littleEndian encryptRecordLimit ∧ NeverWraps littleEndian encryptRecordLimit := by
  obtain ⟨hrange, hexact⟩ :=
    @counts_safely_iff littleEndian encryptRecordLimit (by decide) (by decide)
  exact ⟨hrange.mpr (by decide), hexact.mpr (by decide)⟩

/-- The static assertion and the test hook admit `INT_MAX` all the same. -/
theorem wraps_at_intMax :
    Fixed littleEndian intMax (Ctx.new intMax) ∧
      setRecordLimit (2 ^ 31 - 1) (Ctx.new encryptRecordLimit) = (true, Ctx.new intMax) ∧
      ¬ InRange littleEndian intMax ∧ ¬ NeverWraps littleEndian intMax := by
  have hfixed : Fixed littleEndian intMax (Ctx.new intMax) :=
    .compiled intMax (by decide) le_rfl
  refine ⟨hfixed, by decide, fun hrange => ?_, not_neverWraps littleEndian⟩
  exact absurd (hrange _ _ _ hfixed .nil).2.2 (by decide)

end G301.Outer
