import G301.Outer.Contract
import G301.Outer.Poison

/-! # Freshness of the decryption tag

`decrypt_final`: a final of a decryption record reaches the inner context only when a tag was
accepted for this record and no call has carried another since; the inner context then holds
that tag.  A final without such a tag fails and ends the record.

`FreshTag` says which tag is current from the history alone, `heldTag` which one the inner
context holds, given that it stores a tag when an init or a setting of parameters with one
succeeds.  `TagInv` ties both to the flag `decryptTagCurrent`. -/

namespace G301.Outer

open ByteString Param Lts

/-- The tag a request brings, with the answer. -/
def ExtCall.tag? : ExtCall → Option (Bytes × Bool)
  | init _ _ _ params ok => (tagBytes params).map (·, ok)
  | setParams params ok => (tagBytes params).map (·, ok)
  | _ => none

/-- The tag that the inner context holds; one it did not accept leaves nothing. -/
def holdTag (held : Option Bytes) (c : ExtCall) : Option Bytes :=
  match c.tag? with
  | none => held
  | some (tag, ok) => if ok then some tag else none

/-- The tag that the inner context holds after a history. -/
def heldTag (h : List Event) : Option Bytes := (h.flatMap Event.trace).foldl holdTag none

theorem heldTag_snoc (h : List Event) (ev : Event) :
    heldTag (h ++ [ev]) = ev.trace.foldl holdTag (heldTag h) := by
  simp [heldTag]

theorem foldl_holdTag (held : Option Bytes) {trace : List ExtCall}
    (h : ∀ c ∈ trace, c.tag? = none) : trace.foldl holdTag held = held := by
  induction trace generalizing held with
  | nil => rfl
  | cons c trace ih =>
      have hc : holdTag held c = held := by
        simp [holdTag, h c (by simp)]
      rw [List.foldl_cons, hc, ih held fun x hx => h x (List.mem_cons_of_mem _ hx)]

/-- The call succeeds and the inner context accepts its tag. -/
def Event.Accepts (ev : Event) (tag : Bytes) : Prop :=
  ev.ret = true ∧ ∃ c ∈ ev.trace, c.tag? = some (tag, true)

/-- `tag` was accepted by the init that began the current decryption record, or by a setting of
parameters after it, and no call has carried a tag since. -/
structure FreshTag (h : List Event) (tag : Bytes) : Prop where
  length : tag.length = tagLength
  accepted : ∃ pre first mid, InRecord h pre first mid ∧ first.encrypts = false ∧
    ∃ before ev since, first :: mid = before ++ ev :: since ∧ ev.Accepts tag ∧
      (ev = first ∨ ∃ params, ev.call = .setCtxParams params) ∧
      ∀ x ∈ since, x.carriesTag = false

theorem FreshTag.snoc {h : List Event} {tag : Bytes} (hfresh : FreshTag h tag) {ev : Event}
    (hbegins : ev.begins = false) (hcarries : ev.carriesTag = false) :
    FreshTag (h ++ [ev]) tag := by
  obtain ⟨pre, first, mid, hr, hfirst, before, x, since, hcut, haccepts, hx, hsince⟩ :=
    hfresh.accepted
  refine ⟨hfresh.length, pre, first, mid ++ [ev], hr.snoc hbegins, hfirst, before, x,
    since ++ [ev], ?_, haccepts, hx, fun y hy => ?_⟩
  · rw [← List.cons_append, hcut]
    simp
  · obtain hy | hy := List.mem_append.mp hy
    · exact hsince y hy
    · rw [List.mem_singleton.mp hy]
      exact hcarries

/-- A current tag is fresh, and is the one the inner context holds. -/
def TagInv (h : List Event) (ctx : Ctx) : Prop :=
  ctx.refuses = false → ctx.decryptTagCurrent = true →
    ctx.encrypt = false ∧ ∃ tag, FreshTag h tag ∧ heldTag h = some tag

theorem tag?_of_not_isInner {c : ExtCall} (h : c.isInner = false) : c.tag? = none := by
  cases c <;> first | rfl | cases h

theorem Inject.tag?_eq_none {ctx next : Ctx} {trace : List ExtCall} {raised : List Reason}
    (h : Inject ctx trace raised true next) : ∀ c ∈ trace, c.tag? = none := by
  obtain ⟨-, ⟨-, rfl⟩ | ⟨-, adds, hadds, rfl⟩⟩ := h.of_true
  · simp
  · intro c hc
    obtain hc | hc := List.mem_append.mp hc
    · exact tag?_of_not_isInner (hadds c hc)
    · rw [List.mem_singleton.mp hc]
      rfl

/-- An init that brings the tag of a decryption record with it. -/
theorem tagInv_begun {h : List Event} {ctx next : Ctx} {ev : Event} {encrypt : Bool} {key : Buffer}
    {v : Bytes} {params : Option (List Param)} {locks : List ExtCall}
    (hcall : ev.call = .init encrypt key (.bytes v) params)
    (hadmits : ctx.Admits encrypt key (.bytes v) params)
    (hlocks : ∀ c ∈ locks, c.isInner = false) (hret : ev.ret = true)
    (htrace : ev.trace =
      initRequest encrypt key (.bytes v) params true :: (recordTrace key true ++ locks))
    (hnext : next = (if encrypt then (ctx.takeKey encrypt key).installKey
      else ctx.takeKey encrypt key).beginRecord (!encrypt && (tagOf params).isSome)) :
    TagInv (h ++ [ev]) next := by
  intro _ hcurrent
  obtain ⟨rfl, htag⟩ : encrypt = false ∧ (tagOf params).isSome = true := by
    simpa [hnext, Ctx.beginRecord] using hcurrent
  obtain ⟨tag, htag⟩ := Option.isSome_iff_exists.mp htag
  obtain ⟨data, -, hlength, hbytes⟩ := tagBytes_of_isTag (ivOf params) (hadmits.tag tag htag).2.2
  have hfirst : (initRequest false key (.bytes v) params true).tag? = some (data, true) := by
    simp [initRequest, ExtCall.tag?, htag, hbytes]
  have hlocks' : ∀ c ∈ recordTrace key true ++ locks, c.tag? = none := fun c hc =>
    tag?_of_not_isInner (locks_not_isInner key true hlocks c hc)
  refine ⟨by rw [hnext]; cases key <;> rfl, data, ⟨hlength, h, ev, [], ?_, ?_, ?_⟩, ?_⟩
  · exact .start (by simp [Event.begins, hcall, hret, Buffer.isNull])
  · simp [Event.encrypts, hcall]
  · exact ⟨[], ev, [], rfl, ⟨hret, _, by simp [htrace], hfirst⟩, .inl rfl, by simp⟩
  · rw [heldTag_snoc, htrace, List.foldl_cons, foldl_holdTag _ hlocks', holdTag, hfirst]
    rfl

theorem run_tagInv {lib : Libcrypto} {L : ℤ} {h : List Event} {ctx : Ctx}
    (run : Path (Cipher.Step lib) (Ctx.new L) h ctx) : TagInv h ctx := by
  refine run.invariant (P := TagInv) (by simp [TagInv, Ctx.new]) ?_
  intro h ctx ev next hrun ih hstep hlive hcurrent
  cases live_cases (Cipher.step_cases hstep) hlive with
  | begun locks hcall hadmits hlocks hret htrace hnext =>
      exact tagInv_begun hcall hadmits hlocks hret htrace hnext hlive hcurrent
  | idle tagCurrent hlive hbegins htrace _ htag hnext =>
      rw [hnext] at hcurrent
      obtain ⟨hcurrent, hcarries⟩ := htag hcurrent
      obtain ⟨hencrypt, tag, hfresh, hheld⟩ := ih hlive hcurrent
      refine ⟨by rw [hnext]; exact hencrypt, tag, hfresh.snoc hbegins hcarries, ?_⟩
      rw [heldTag_snoc, htrace]
      exact hheld
  | @tagged params tag hlive hcall hencrypt hok hret htrace hnext =>
      obtain ⟨pre, first, mid, hfed⟩ := run_fed hrun hlive
      obtain ⟨data, -, hlength, hbytes⟩ := tagBytes_of_isTag (ivOf params) hok
      have hset : (ExtCall.setParams (filtered (ivOf params) (some tag)) true).tag? =
          some (data, true) := by
        simp [ExtCall.tag?, hbytes]
      refine ⟨by rw [hnext]; exact hencrypt, data,
        ⟨hlength, pre, first, mid ++ [ev], ?_, ?_, ?_⟩, ?_⟩
      · exact hfed.record.snoc (by simp [Event.begins, hcall])
      · rw [hfed.encrypts, hencrypt]
      · exact ⟨first :: mid, ev, [], rfl, ⟨hret, _, by simp [htrace], hset⟩,
          .inr ⟨params, hcall⟩, by simp⟩
      · rw [heldTag_snoc, htrace, List.foldl_cons, holdTag, hset]
        rfl
  | fed hlive hcall hdata hpayload hinject hret htrace hnext =>
      obtain ⟨⟨records, isReserved, rfl⟩, -⟩ := hinject.of_true
      rw [hnext] at hcurrent
      obtain ⟨hencrypt, tag, hfresh, hheld⟩ := ih hlive hcurrent
      refine ⟨by rw [hnext]; exact hencrypt, tag,
        hfresh.snoc (by simp [Event.begins, hcall]) (by simp [Event.carriesTag, hcall]), ?_⟩
      rw [heldTag_snoc, htrace, List.foldl_append, foldl_holdTag _ hinject.tag?_eq_none]
      exact hheld

/-- **Tag freshness.**  Of a decryption record: a final that reaches the inner context finds a
fresh tag there.  Without a fresh tag a final of a pending or active record fails without
asking the inner context, and no final succeeds or reaches it until another record begins. -/
theorem decrypt_final {lib : Libcrypto} {L : ℤ} {h : List Event} {ctx next : Ctx} {f : Event}
    {hasOutl : Bool} (run : Path (Cipher.Step lib) (Ctx.new L) h ctx)
    (hstep : Cipher.Step lib ctx f next) (hcall : f.call = .final hasOutl)
    (hdecrypt : ctx.encrypt = false) :
    ((∃ reply, .final reply ∈ f.trace) → ∃ tag, FreshTag h tag ∧ heldTag h = some tag) ∧
    (ctx.phase = .manifestPending ∨ ctx.phase = .active → (¬ ∃ tag, FreshTag h tag) →
      f.ret = false ∧ f.trace = [] ∧
      ∀ later after, Path (Cipher.Step lib) next later after →
        (∀ ev ∈ later, ev.begins = false) →
        ∀ ev ∈ later, (∃ hasOutl, ev.call = .final hasOutl) → ev.ret = false ∧ ev.trace = []) := by
  have hinv := run_tagInv run
  have hfresh (hrefuses : ctx.refuses = false)
      (htag : ctx.encrypt = false → ctx.decryptTagCurrent = true) :
      ∃ tag, FreshTag h tag ∧ heldTag h = some tag := (hinv hrefuses (htag hdecrypt)).2
  obtain ⟨hasOutl', hcase⟩ : ∃ hasOutl', FinalCase ctx hasOutl' f next := by
    cases Cipher.step_cases hstep with
    | final _ hcase => exact ⟨_, hcase⟩
    | _ hother => simp [hcall] at hother
  refine ⟨fun ⟨reply, hreached⟩ => ?_, fun hphase hstale => ?_⟩
  · cases hcase with
    | refused _ _ htrace => simp [htrace] at hreached
    | poisoned _ _ _ htrace => simp [htrace] at hreached
    | injectFailed _ hrefuses htag => exact hfresh hrefuses htag
    | failed _ _ hrefuses htag => exact hfresh hrefuses htag
    | done _ hrefuses htag => exact hfresh hrefuses htag
  · have hstuck (hnext : next.needsReinit = true) : ∀ later after,
        Path (Cipher.Step lib) next later after → (∀ ev ∈ later, ev.begins = false) →
        ∀ ev ∈ later, (∃ hasOutl, ev.call = .final hasOutl) →
          ev.ret = false ∧ ev.trace = [] := by
      intro later after hlater hbegins ev hev ⟨_, hfinal⟩
      exact (poisoned_run hnext hlater hbegins).2 ev hev (by simp [Event.needsRecord, hfinal])
    have hlive (hrefuses : ctx.refuses = false)
        (htag : ctx.encrypt = false → ctx.decryptTagCurrent = true) : False := by
      obtain ⟨tag, hfreshTag, -⟩ := hfresh hrefuses htag
      exact hstale ⟨tag, hfreshTag⟩
    have htrips : f.ret = false → f.Trips ctx := fun hret => .inr ⟨⟨_, hcall⟩, hret, hphase⟩
    have hnext (hret : f.ret = false) :=
      needsReinit_of_trips (Cipher.step_cases hstep) (htrips hret)
    cases hcase with
    | refused _ hret htrace => exact ⟨hret, htrace, hstuck (hnext hret)⟩
    | poisoned _ _ hret htrace => exact ⟨hret, htrace, hstuck (hnext hret)⟩
    | injectFailed _ hrefuses htag => exact (hlive hrefuses htag).elim
    | failed _ _ hrefuses htag => exact (hlive hrefuses htag).elim
    | done _ hrefuses htag => exact (hlive hrefuses htag).elim

theorem decrypt_final_decryptRecord :
    let run := exec (Cipher.move littleEndian) (Ctx.new encryptRecordLimit) (decryptRecord keyA ivA)
    let f := Cipher.step littleEndian run.2 (compliant 0) (.final true)
    f.1.ret = true ∧ ∃ tag, FreshTag run.1 tag ∧ heldTag run.1 = some tag := by
  refine ⟨by decide +kernel, ?_⟩
  have hdecrypt : (exec (Cipher.move littleEndian) (Ctx.new encryptRecordLimit)
      (decryptRecord keyA ivA)).2.encrypt = false := by decide +kernel
  exact (decrypt_final (Cipher.path_execute _ _ _)
    (Cipher.step_self _ _ (compliant 0) (.final true)) rfl hdecrypt).1
      ⟨⟨true, 0⟩, by decide +kernel⟩

end G301.Outer
