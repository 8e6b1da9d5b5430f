import G301.Lib.Path
import G301.Outer.CipherSpec

/-! # The current record in the history of a context

What the caller did and what reached the inner context since the latest successful init with
an IV, read off the events alone.

* `InRecord` cuts a history at that init, `chunks` are the data of the caller's successful
  updates, `innerCalls` the requests to the inner context other than tag deliveries.
* `live_cases` lists the calls after which a record is pending or active: one begins it, one
  leaves it as it is, one feeds it. -/

namespace G301.Outer

open ByteString Param Lts

/-! ### Events and histories -/

/-- A successful init with an IV. -/
def Event.begins (ev : Event) : Bool :=
  match ev.call with
  | .init _ _ iv _ => ev.ret && !iv.isNull
  | _ => false

/-- The direction of an init. -/
def Event.encrypts (ev : Event) : Bool :=
  match ev.call with
  | .init encrypt _ _ _ => encrypt
  | _ => false

/-- The IV of an init. -/
def Event.iv? (ev : Event) : Option Bytes :=
  match ev.call with
  | .init _ _ iv _ => iv.data?
  | _ => none

/-- The key of an init whose inner init and whose recording of the key succeed. -/
def Event.recordsKey (ev : Event) : Option Bytes :=
  match ev.trace with
  | .init (some key) _ _ _ true :: .writeLock true :: _ => some key
  | _ => none

/-- An init or a setting of context parameters that carries a tag. -/
def Event.carriesTag (ev : Event) : Bool :=
  match ev.call with
  | .init _ _ _ params => (tagOf params).isSome
  | .setCtxParams params => (tagOf params).isSome
  | _ => false

/-- `first` is the latest event of `h` that begins a record, `mid` is what came after. -/
structure InRecord (h pre : List Event) (first : Event) (mid : List Event) : Prop where
  eq : h = pre ++ first :: mid
  begins : first.begins = true
  not_begins : ∀ ev ∈ mid, ev.begins = false

namespace InRecord

variable {h pre mid : List Event} {first ev : Event}

theorem start (hbegins : ev.begins = true) : InRecord (h ++ [ev]) h ev [] :=
  ⟨rfl, hbegins, by simp⟩

theorem snoc (hr : InRecord h pre first mid) (hbegins : ev.begins = false) :
    InRecord (h ++ [ev]) pre first (mid ++ [ev]) := by
  refine ⟨by simp [hr.eq], hr.begins, fun x hx => ?_⟩
  obtain hx | hx := List.mem_append.mp hx
  · exact hr.not_begins x hx
  · rw [List.mem_singleton.mp hx]
    exact hbegins

end InRecord

/-- The data of a successful update that is not empty: payload if `out`, else associated data. -/
def Event.chunk (out : Bool) (ev : Event) : Option Bytes :=
  match ev.call with
  | .update toOut _ _ input =>
      if ev.ret = true ∧ toOut = out ∧ input.size ≠ 0 then input.data? else none
  | _ => none

/-- The data of the caller's successful updates. -/
def chunks (out : Bool) (h : List Event) : List Bytes := h.filterMap (Event.chunk out)

@[simp] theorem chunks_nil (out : Bool) : chunks out [] = [] := rfl

theorem chunks_snoc (out : Bool) (h : List Event) (ev : Event) :
    chunks out (h ++ [ev]) = chunks out h ++ (ev.chunk out).toList := by
  cases hchunk : ev.chunk out <;> simp [chunks, hchunk]

/-- The request hands the inner context a tag. -/
def ExtCall.deliversTag : ExtCall → Bool
  | setParams params _ => (tagBytes params).isSome
  | _ => false

/-- The requests to the inner context, other than those that deliver a tag. -/
def innerCalls (h : List Event) : List ExtCall :=
  (h.flatMap Event.trace).filter fun c => c.isInner && !c.deliversTag

@[simp] theorem innerCalls_nil : innerCalls [] = [] := rfl

theorem innerCalls_append (h h' : List Event) :
    innerCalls (h ++ h') = innerCalls h ++ innerCalls h' := by
  simp [innerCalls]

theorem filter_of_not_isInner {trace : List ExtCall} (h : ∀ c ∈ trace, c.isInner = false) :
    trace.filter (fun c => c.isInner && !c.deliversTag) = [] := by
  refine List.filter_eq_nil_iff.mpr fun c hc => ?_
  rw [h c hc, Bool.false_and]
  exact Bool.false_ne_true

/-- What an update hands to the inner context. -/
def dataCall (out : Bool) (data : Bytes) : ExtCall := .update out data ⟨true, data.length⟩

/-- What the injection of the manifest hands to the inner context. -/
def manifestCall : ExtCall := .update false manifest ⟨true, manifestLength⟩

/-! ### What a step does to the current record -/

@[simp] theorem Ctx.refuses_poison (ctx : Ctx) : ctx.poison.refuses = true := by
  simp [Ctx.refuses, Ctx.poison]

@[simp] theorem Ctx.refuses_invalidateRecord (ctx : Ctx) : ctx.invalidateRecord.refuses = true := by
  simp [Ctx.refuses, Ctx.invalidateRecord]

@[simp] theorem Ctx.refuses_drop (ctx : Ctx) : ctx.drop.refuses = true :=
  ctx.poison.refuses_invalidateRecord

/-- A successful injection leaves an active record, and hands over the manifest if the record
was pending. -/
theorem Inject.of_true {ctx next : Ctx} {trace : List ExtCall} {raised : List Reason}
    (h : Inject ctx trace raised true next) :
    (∃ records isReserved, next = { ctx with
      phase := .active, encryptedRecords := records, recordReserved := isReserved }) ∧
    ((ctx.phase = .active ∧ trace = []) ∨
      (ctx.phase = .manifestPending ∧ ∃ adds, (∀ c ∈ adds, c.isInner = false) ∧
        trace = adds ++ [manifestCall])) := by
  cases h with
  | active hphase =>
      refine ⟨⟨ctx.encryptedRecords, ctx.recordReserved, ?_⟩, .inl ⟨hphase, rfl⟩⟩
      rw [← hphase]
  | injected hphase hr =>
      obtain ⟨⟨records, isReserved, rfl⟩, hadds⟩ := hr.frame
      exact ⟨⟨records, isReserved, rfl⟩, .inr ⟨hphase, _, hadds, rfl⟩⟩

theorem Inject.refuses_of_false {ctx next : Ctx} {trace : List ExtCall} {raised : List Reason}
    (h : Inject ctx trace raised false next) : next.needsReinit = true := by
  cases h <;> rfl

/-- The calls after which a record is pending or active. -/
inductive LiveCase (ctx : Ctx) (ev : Event) (next : Ctx) : Prop
  | begun {encrypt : Bool} {key : Buffer} {v : Bytes} {params : Option (List Param)}
      (locks : List ExtCall) (hcall : ev.call = .init encrypt key (.bytes v) params)
      (hadmits : ctx.Admits encrypt key (.bytes v) params)
      (hlocks : ∀ c ∈ locks, c.isInner = false) (hret : ev.ret = true)
      (htrace : ev.trace =
        initRequest encrypt key (.bytes v) params true :: (recordTrace key true ++ locks))
      (hnext : next = (if encrypt then (ctx.takeKey encrypt key).installKey
        else ctx.takeKey encrypt key).beginRecord (!encrypt && (tagOf params).isSome))
  | idle (tagCurrent : Bool) (hlive : ctx.refuses = false) (hbegins : ev.begins = false)
      (htrace : ev.trace = []) (hchunk : ∀ out, ev.chunk out = none)
      (htag : tagCurrent = true → ctx.decryptTagCurrent = true ∧ ev.carriesTag = false)
      (hnext : next = { ctx with decryptTagCurrent := tagCurrent })
  | tagged {params : Option (List Param)} {tag : Param} (hlive : ctx.refuses = false)
      (hcall : ev.call = .setCtxParams params) (hencrypt : ctx.encrypt = false)
      (hok : isTag tag = true) (hret : ev.ret = true)
      (htrace : ev.trace = [.setParams (filtered (ivOf params) (some tag)) true])
      (hnext : next = { ctx with decryptTagCurrent := true })
  | fed {out hasOutl : Bool} {outsize : ℕ} {data : Bytes} {trace : List ExtCall} {injected : Ctx}
      (hlive : ctx.refuses = false) (hcall : ev.call = .update out hasOutl outsize (.bytes data))
      (hdata : data ≠ []) (hpayload : out = false → ctx.payloadStarted = false)
      (hinject : Inject ctx trace [] true injected) (hret : ev.ret = true)
      (htrace : ev.trace = trace ++ [dataCall out data])
      (hnext : next = { injected with payloadStarted := out || injected.payloadStarted })

theorem tagBytes_of_isTag (ivParam : Option Param) {tag : Param} (h : isTag tag = true) :
    ∃ data, tag.buffer = .bytes data ∧ data.length = tagLength ∧
      tagBytes (filtered ivParam (some tag)) = some data := by
  simp only [isTag, Bool.and_eq_true, Bool.not_eq_true', decide_eq_true_eq] at h
  obtain ⟨data, hdata⟩ := Buffer.eq_bytes_of_isNull h.1.2
  refine ⟨data, hdata, ?_, ?_⟩
  · simpa [hdata, Buffer.size] using h.2
  · rw [tagBytes_filtered, Option.bind_some, hdata, Buffer.data?]

theorem Ctx.Rejects.eq_of_refuses {ctx next : Ctx} {hasTag : Bool} (h : ctx.Rejects hasTag next)
    (hnext : next.refuses = false) : ∃ tagCurrent,
      next = { ctx with decryptTagCurrent := tagCurrent } ∧
      (tagCurrent = true → ctx.decryptTagCurrent = true ∧ hasTag = false) := by
  obtain ⟨rfl | rfl | rfl, htag⟩ := h
  · exact ⟨next.decryptTagCurrent, rfl, fun htrue => ⟨htrue, by_contra fun h => by simp_all⟩⟩
  · exact ⟨false, rfl, by simp⟩
  · simp at hnext

theorem live_cases {ctx next : Ctx} {ev : Event} (h : StepCase ctx ev next)
    (hnext : next.refuses = false) : LiveCase ctx ev next := by
  have hsame (heq : next = ctx) (hbegins : ev.begins = false) (htrace : ev.trace = [])
      (hchunk : ∀ out, ev.chunk out = none) (hcarries : ev.carriesTag = false) :
      LiveCase ctx ev next := by
    subst heq
    exact .idle next.decryptTagCurrent hnext hbegins htrace hchunk
      (fun htag => ⟨htag, hcarries⟩) rfl
  cases h with
  | init hcall hcase =>
      cases hcase with
      | rejected hret htrace hraised hrejects =>
          obtain ⟨tagCurrent, rfl, htag⟩ := hrejects.eq_of_refuses hnext
          refine .idle tagCurrent hnext (by simp [Event.begins, hcall, hret]) htrace
            (by simp [Event.chunk, hcall]) (fun htrue => ?_) rfl
          rw [Event.carriesTag, hcall]
          exact htag htrue
      | innerFailed _ _ _ _ heq => simp [heq] at hnext
      | recordFailed _ _ _ _ _ heq => simp [heq] at hnext
      | installFailed _ _ _ _ _ _ _ _ heq => simp [heq] at hnext
      | staged _ _ _ _ _ heq => simp [heq] at hnext
      | begun locks hadmits hiv hlocks hret htrace _ heq =>
          obtain ⟨v, rfl⟩ := Buffer.eq_bytes_of_isNull hiv
          exact .begun locks hcall hadmits hlocks hret htrace heq
  | update hcall hcase =>
      cases hcase with
      | refused _ hret htrace _ heq =>
          exact hsame heq (by simp [Event.begins, hcall]) htrace
            (by simp [Event.chunk, hcall, hret]) (by simp [Event.carriesTag, hcall])
      | empty hrefuses hinput hret htrace _ heq =>
          exact hsame heq (by simp [Event.begins, hcall]) htrace
            (by simp [Event.chunk, hcall, hinput]) (by simp [Event.carriesTag, hcall])
      | injectFailed _ _ _ _ hinject _ =>
          simp [Ctx.refuses, hinject.refuses_of_false] at hnext
      | failed _ _ _ _ _ _ _ _ _ _ heq => simp [heq] at hnext
      | done data hinput hdata hrefuses hpayload hinject hret htrace _ heq =>
          subst hinput
          exact .fed hrefuses hcall hdata hpayload hinject hret htrace heq
  | final hcall hcase =>
      cases hcase with
      | refused hrefuses _ _ _ heq => simp [heq, hrefuses] at hnext
      | poisoned _ _ _ _ _ heq => simp [heq] at hnext
      | injectFailed _ _ _ hinject _ =>
          simp [Ctx.refuses, hinject.refuses_of_false] at hnext
      | failed _ _ _ _ _ _ _ _ _ heq => simp [heq] at hnext
      | done _ _ _ _ _ _ _ heq => simp [heq, Ctx.refuses] at hnext
  | getCtxParams hcall hcase =>
      cases hcase with
      | quiet _ htrace _ heq =>
          exact hsame heq (by simp [Event.begins, hcall]) htrace
            (by simp [Event.chunk, hcall]) (by simp [Event.carriesTag, hcall])
      | failed _ _ _ _ _ _ _ _ heq => simp [heq] at hnext
      | fetched _ hinit _ hphase _ _ _ _ _ heq => simp [heq, Ctx.refuses, hphase] at hnext
  | @setCtxParams params hcall hcase =>
      have hbegins : ev.begins = false := by simp [Event.begins, hcall]
      have hchunk (out : Bool) : ev.chunk out = none := by simp [Event.chunk, hcall]
      cases hcase with
      | quiet _ htrace _ heq =>
          cases htag : (tagOf params).isSome with
          | false =>
              rw [htag] at heq
              exact hsame heq hbegins htrace hchunk (by simp [Event.carriesTag, hcall, htag])
          | true =>
              rw [htag] at heq
              subst heq
              exact .idle false hnext hbegins htrace hchunk (by simp) rfl
      | failed _ _ _ _ _ _ _ _ heq => simp [heq] at hnext
      | done tag _ hok hencrypt hrefuses hret htrace _ heq =>
          exact .tagged hrefuses hcall hencrypt hok hret htrace heq

end G301.Outer
