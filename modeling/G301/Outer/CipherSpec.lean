import G301.Outer.InitSpec

/-! # What one call can do to a context

`Cipher.step_cases` lists everything a call of the cipher can do, once, in terms of its event;
no later proof unfolds an entry point.  `Inject` does the same for the injection of the
manifest, which an update and a final run first, and `KeyCase` says what a call can do to the
keys. -/

namespace G301.Outer

open ByteString Param

/-- A record that counts: nothing to reserve for decryption, one more for encryption. -/
inductive Reserved (ctx : Ctx) : List ExtCall → Ctx → Prop
  | decrypt (h : ctx.encrypt = false) : Reserved ctx [] ctx
  | again (he : ctx.encrypt = true) (h : ctx.recordReserved = true) : Reserved ctx [] ctx
  | counted (he : ctx.encrypt = true) (h : ctx.recordReserved = false)
      (hvalid : ctx.usageKeyValid = true) (hopen : ctx.usageExhausted = false)
      (hlimit : wrapInt (ctx.encryptedRecords + 1) ≤ ctx.recordLimit) :
      Reserved ctx [.atomicAdd true] { ctx with
        encryptedRecords := wrapInt (ctx.encryptedRecords + 1), recordReserved := true }

/-- What the injection of the manifest can do: the requests it makes, the reasons it raises,
its result and the context afterwards. -/
inductive Inject (ctx : Ctx) : List ExtCall → List Reason → Bool → Ctx → Prop
  | active (h : ctx.phase = .active) : Inject ctx [] [] true ctx
  | exhausted (hphase : ctx.phase = .manifestPending) (he : ctx.encrypt = true)
      (hr : ctx.recordReserved = false)
      (h : ctx.usageKeyValid = false ∨ ctx.usageExhausted = true) :
      Inject ctx [] [.keyUsageLimitExceeded] false ctx.drop
  | atomicFailed (hphase : ctx.phase = .manifestPending) (he : ctx.encrypt = true)
      (hr : ctx.recordReserved = false) (hvalid : ctx.usageKeyValid = true)
      (hopen : ctx.usageExhausted = false) :
      Inject ctx [.atomicAdd false] [.internalError] false ctx.drop
  | overLimit (hphase : ctx.phase = .manifestPending) (he : ctx.encrypt = true)
      (hr : ctx.recordReserved = false) (hvalid : ctx.usageKeyValid = true)
      (hopen : ctx.usageExhausted = false)
      (hlimit : ctx.recordLimit < wrapInt (ctx.encryptedRecords + 1)) :
      Inject ctx [.atomicAdd true] [.keyUsageLimitExceeded] false { ctx.drop with
        encryptedRecords := wrapInt (ctx.encryptedRecords + 1), usageExhausted := true }
  | manifestFailed {trace : List ExtCall} {reserved : Ctx} (reply : Reply)
      (raised : List Reason) (hphase : ctx.phase = .manifestPending)
      (hr : Reserved ctx trace reserved) (hreply : reply ≠ ⟨true, manifestLength⟩)
      (hraised : .keyUsageLimitExceeded ∉ raised) :
      Inject ctx (trace ++ [.update false manifest reply]) raised false reserved.poison
  | injected {trace : List ExtCall} {reserved : Ctx} (hphase : ctx.phase = .manifestPending)
      (hr : Reserved ctx trace reserved) :
      Inject ctx (trace ++ [.update false manifest ⟨true, manifestLength⟩]) [] true
        { reserved with phase := .active }

theorem Ctx.refuses_eq_false_iff {ctx : Ctx} :
    ctx.refuses = false ↔ ctx.needsReinit = false ∧
      (ctx.phase = .manifestPending ∨ ctx.phase = .active) := by
  cases hphase : ctx.phase <;> simp [Ctx.refuses, hphase]

theorem Inject.raised_eq_nil {ctx next : Ctx} {trace : List ExtCall} {raised : List Reason}
    (h : Inject ctx trace raised true next) : raised = [] := by
  cases h <;> rfl

theorem reserveEncryptionRecord_cases {ans : Answers} {ctx : Ctx} {ok : Bool} {e : Exec}
    (hphase : ctx.phase = .manifestPending) (he : ctx.encrypt = true)
    (h : reserveEncryptionRecord ans (Exec.start ctx) = (ok, e)) :
    (ok = true ∧ Reserved ctx e.trace e.ctx ∧ e.raised = []) ∨
      (ok = false ∧ Inject ctx e.trace e.raised false e.ctx) := by
  simp only [reserveEncryptionRecord] at h
  split at h
  case isTrue hr =>
    obtain ⟨rfl, rfl⟩ := Prod.mk.inj h
    exact .inl ⟨rfl, .again he hr, rfl⟩
  case isFalse hr =>
    rw [Bool.not_eq_true] at hr
    split at h
    case isTrue hover =>
      obtain ⟨rfl, rfl⟩ := Prod.mk.inj h
      exact .inr ⟨rfl, .exhausted hphase he hr (by simpa using hover)⟩
    case isFalse hopen =>
      obtain ⟨hvalid, hopen⟩ : ctx.usageKeyValid = true ∧ ctx.usageExhausted = false := by
        simpa using hopen
      cases hadd : ans.atomicAdd with
      | false =>
          rw [hadd] at h
          obtain ⟨rfl, rfl⟩ := Prod.mk.inj h
          exact .inr ⟨rfl, .atomicFailed hphase he hr hvalid hopen⟩
      | true =>
          rw [hadd] at h
          split at h
          case isTrue hfalse => exact absurd hfalse (by decide)
          case isFalse =>
            split at h
            case isTrue hlimit =>
              obtain ⟨rfl, rfl⟩ := Prod.mk.inj h
              exact .inl ⟨rfl, .counted he hr hvalid hopen hlimit, rfl⟩
            case isFalse hlimit =>
              obtain ⟨rfl, rfl⟩ := Prod.mk.inj h
              exact .inr ⟨rfl, .overLimit hphase he hr hvalid hopen (lt_of_not_ge hlimit)⟩

/-- `injectManifest` once the record is reserved. -/
def handManifest (ans : Answers) (e : Exec) : Bool × Exec :=
  let e := e.request (.update false manifest ans.manifest)
  if !ans.manifest.ok then (false, e.modify Ctx.poison)
  else if ans.manifest.outl ≠ manifestLength then
    (false, (e.modify Ctx.poison).raise .internalError)
  else (true, e.modify fun ctx => { ctx with phase := .active })

theorem handManifest_cases {ans : Answers} {ctx : Ctx} {ok : Bool} {e e' : Exec}
    (hphase : ctx.phase = .manifestPending) (hr : Reserved ctx e.trace e.ctx)
    (hraised : e.raised = []) (h : handManifest ans e = (ok, e')) :
    Inject ctx e'.trace e'.raised ok e'.ctx := by
  obtain ⟨reserved, trace, raised⟩ := e
  subst hraised
  simp only [handManifest] at h
  split at h
  case isTrue hfailed =>
    obtain ⟨rfl, rfl⟩ := Prod.mk.inj h
    refine .manifestFailed ans.manifest [] hphase hr (fun heq => ?_) (by simp)
    rw [heq] at hfailed
    cases hfailed
  case isFalse hok =>
    simp only [Bool.not_eq_true', Bool.not_eq_false] at hok
    split at h
    case isTrue houtl =>
      obtain ⟨rfl, rfl⟩ := Prod.mk.inj h
      refine .manifestFailed ans.manifest [.internalError] hphase hr (fun heq => ?_) (by simp)
      exact houtl (by rw [heq])
    case isFalse houtl =>
      obtain ⟨rfl, rfl⟩ := Prod.mk.inj h
      have hreply : ans.manifest = ⟨true, manifestLength⟩ := by
        rw [← hok, ← not_not.mp houtl]
      rw [hreply]
      exact .injected hphase hr

theorem injectManifest_cases {ans : Answers} {ctx : Ctx} {ok : Bool} {e : Exec}
    (hrefuses : ctx.refuses = false) (h : injectManifest ans (Exec.start ctx) = (ok, e)) :
    Inject ctx e.trace e.raised ok e.ctx := by
  rw [Ctx.refuses_eq_false_iff] at hrefuses
  rw [injectManifest] at h
  by_cases hphase : ctx.phase = .manifestPending
  · rw [if_neg (not_not.mpr hphase)] at h
    cases he : ctx.encrypt with
    | false =>
        rw [he] at h
        exact handManifest_cases hphase (.decrypt he) rfl h
    | true =>
        rw [he, if_pos rfl] at h
        generalize hreserve : reserveEncryptionRecord ans (Exec.start ctx) = r at h
        obtain ⟨reserved, e'⟩ := r
        obtain ⟨rfl, hr, hraised⟩ | ⟨rfl, hinject⟩ :=
          reserveEncryptionRecord_cases hphase he hreserve
        · exact handManifest_cases hphase hr hraised h
        · obtain ⟨rfl, rfl⟩ := Prod.mk.inj h
          exact hinject
  · rw [if_pos hphase] at h
    obtain ⟨rfl, rfl⟩ := Prod.mk.inj h
    have hactive : ctx.phase = .active := hrefuses.2.resolve_left hphase
    rw [hactive]
    exact .active hactive

/-- The checks of an update that is not empty. -/
def Ctx.admitsUpdate (ctx : Ctx) (out hasOutl : Bool) (outsize : ℕ) (input : Buffer) : Bool :=
  hasOutl && !ctx.refuses && !input.isNull && decide (input.size ≤ intMax) &&
    (!out || decide (input.size ≤ outsize)) && (out || !ctx.payloadStarted)

/-- What an update can do, seen from its event. -/
inductive UpdateCase (ctx : Ctx) (out hasOutl : Bool) (outsize : ℕ) (input : Buffer) (ev : Event)
    (next : Ctx) : Prop
  | refused (hcause : ctx.admitsUpdate out hasOutl outsize input = false)
      (hret : ev.ret = false) (htrace : ev.trace = [])
      (hraised : .keyUsageLimitExceeded ∉ ev.raised) (hnext : next = ctx)
  | empty (hrefuses : ctx.refuses = false) (hinput : input.size = 0) (hret : ev.ret = true)
      (htrace : ev.trace = []) (hraised : ev.raised = []) (hnext : next = ctx)
  | injectFailed (data : Bytes) (hinput : input = .bytes data) (hdata : data ≠ [])
      (hrefuses : ctx.refuses = false) (hinject : Inject ctx ev.trace ev.raised false next)
      (hret : ev.ret = false)
  | failed {trace : List ExtCall} {injected : Ctx} (data : Bytes) (reply : Reply)
      (hinput : input = .bytes data) (hdata : data ≠ []) (hrefuses : ctx.refuses = false)
      (hinject : Inject ctx trace [] true injected) (hreply : reply ≠ ⟨true, data.length⟩)
      (hret : ev.ret = false) (htrace : ev.trace = trace ++ [.update out data reply])
      (hraised : .keyUsageLimitExceeded ∉ ev.raised) (hnext : next = injected.poison)
  | done {trace : List ExtCall} {injected : Ctx} (data : Bytes)
      (hinput : input = .bytes data) (hdata : data ≠ []) (hrefuses : ctx.refuses = false)
      (hpayload : out = false → ctx.payloadStarted = false)
      (hinject : Inject ctx trace [] true injected) (hret : ev.ret = true)
      (htrace : ev.trace = trace ++ [.update out data ⟨true, data.length⟩])
      (hraised : ev.raised = [])
      (hnext : next = { injected with payloadStarted := out || injected.payloadStarted })

theorem UpdateCase.of_refuses {ctx next : Ctx} {ev : Event} {out hasOutl : Bool} {outsize : ℕ}
    {input : Buffer} (h : UpdateCase ctx out hasOutl outsize input ev next)
    (hrefuses : ctx.refuses = true) : ev.ret = false ∧ ev.trace = [] ∧ next = ctx := by
  have hdead {P : Prop} (hlive : ctx.refuses = false) : P := by
    rw [hrefuses] at hlive
    cases hlive
  cases h with
  | refused _ hret htrace _ hnext => exact ⟨hret, htrace, hnext⟩
  | empty hlive => exact hdead hlive
  | injectFailed _ _ _ hlive => exact hdead hlive
  | failed _ _ _ _ hlive => exact hdead hlive
  | done _ _ _ hlive => exact hdead hlive

/-- `update` once its input is admitted. -/
def feedData (ans : Answers) (out : Bool) (outsize : ℕ) (input : Buffer) (ctx : Ctx) :
    Bool × Option ℕ × Exec :=
  match injectManifest ans (Exec.start ctx) with
  | (false, e) => (false, some 0, e)
  | (true, e) =>
      let e := e.request (.update out ((input.data?).getD []) ans.data)
      if !ans.data.ok then (false, some 0, e.modify Ctx.poison)
      else if ans.data.outl < 0 ∨ ans.data.outl ≠ input.size ∨
          (out = true ∧ (outsize : ℤ) < ans.data.outl) then
        (false, some 0, (e.modify Ctx.poison).raise .internalError)
      else
        let e := if out then e.modify fun ctx => { ctx with payloadStarted := true } else e
        (true, some input.size, e)

theorem update_eq (ans : Answers) (out hasOutl : Bool) (outsize : ℕ) (input : Buffer) (ctx : Ctx) :
    update ans out hasOutl outsize input ctx =
      if !hasOutl then (false, none, Exec.start ctx)
      else if ctx.refuses then (false, some 0, (Exec.start ctx).raise .invalidState)
      else if (input.isNull && decide (input.size ≠ 0)) || decide (intMax < input.size) then
        (false, some 0, (Exec.start ctx).raise .invalidParameter)
      else if input.size = 0 then (true, some 0, Exec.start ctx)
      else if out && decide (outsize < input.size) then
        (false, some 0, (Exec.start ctx).raise .outputBufferTooSmall)
      else if !out && ctx.payloadStarted then
        (false, some 0, (Exec.start ctx).raise .invalidState)
      else feedData ans out outsize input ctx := rfl

theorem feedData_cases {ans : Answers} {out hasOutl : Bool} {outsize : ℕ} {data : Bytes}
    {ctx next : Ctx} {ev : Event} {outl : Option ℕ} (hdata : data ≠ [])
    (hrefuses : ctx.refuses = false) (hroom : out = true → data.length ≤ outsize)
    (hpayload : out = false → ctx.payloadStarted = false)
    (h : feedData ans out outsize (.bytes data) ctx =
      (ev.ret, outl, ⟨next, ev.trace, ev.raised⟩)) :
    UpdateCase ctx out hasOutl outsize (.bytes data) ev next := by
  unfold feedData at h
  generalize hinject : injectManifest ans (Exec.start ctx) = r at h
  obtain ⟨ok, e⟩ := r
  have hcase := injectManifest_cases hrefuses hinject
  obtain ⟨injected, trace, raised⟩ := e
  cases ok with
  | false =>
      simp only [Prod.mk.injEq, Exec.mk.injEq] at h
      obtain ⟨hret, -, rfl, rfl, rfl⟩ := h
      exact .injectFailed data rfl hdata hrefuses hcase hret.symm
  | true =>
      obtain rfl : raised = [] := hcase.raised_eq_nil
      simp only [Buffer.data?, Option.getD_some] at h
      split at h
      case isTrue hfailed =>
        simp only [Exec.modify, Exec.request, Prod.mk.injEq, Exec.mk.injEq] at h
        obtain ⟨hret, -, hnext, htrace, hraised⟩ := h
        refine .failed data ans.data rfl hdata hrefuses hcase (fun heq => ?_) hret.symm
          htrace.symm (by simp [← hraised]) hnext.symm
        rw [heq] at hfailed
        cases hfailed
      case isFalse hok =>
        simp only [Bool.not_eq_true', Bool.not_eq_false] at hok
        have hsize : (Buffer.bytes data).size = data.length := rfl
        by_cases houtl : ans.data.outl = (Buffer.bytes data).size
        · have hadmitted : ¬ (ans.data.outl < 0 ∨ ans.data.outl ≠ (Buffer.bytes data).size ∨
              (out = true ∧ (outsize : ℤ) < ans.data.outl)) := by
            rintro (hneg | hne | ⟨hout, hlt⟩)
            · omega
            · exact hne houtl
            · have hfits := hroom hout
              omega
          have hreply : ans.data = ⟨true, data.length⟩ := by
            rw [← hok, ← hsize, ← houtl]
          rw [if_neg hadmitted] at h
          simp only [Prod.mk.injEq] at h
          obtain ⟨hret, -, hexec⟩ := h
          cases out with
          | false =>
              simp only [Exec.request, Bool.false_eq_true, if_false, Exec.mk.injEq] at hexec
              obtain ⟨hnext, htrace, hraised⟩ := hexec
              exact .done data rfl hdata hrefuses hpayload hcase hret.symm
                (by rw [← htrace, hreply]) hraised.symm hnext.symm
          | true =>
              simp only [Exec.request, Exec.modify, if_true, Exec.mk.injEq] at hexec
              obtain ⟨hnext, htrace, hraised⟩ := hexec
              exact .done data rfl hdata hrefuses (by simp) hcase hret.symm
                (by rw [← htrace, hreply]) hraised.symm hnext.symm
        · rw [if_pos (.inr (.inl houtl))] at h
          simp only [Exec.modify, Exec.request, Exec.raise, Prod.mk.injEq, Exec.mk.injEq] at h
          obtain ⟨hret, -, hnext, htrace, hraised⟩ := h
          refine .failed data ans.data rfl hdata hrefuses hcase (fun heq => ?_) hret.symm
            htrace.symm (by simp [← hraised]) hnext.symm
          exact houtl (by rw [heq, hsize])

theorem update_cases {ans : Answers} {out hasOutl : Bool} {outsize : ℕ} {input : Buffer}
    {ctx next : Ctx} {ev : Event} {outl : Option ℕ}
    (h : update ans out hasOutl outsize input ctx = (ev.ret, outl, ⟨next, ev.trace, ev.raised⟩)) :
    UpdateCase ctx out hasOutl outsize input ev next := by
  have hrefused {reasons : List Reason}
      (hcause : ctx.admitsUpdate out hasOutl outsize input = false)
      (hreasons : .keyUsageLimitExceeded ∉ reasons) {value : Option ℕ}
      (h : (false, value, (⟨ctx, [], reasons⟩ : Exec)) =
        (ev.ret, outl, ⟨next, ev.trace, ev.raised⟩)) :
      UpdateCase ctx out hasOutl outsize input ev next := by
    simp only [Prod.mk.injEq, Exec.mk.injEq] at h
    obtain ⟨hret, -, hnext, htrace, hraised⟩ := h
    exact .refused hcause hret.symm htrace.symm (hraised ▸ hreasons) hnext.symm
  rw [update_eq] at h
  split at h
  case isTrue houtl =>
    obtain rfl : hasOutl = false := by simpa using houtl
    exact hrefused (by simp [Ctx.admitsUpdate]) (by simp) h
  case isFalse =>
  split at h
  case isTrue hrefuses => exact hrefused (by simp [Ctx.admitsUpdate, hrefuses]) (by simp) h
  case isFalse hrefuses =>
  split at h
  case isTrue hbad =>
    refine hrefused ?_ (by simp) h
    obtain ⟨hnull, -⟩ | hlarge : input.isNull = true ∧ input.size ≠ 0 ∨ intMax < input.size := by
      simpa using hbad
    · simp [Ctx.admitsUpdate, hnull]
    · simp [Ctx.admitsUpdate, not_le.mpr hlarge]
  case isFalse hinput =>
  split at h
  case isTrue hempty =>
    simp only [Prod.mk.injEq, Exec.mk.injEq] at h
    obtain ⟨hret, -, hnext, htrace, hraised⟩ := h
    exact .empty (by simpa using hrefuses) hempty hret.symm htrace.symm hraised.symm hnext.symm
  case isFalse hempty =>
  split at h
  case isTrue hsmall =>
    obtain ⟨hout, hsize⟩ : out = true ∧ outsize < input.size := by simpa using hsmall
    exact hrefused (by simp [Ctx.admitsUpdate, hout, not_le.mpr hsize]) (by simp) h
  case isFalse hroom =>
  split at h
  case isTrue horder =>
    obtain ⟨hout, hpayload⟩ : out = false ∧ ctx.payloadStarted = true := by simpa using horder
    exact hrefused (by simp [Ctx.admitsUpdate, hout, hpayload]) (by simp) h
  case isFalse hpayload =>
  cases input with
  | null size => exact absurd (by simp [Buffer.isNull, hempty]) hinput
  | bytes data =>
      refine feedData_cases (fun hnil => hempty (by rw [hnil]; rfl)) (by simpa using hrefuses)
        (fun hout => ?_) (by simpa using hpayload) h
      rw [hout, Bool.true_and, decide_eq_true_iff] at hroom
      exact not_lt.mp hroom

/-- What a final can do, seen from its event. -/
inductive FinalCase (ctx : Ctx) (hasOutl : Bool) (ev : Event) (next : Ctx) : Prop
  | refused (hrefuses : ctx.refuses = true) (hret : ev.ret = false) (htrace : ev.trace = [])
      (hraised : .keyUsageLimitExceeded ∉ ev.raised) (hnext : next = ctx)
  | poisoned (hrefuses : ctx.refuses = false)
      (hcause : hasOutl = false ∨ (ctx.encrypt = false ∧ ctx.decryptTagCurrent = false))
      (hret : ev.ret = false) (htrace : ev.trace = [])
      (hraised : .keyUsageLimitExceeded ∉ ev.raised) (hnext : next = ctx.poison)
  | injectFailed (houtl : hasOutl = true) (hrefuses : ctx.refuses = false)
      (htag : ctx.encrypt = false → ctx.decryptTagCurrent = true)
      (hinject : Inject ctx ev.trace ev.raised false next) (hret : ev.ret = false)
  | failed {trace : List ExtCall} {injected : Ctx} (reply : Reply) (houtl : hasOutl = true)
      (hrefuses : ctx.refuses = false)
      (htag : ctx.encrypt = false → ctx.decryptTagCurrent = true)
      (hinject : Inject ctx trace [] true injected) (hreply : reply ≠ ⟨true, 0⟩)
      (hret : ev.ret = false) (htrace : ev.trace = trace ++ [.final reply])
      (hraised : .keyUsageLimitExceeded ∉ ev.raised) (hnext : next = injected.poison)
  | done {trace : List ExtCall} {injected : Ctx} (houtl : hasOutl = true)
      (hrefuses : ctx.refuses = false)
      (htag : ctx.encrypt = false → ctx.decryptTagCurrent = true)
      (hinject : Inject ctx trace [] true injected) (hret : ev.ret = true)
      (htrace : ev.trace = trace ++ [.final ⟨true, 0⟩]) (hraised : ev.raised = [])
      (hnext : next = { injected.clearTag with phase := .finalized })

theorem FinalCase.of_refuses {ctx next : Ctx} {ev : Event} {hasOutl : Bool}
    (h : FinalCase ctx hasOutl ev next) (hrefuses : ctx.refuses = true) :
    ev.ret = false ∧ ev.trace = [] ∧ next = ctx := by
  have hdead {P : Prop} (hlive : ctx.refuses = false) : P := by
    rw [hrefuses] at hlive
    cases hlive
  cases h with
  | refused _ hret htrace _ hnext => exact ⟨hret, htrace, hnext⟩
  | poisoned hlive => exact hdead hlive
  | injectFailed _ hlive => exact hdead hlive
  | failed _ _ hlive => exact hdead hlive
  | done _ hlive => exact hdead hlive

theorem final_cases {ans : Answers} {hasOutl : Bool} {ctx next : Ctx} {ev : Event}
    {outl : Option ℕ}
    (h : final ans hasOutl ctx = (ev.ret, outl, ⟨next, ev.trace, ev.raised⟩)) :
    FinalCase ctx hasOutl ev next := by
  cases hasOutl with
  | false =>
      rw [final, if_pos (Bool.not_false)] at h
      cases hrefuses : ctx.refuses with
      | false =>
          obtain ⟨hinit, hphase⟩ := Ctx.refuses_eq_false_iff.mp hrefuses
          rw [if_pos (by simpa [hinit] using hphase)] at h
          simp only [Exec.modify, Exec.raise, Prod.mk.injEq, Exec.mk.injEq] at h
          obtain ⟨hret, -, hnext, htrace, hraised⟩ := h
          exact .poisoned hrefuses (.inl rfl) hret.symm htrace.symm (by simp [← hraised])
            hnext.symm
      | true =>
          have hdead : ¬ (ctx.needsReinit = false ∧
              (ctx.phase = .manifestPending ∨ ctx.phase = .active)) := by
            rw [← Ctx.refuses_eq_false_iff, hrefuses]
            decide
          rw [if_neg (by simpa using hdead)] at h
          simp only [Exec.raise, Prod.mk.injEq, Exec.mk.injEq] at h
          obtain ⟨hret, -, hnext, htrace, hraised⟩ := h
          exact .refused hrefuses hret.symm htrace.symm (by simp [← hraised]) hnext.symm
  | true =>
      simp only [final, Bool.not_true, Bool.false_eq_true, if_false] at h
      split at h
      case isTrue hrefuses =>
        simp only [Exec.raise, Prod.mk.injEq, Exec.mk.injEq] at h
        obtain ⟨hret, -, hnext, htrace, hraised⟩ := h
        exact .refused hrefuses hret.symm htrace.symm (by simp [← hraised]) hnext.symm
      case isFalse hrefuses =>
      rw [Bool.not_eq_true] at hrefuses
      split at h
      case isTrue htagless =>
        simp only [Exec.modify, Exec.raise, Prod.mk.injEq, Exec.mk.injEq] at h
        obtain ⟨hret, -, hnext, htrace, hraised⟩ := h
        exact .poisoned hrefuses (.inr (by simpa using htagless)) hret.symm htrace.symm
          (by simp [← hraised]) hnext.symm
      case isFalse htag =>
      have htag : ctx.encrypt = false → ctx.decryptTagCurrent = true := by simpa using htag
      generalize hinject : injectManifest ans (Exec.start ctx) = r at h
      obtain ⟨ok, e⟩ := r
      have hcase := injectManifest_cases hrefuses hinject
      obtain ⟨injected, trace, raised⟩ := e
      cases ok with
      | false =>
          simp only [Prod.mk.injEq, Exec.mk.injEq] at h
          obtain ⟨hret, -, rfl, rfl, rfl⟩ := h
          exact .injectFailed rfl hrefuses htag hcase hret.symm
      | true =>
          obtain rfl : raised = [] := hcase.raised_eq_nil
          simp only [] at h
          split at h
          case isTrue hfailed =>
            simp only [Exec.modify, Exec.request, Prod.mk.injEq, Exec.mk.injEq] at h
            obtain ⟨hret, -, hnext, htrace, hraised⟩ := h
            refine .failed ans.final rfl hrefuses htag hcase (fun heq => ?_) hret.symm
              htrace.symm (by simp [← hraised]) hnext.symm
            rw [heq] at hfailed
            cases hfailed
          case isFalse hok =>
            simp only [Bool.not_eq_true', Bool.not_eq_false] at hok
            split at h
            case isTrue houtl =>
              simp only [Exec.modify, Exec.request, Exec.raise, Prod.mk.injEq,
                Exec.mk.injEq] at h
              obtain ⟨hret, -, hnext, htrace, hraised⟩ := h
              refine .failed ans.final rfl hrefuses htag hcase (fun heq => ?_) hret.symm
                htrace.symm (by simp [← hraised]) hnext.symm
              exact houtl (by rw [heq])
            case isFalse houtl =>
              have hreply : ans.final = ⟨true, 0⟩ := by rw [← hok, ← not_not.mp houtl]
              simp only [Exec.modify, Exec.request, Prod.mk.injEq, Exec.mk.injEq] at h
              obtain ⟨hret, -, hnext, htrace, hraised⟩ := h
              exact .done rfl hrefuses htag hcase hret.symm (by rw [← htrace, hreply])
                hraised.symm hnext.symm

/-- What a request for context parameters can do, seen from its event. -/
inductive GetCase (ctx : Ctx) (params : Option (List Param)) (ev : Event) (next : Ctx) : Prop
  | quiet (hblocked : (tagOf params).isSome = true → ctx.needsReinit = true → ev.ret = false)
      (htrace : ev.trace = []) (hraised : .keyUsageLimitExceeded ∉ ev.raised) (hnext : next = ctx)
  | failed (reply : TagReply) (hinit : ctx.needsReinit = false) (hencrypt : ctx.encrypt = true)
      (hphase : ctx.phase = .finalized)
      (hreply : ¬ (reply.ok = true ∧ reply.returnSize = tagLength)) (hret : ev.ret = false)
      (htrace : ev.trace = [.getParams reply]) (hraised : .keyUsageLimitExceeded ∉ ev.raised)
      (hnext : next = ctx.poison)
  | fetched (reply : TagReply) (hinit : ctx.needsReinit = false) (hencrypt : ctx.encrypt = true)
      (hphase : ctx.phase = .finalized) (hok : reply.ok = true)
      (hsize : reply.returnSize = tagLength) (hret : ev.ret = true)
      (htrace : ev.trace = [.getParams reply]) (hraised : ev.raised = []) (hnext : next = ctx)

/-- What setting context parameters can do, seen from its event. -/
inductive SetCase (ctx : Ctx) (params : Option (List Param)) (ev : Event) (next : Ctx) : Prop
  | quiet (htag : (tagOf params).isSome = true → ev.ret = false) (htrace : ev.trace = [])
      (hraised : .keyUsageLimitExceeded ∉ ev.raised)
      (hnext : next = if (tagOf params).isSome then ctx.clearTag else ctx)
  | failed (tag : Param) (htag : tagOf params = some tag) (hok : isTag tag = true)
      (hencrypt : ctx.encrypt = false) (hrefuses : ctx.refuses = false) (hret : ev.ret = false)
      (htrace : ev.trace = [.setParams (filtered (ivOf params) (some tag)) false])
      (hraised : ev.raised = []) (hnext : next = ctx.poison)
  | done (tag : Param) (htag : tagOf params = some tag) (hok : isTag tag = true)
      (hencrypt : ctx.encrypt = false) (hrefuses : ctx.refuses = false) (hret : ev.ret = true)
      (htrace : ev.trace = [.setParams (filtered (ivOf params) (some tag)) true])
      (hraised : ev.raised = []) (hnext : next = { ctx with decryptTagCurrent := true })

theorem getEncryptionTag_cases {ans : Answers} {param param' : Param} {ctx next : Ctx}
    {ret : Bool} {trace : List ExtCall} {raised : List Reason}
    (h : getEncryptionTag ans param (Exec.start ctx) = (ret, param', ⟨next, trace, raised⟩)) :
    (trace = [] ∧ .keyUsageLimitExceeded ∉ raised ∧ next = ctx) ∨
      (∃ reply : TagReply, trace = [.getParams reply] ∧
        ((¬ (reply.ok = true ∧ reply.returnSize = tagLength) ∧ ret = false ∧
            .keyUsageLimitExceeded ∉ raised ∧ next = ctx.poison) ∨
          (reply.ok = true ∧ reply.returnSize = tagLength ∧ ret = true ∧ raised = [] ∧
            next = ctx))) := by
  simp only [getEncryptionTag] at h
  split at h
  case isTrue =>
    simp only [Exec.raise, Prod.mk.injEq, Exec.mk.injEq] at h
    obtain ⟨-, -, rfl, rfl, rfl⟩ := h
    exact .inl ⟨rfl, by simp, rfl⟩
  split at h
  case isTrue =>
    simp only [Prod.mk.injEq, Exec.mk.injEq] at h
    obtain ⟨-, -, rfl, rfl, rfl⟩ := h
    exact .inl ⟨rfl, by simp, rfl⟩
  split at h
  case isTrue =>
    simp only [Exec.raise, Prod.mk.injEq, Exec.mk.injEq] at h
    obtain ⟨-, -, rfl, rfl, rfl⟩ := h
    exact .inl ⟨rfl, by simp, rfl⟩
  right
  refine ⟨ans.getParams, ?_⟩
  split at h
  case isTrue hfailed =>
    simp only [Exec.modify, Exec.request, Prod.mk.injEq, Exec.mk.injEq] at h
    obtain ⟨rfl, -, rfl, rfl, rfl⟩ := h
    refine ⟨rfl, .inl ⟨fun hok => ?_, rfl, by simp, rfl⟩⟩
    simp [hok.1] at hfailed
  case isFalse hok =>
    simp only [Bool.not_eq_true', Bool.not_eq_false] at hok
    split at h
    case isTrue hsize =>
      simp only [Exec.modify, Exec.request, Exec.raise, Prod.mk.injEq, Exec.mk.injEq] at h
      obtain ⟨rfl, -, rfl, rfl, rfl⟩ := h
      exact ⟨rfl, .inl ⟨fun hreply => hsize hreply.2, rfl, by simp, rfl⟩⟩
    case isFalse hsize =>
      simp only [Exec.request, Prod.mk.injEq, Exec.mk.injEq] at h
      obtain ⟨rfl, -, rfl, rfl, rfl⟩ := h
      exact ⟨rfl, .inr ⟨hok, not_not.mp hsize, rfl, rfl, rfl⟩⟩

theorem locate_replace_isSome (params : List Param) (key : String) (value : Param)
    (hkey : value.key = key) (name : String) :
    (locate (replace params key value) name).isSome = (locate params name).isSome := by
  induction params with
  | nil => rfl
  | cons param rest ih =>
      by_cases hparam : param.key = key
      · by_cases hname : key = name <;>
          simp [replace, locate, hparam, hkey, hname]
      · by_cases hname : param.key = name
        · subst hname
          simp [replace, locate, hparam]
        · simpa [replace, locate, hparam, hname] using ih

theorem setSize_isSome (lib : Libcrypto) (params : List Param) (key : String) (value : ℕ)
    (name : String) :
    (locate (setSize lib params key value).2 name).isSome = (locate params name).isSome := by
  unfold setSize
  split
  case h_1 => rfl
  case h_2 param hparam =>
    have hkey : param.key = key := by
      simpa using List.find?_some hparam
    generalize lib.setSizeT param value = r
    obtain ⟨ok, buffer, returnSize⟩ := r
    exact locate_replace_isSome params key
      { param with buffer := buffer, returnSize := returnSize } hkey name

theorem getCtxParams_cases {lib : Libcrypto} {ans : Answers} {params : Option (List Param)}
    {ctx next : Ctx} {ev : Event} {after : Option (List Param)}
    (h : getCtxParams lib ans params ctx = (ev.ret, after, ⟨next, ev.trace, ev.raised⟩)) :
    GetCase ctx params ev next := by
  have hrefused {asked : Option (List Param)}
      (h : (false, asked, (⟨ctx, [], [.invalidParameter]⟩ : Exec)) =
        (ev.ret, after, ⟨next, ev.trace, ev.raised⟩)) : GetCase ctx params ev next := by
    simp only [Prod.mk.injEq, Exec.mk.injEq] at h
    obtain ⟨hret, -, hnext, htrace, hraised⟩ := h
    exact .quiet (fun _ _ => hret.symm) htrace.symm (by simp [← hraised]) hnext.symm
  simp only [getCtxParams] at h
  split at h
  case h_1 =>
    simp only [Prod.mk.injEq, Exec.mk.injEq] at h
    obtain ⟨-, -, hnext, htrace, hraised⟩ := h
    exact .quiet (by simp [tagOf]) htrace.symm (by simp [← hraised]) hnext.symm
  case h_2 params =>
  split at h
  case isTrue => exact hrefused h
  have hiv := setSize_isSome lib params ivlen ivLength aeadTag
  generalize setSize lib params ivlen ivLength = r at h hiv
  obtain ⟨ok, params₁⟩ := r
  cases ok
  case false => exact hrefused h
  have hkey := setSize_isSome lib params₁ keylen keyLength aeadTag
  simp only [] at h
  generalize setSize lib params₁ keylen keyLength = r at h hkey
  obtain ⟨ok, params₂⟩ := r
  cases ok
  case false => exact hrefused h
  have htaglen := setSize_isSome lib params₂ aeadTaglen tagLength aeadTag
  simp only [] at h
  generalize setSize lib params₂ aeadTaglen tagLength = r at h htaglen
  obtain ⟨ok, params₃⟩ := r
  cases ok
  case false => exact hrefused h
  simp only [] at h hiv hkey htaglen
  have htag : (tagOf (some params)).isSome = (locate params₃ aeadTag).isSome := by
    rw [htaglen, hkey, hiv, tagOf, Option.bind_some]
  split at h
  case h_1 hnone =>
    simp only [Prod.mk.injEq, Exec.mk.injEq] at h
    obtain ⟨-, -, hnext, htrace, hraised⟩ := h
    refine .quiet (fun hsome => ?_) htrace.symm (by simp [← hraised]) hnext.symm
    rw [htag, hnone] at hsome
    cases hsome
  case h_2 param hsome =>
    split at h
    case isTrue =>
      simp only [Exec.raise, Prod.mk.injEq, Exec.mk.injEq] at h
      obtain ⟨hret, -, hnext, htrace, hraised⟩ := h
      exact .quiet (fun _ _ => hret.symm) htrace.symm (by simp [← hraised]) hnext.symm
    case isFalse hstate =>
      obtain ⟨⟨hencrypt, hphase⟩, hinit⟩ :
          (ctx.encrypt = true ∧ ctx.phase = .finalized) ∧ ctx.needsReinit = false := by
        simpa using hstate
      generalize hfetch : getEncryptionTag ans param (Exec.start ctx) = r at h
      obtain ⟨ret, param', fetched, trace, raised⟩ := r
      simp only [Prod.mk.injEq, Exec.mk.injEq] at h
      obtain ⟨rfl, -, rfl, rfl, rfl⟩ := h
      obtain ⟨htrace, hraised, hnext⟩ | ⟨reply, htrace, hreply⟩ := getEncryptionTag_cases hfetch
      · refine .quiet (fun _ hpoisoned => ?_) htrace hraised hnext
        rw [hinit] at hpoisoned
        cases hpoisoned
      · obtain ⟨hbad, hret, hraised, hnext⟩ | ⟨hok, hsize, hret, hraised, hnext⟩ := hreply
        · exact .failed reply hinit hencrypt hphase hbad hret htrace hraised hnext
        · exact .fetched reply hinit hencrypt hphase hok hsize hret htrace hraised hnext

theorem validateSetParams_of_true {lib : Libcrypto} {ctx : Ctx} {params : List Param}
    (h : (validateSetParams lib ctx params).1 = true) :
    validateSetParams lib ctx params = (true, locate params aeadTag) ∧
      ∀ tag, locate params aeadTag = some tag →
        ctx.encrypt = false ∧ ctx.refuses = false ∧ isTag tag = true := by
  unfold validateSetParams at h ⊢
  split at h
  case isTrue => cases h
  case isFalse hdup =>
    split at h
    case isTrue => cases h
    case isFalse hlengths =>
      rw [if_neg hdup, if_neg hlengths]
      cases htag : locate params aeadTag with
      | none => exact ⟨rfl, by simp⟩
      | some tag =>
          simp only [htag, Bool.not_eq_true', Bool.or_eq_false_iff] at h
          obtain ⟨⟨⟨hencrypt, hinit⟩, hphase⟩, hok⟩ := h
          refine ⟨?_, fun tag' htag' => ?_⟩
          · simp only [hencrypt, hinit, hphase, hok, Bool.or_false, Bool.not_false]
          · obtain rfl := Option.some.inj htag'
            refine ⟨hencrypt, Ctx.refuses_eq_false_iff.mpr ⟨hinit, ?_⟩, by simpa using hok⟩
            cases hphase' : ctx.phase <;> simp_all

theorem setCtxParams_of_invalid {lib : Libcrypto} {params : List Param} {ctx : Ctx}
    (ans : Answers)
    (h : ¬ (hasForbiddenLegacyParam params = false ∧
      (validateSetParams lib ctx params).1 = true)) :
    setCtxParams lib ans (some params) ctx =
      (false, ⟨if (locate params aeadTag).isSome then ctx.clearTag else ctx, [],
        [.invalidParameter]⟩) := by
  simp only [setCtxParams, Exec.start_modify, Exec.ite_start]
  cases hforbidden : hasForbiddenLegacyParam params with
  | true => rfl
  | false =>
      -- the tag flag, cleared before, does not matter to the validation
      have hcleared : validateSetParams lib
          (if (locate params aeadTag).isSome then ctx.clearTag else ctx) params =
          validateSetParams lib ctx params := by
        split <;> rfl
      rw [hcleared]
      generalize validateSetParams lib ctx params = r at h
      obtain ⟨valid, looked⟩ := r
      cases valid with
      | false => rfl
      | true => exact absurd ⟨hforbidden, rfl⟩ h

theorem setCtxParams_of_tagless {lib : Libcrypto} {params : List Param} {ctx : Ctx}
    (ans : Answers) (hforbidden : hasForbiddenLegacyParam params = false)
    (hvalid : (validateSetParams lib ctx params).1 = true) (htag : locate params aeadTag = none) :
    setCtxParams lib ans (some params) ctx = (true, ⟨ctx, [], []⟩) := by
  have hlooked := (validateSetParams_of_true hvalid).1
  rw [htag] at hlooked
  simp [setCtxParams, hforbidden, htag, hlooked]

theorem setCtxParams_of_valid {lib : Libcrypto} {params : List Param} {ctx : Ctx} {tag : Param}
    (ans : Answers) (hforbidden : hasForbiddenLegacyParam params = false)
    (hvalid : (validateSetParams lib ctx params).1 = true)
    (htag : locate params aeadTag = some tag) :
    setCtxParams lib ans (some params) ctx =
      (ans.setParams, ⟨if ans.setParams then { ctx with decryptTagCurrent := true } else ctx.poison,
        [.setParams (filtered (locate params ivlen) (some tag)) ans.setParams], []⟩) := by
  have hlooked : validateSetParams lib ctx.clearTag params = (true, some tag) := by
    rw [← htag]
    exact (validateSetParams_of_true hvalid).1
  simp only [setCtxParams, htag, Option.isSome_some, hforbidden, if_true, Exec.start_modify,
    hlooked, Bool.false_eq_true, if_false]
  cases ans.setParams <;> rfl

theorem setCtxParams_cases {lib : Libcrypto} {ans : Answers} {params : Option (List Param)}
    {ctx next : Ctx} {ev : Event}
    (h : setCtxParams lib ans params ctx = (ev.ret, ⟨next, ev.trace, ev.raised⟩)) :
    SetCase ctx params ev next := by
  cases params with
  | none =>
      simp only [setCtxParams, Prod.mk.injEq, Exec.mk.injEq] at h
      obtain ⟨-, hnext, htrace, hraised⟩ := h
      exact .quiet (by simp [tagOf]) htrace.symm (by simp [← hraised]) hnext.symm
  | some params =>
      by_cases hvalid : hasForbiddenLegacyParam params = false ∧
          (validateSetParams lib ctx params).1 = true
      · obtain ⟨hforbidden, hvalid⟩ := hvalid
        cases htag : locate params aeadTag with
        | none =>
            rw [setCtxParams_of_tagless ans hforbidden hvalid htag] at h
            simp only [Prod.mk.injEq, Exec.mk.injEq] at h
            obtain ⟨-, hnext, htrace, hraised⟩ := h
            exact .quiet (by simp [tagOf, htag]) htrace.symm (by simp [← hraised])
              (by simpa [tagOf, htag] using hnext.symm)
        | some tag =>
            obtain ⟨hencrypt, hrefuses, hok⟩ := (validateSetParams_of_true hvalid).2 tag htag
            rw [setCtxParams_of_valid ans hforbidden hvalid htag] at h
            simp only [Prod.mk.injEq, Exec.mk.injEq] at h
            obtain ⟨hret, hnext, htrace, hraised⟩ := h
            have htagOf : tagOf (some params) = some tag := htag
            cases hset : ans.setParams with
            | false =>
                rw [hset] at hret hnext htrace
                exact .failed tag htagOf hok hencrypt hrefuses hret.symm htrace.symm hraised.symm
                  hnext.symm
            | true =>
                rw [hset] at hret hnext htrace
                exact .done tag htagOf hok hencrypt hrefuses hret.symm htrace.symm hraised.symm
                  hnext.symm
      · rw [setCtxParams_of_invalid ans hvalid] at h
        simp only [Prod.mk.injEq, Exec.mk.injEq] at h
        obtain ⟨hret, hnext, htrace, hraised⟩ := h
        exact .quiet (fun _ => hret.symm) htrace.symm (by simp [← hraised]) hnext.symm

/-! ### Calls -/

/-- What a call can do to a context. -/
inductive StepCase (ctx : Ctx) (ev : Event) (next : Ctx) : Prop
  | init {encrypt : Bool} {key iv : Buffer} {params : Option (List Param)}
      (hcall : ev.call = .init encrypt key iv params)
      (hcase : InitCase ctx encrypt key iv params ev next)
  | update {out hasOutl : Bool} {outsize : ℕ} {input : Buffer}
      (hcall : ev.call = .update out hasOutl outsize input)
      (hcase : UpdateCase ctx out hasOutl outsize input ev next)
  | final {hasOutl : Bool} (hcall : ev.call = .final hasOutl)
      (hcase : FinalCase ctx hasOutl ev next)
  | getCtxParams {params : Option (List Param)} (hcall : ev.call = .getCtxParams params)
      (hcase : GetCase ctx params ev next)
  | setCtxParams {params : Option (List Param)} (hcall : ev.call = .setCtxParams params)
      (hcase : SetCase ctx params ev next)

theorem Cipher.step_cases {lib : Libcrypto} {ctx next : Ctx} {ev : Event}
    (h : Cipher.Step lib ctx ev next) : StepCase ctx ev next := by
  obtain ⟨ans, h⟩ := h
  obtain ⟨call, ret, outl, after, raised, trace⟩ := ev
  cases call with
  | init encrypt key iv params =>
      simp only [step] at h
      generalize hinit : Outer.init lib ans encrypt key iv params ctx = r at h
      obtain ⟨ret', e⟩ := r
      obtain ⟨hev, rfl⟩ := Prod.mk.inj h
      simp only [Event.mk.injEq] at hev
      obtain ⟨-, rfl, -, -, rfl, rfl⟩ := hev
      refine .init rfl ?_
      obtain ⟨next, reason, heq, hreason, hrejects⟩ | ⟨hadmits, prepared, hprepared, heq⟩ :=
        init_cases lib ans encrypt key iv params ctx
      · rw [hinit] at heq
        obtain ⟨rfl, rfl⟩ := Prod.mk.inj heq
        exact .rejected rfl rfl (by simpa using hreason.symm) hrejects
      · exact initInner_cases hadmits hprepared (heq.symm.trans hinit)
  | update out hasOutl outsize input =>
      simp only [step] at h
      generalize hupdate : Outer.update ans out hasOutl outsize input ctx = r at h
      obtain ⟨ret', outl', e⟩ := r
      obtain ⟨hev, rfl⟩ := Prod.mk.inj h
      simp only [Event.mk.injEq] at hev
      obtain ⟨-, rfl, -, -, rfl, rfl⟩ := hev
      exact .update rfl (update_cases hupdate)
  | final hasOutl =>
      simp only [step] at h
      generalize hfinal : Outer.final ans hasOutl ctx = r at h
      obtain ⟨ret', outl', e⟩ := r
      obtain ⟨hev, rfl⟩ := Prod.mk.inj h
      simp only [Event.mk.injEq] at hev
      obtain ⟨-, rfl, -, -, rfl, rfl⟩ := hev
      exact .final rfl (final_cases hfinal)
  | getCtxParams params =>
      simp only [step] at h
      generalize hget : Outer.getCtxParams lib ans params ctx = r at h
      obtain ⟨ret', after', e⟩ := r
      obtain ⟨hev, rfl⟩ := Prod.mk.inj h
      simp only [Event.mk.injEq] at hev
      obtain ⟨-, rfl, -, -, rfl, rfl⟩ := hev
      exact .getCtxParams rfl (getCtxParams_cases hget)
  | setCtxParams params =>
      simp only [step] at h
      generalize hset : Outer.setCtxParams lib ans params ctx = r at h
      obtain ⟨ret', e⟩ := r
      obtain ⟨hev, rfl⟩ := Prod.mk.inj h
      simp only [Event.mk.injEq] at hev
      obtain ⟨-, rfl, -, -, rfl, rfl⟩ := hev
      exact .setCtxParams rfl (setCtxParams_cases hset)

/-! ### What only an init changes -/

/-- Direction, keys and limit of a context. -/
structure Keys where
  encrypt : Bool
  keyValid : Bool
  currentKey : Bytes
  currentKeyValid : Bool
  currentKeyChanged : Bool
  usageKey : Bytes
  usageKeyValid : Bool
  recordLimit : ℤ

def Ctx.keys (ctx : Ctx) : Keys where
  encrypt := ctx.encrypt
  keyValid := ctx.keyValid
  currentKey := ctx.currentKey
  currentKeyValid := ctx.currentKeyValid
  currentKeyChanged := ctx.currentKeyChanged
  usageKey := ctx.usageKey
  usageKeyValid := ctx.usageKeyValid
  recordLimit := ctx.recordLimit

def ExtCall.isInit : ExtCall → Bool
  | init .. => true
  | _ => false

theorem Reserved.frame {ctx reserved : Ctx} {trace : List ExtCall}
    (h : Reserved ctx trace reserved) :
    (∃ records isReserved, reserved = { ctx with
      encryptedRecords := records, recordReserved := isReserved }) ∧
    ∀ c ∈ trace, c.isInner = false := by
  cases h with
  | decrypt => exact ⟨⟨_, _, rfl⟩, by simp⟩
  | again => exact ⟨⟨_, _, rfl⟩, by simp⟩
  | counted => exact ⟨⟨_, _, rfl⟩, by simp [ExtCall.isInner]⟩

theorem isInit_of_not_isInner {c : ExtCall} (h : c.isInner = false) : c.isInit = false := by
  cases c <;> first | rfl | cases h

theorem not_isInit_snoc {trace : List ExtCall} {last : ExtCall}
    (h : ∀ c ∈ trace, c.isInit = false) (hlast : last.isInit = false) :
    ∀ c ∈ trace ++ [last], c.isInit = false := by
  intro c hc
  obtain hc | hc := List.mem_append.mp hc
  · exact h c hc
  · rw [List.mem_singleton.mp hc]
    exact hlast

theorem Inject.frame {ctx next : Ctx} {trace : List ExtCall} {raised : List Reason} {ok : Bool}
    (h : Inject ctx trace raised ok next) :
    next.keys = ctx.keys ∧ ∀ c ∈ trace, c.isInit = false := by
  cases h with
  | active => exact ⟨rfl, by simp⟩
  | exhausted => exact ⟨rfl, by simp⟩
  | atomicFailed => exact ⟨rfl, by simp [ExtCall.isInit]⟩
  | overLimit => exact ⟨rfl, by simp [ExtCall.isInit]⟩
  | manifestFailed reply raised hphase hr =>
      obtain ⟨⟨records, isReserved, rfl⟩, hadds⟩ := hr.frame
      exact ⟨rfl, not_isInit_snoc (fun c hc => isInit_of_not_isInner (hadds c hc)) rfl⟩
  | injected hphase hr =>
      obtain ⟨⟨records, isReserved, rfl⟩, hadds⟩ := hr.frame
      exact ⟨rfl, not_isInit_snoc (fun c hc => isInit_of_not_isInner (hadds c hc)) rfl⟩

theorem UpdateCase.frame {ctx next : Ctx} {ev : Event} {out hasOutl : Bool} {outsize : ℕ}
    {input : Buffer}
    (h : UpdateCase ctx out hasOutl outsize input ev next) :
    next.keys = ctx.keys ∧ ∀ c ∈ ev.trace, c.isInit = false := by
  cases h with
  | refused _ _ htrace _ hnext => exact ⟨by rw [hnext], by simp [htrace]⟩
  | empty _ _ _ htrace _ hnext => exact ⟨by rw [hnext], by simp [htrace]⟩
  | injectFailed _ _ _ _ hinject => exact hinject.frame
  | failed _ _ _ _ _ hinject _ _ htrace _ hnext =>
      rw [hnext, htrace]
      exact ⟨hinject.frame.1, not_isInit_snoc hinject.frame.2 rfl⟩
  | done _ _ _ _ _ hinject _ htrace _ hnext =>
      rw [hnext, htrace]
      exact ⟨hinject.frame.1, not_isInit_snoc hinject.frame.2 rfl⟩

theorem FinalCase.frame {ctx next : Ctx} {ev : Event} {hasOutl : Bool}
    (h : FinalCase ctx hasOutl ev next) :
    next.keys = ctx.keys ∧ ∀ c ∈ ev.trace, c.isInit = false := by
  cases h with
  | refused _ _ htrace _ hnext => exact ⟨by rw [hnext], by simp [htrace]⟩
  | poisoned _ _ _ htrace _ hnext => exact ⟨by rw [hnext]; rfl, by simp [htrace]⟩
  | injectFailed _ _ _ hinject => exact hinject.frame
  | failed _ _ _ _ hinject _ _ htrace _ hnext =>
      rw [hnext, htrace]
      exact ⟨hinject.frame.1, not_isInit_snoc hinject.frame.2 rfl⟩
  | done _ _ _ hinject _ htrace _ hnext =>
      rw [hnext, htrace]
      exact ⟨hinject.frame.1, not_isInit_snoc hinject.frame.2 rfl⟩

/-- A call that is no init keeps direction, keys and limit, and asks for no inner init. -/
theorem StepCase.frame {ctx next : Ctx} {ev : Event} (h : StepCase ctx ev next) :
    (∃ encrypt key iv params, ev.call = .init encrypt key iv params ∧
      InitCase ctx encrypt key iv params ev next) ∨
    ((∀ encrypt key iv params, ev.call ≠ .init encrypt key iv params) ∧
      next.keys = ctx.keys ∧ ∀ c ∈ ev.trace, c.isInit = false) := by
  cases h with
  | init hcall hcase => exact .inl ⟨_, _, _, _, hcall, hcase⟩
  | update hcall hcase => exact .inr ⟨by simp [hcall], hcase.frame⟩
  | final hcall hcase => exact .inr ⟨by simp [hcall], hcase.frame⟩
  | getCtxParams hcall hcase =>
      refine .inr ⟨by simp [hcall], ?_⟩
      cases hcase with
      | quiet _ htrace _ hnext => exact ⟨by rw [hnext], by simp [htrace]⟩
      | failed _ _ _ _ _ _ htrace _ hnext =>
          exact ⟨by rw [hnext]; rfl, by simp [htrace, ExtCall.isInit]⟩
      | fetched _ _ _ _ _ _ _ htrace _ hnext =>
          exact ⟨by rw [hnext], by simp [htrace, ExtCall.isInit]⟩
  | setCtxParams hcall hcase =>
      refine .inr ⟨by simp [hcall], ?_⟩
      cases hcase with
      | quiet _ htrace _ hnext => exact ⟨by rw [hnext]; split <;> rfl, by simp [htrace]⟩
      | failed _ _ _ _ _ _ htrace _ hnext =>
          exact ⟨by rw [hnext]; rfl, by simp [htrace, ExtCall.isInit]⟩
      | done _ _ _ _ _ _ htrace _ hnext =>
          exact ⟨by rw [hnext]; rfl, by simp [htrace, ExtCall.isInit]⟩

/-- What a call does to the keys, and what it asks of the inner context on the way. -/
inductive KeyCase (ctx : Ctx) (ev : Event) (next : Ctx) : Prop
  | kept (htrace : ∀ c ∈ ev.trace, c.isInit = false) (hkeys : next.keys = ctx.keys)
  | dropped {encrypt ok : Bool} {key iv : Buffer} {params : Option (List Param)}
      (rest : List ExtCall) (hrest : ∀ c ∈ rest, c.isInner = false)
      (htrace : ev.trace = initRequest encrypt key iv params ok :: rest)
      (hkeys : next.keys = (ctx.dropKey key).keys)
  | taken {encrypt : Bool} {key iv : Buffer} {params : Option (List Param)}
      (locks : List ExtCall) (hlocks : ∀ c ∈ locks, c.isInner = false)
      (htrace : ev.trace =
        initRequest encrypt key iv params true :: (recordTrace key true ++ locks))
      (hkeys : next.keys = (ctx.takeKey encrypt key).keys ∨
        next.keys = (ctx.takeKey encrypt key).installKey.keys)

/-- Contexts that differ in their record only have the same keys. -/
theorem Ctx.keys_eq_of_record {ctx next : Ctx} (h : next.invalidateRecord = ctx.invalidateRecord) :
    next.keys = ctx.keys := by
  have hkeys : next.invalidateRecord.keys = ctx.invalidateRecord.keys := congrArg Ctx.keys h
  exact hkeys

theorem StepCase.keyCase {ctx next : Ctx} {ev : Event} (h : StepCase ctx ev next) :
    KeyCase ctx ev next := by
  obtain ⟨encrypt, key, iv, params, -, hinit⟩ | ⟨-, hkeys, htrace⟩ := h.frame
  case inr => exact .kept htrace hkeys
  cases hinit with
  | rejected _ htrace _ hrejects =>
      refine .kept ?_ (Ctx.keys_eq_of_record hrejects.invalidateRecord_eq)
      simp [htrace]
  | innerFailed _ _ htrace _ hnext =>
      exact .dropped [] (by simp) htrace (by rw [hnext]; rfl)
  | recordFailed _ _ _ htrace _ hnext =>
      exact .dropped _ (recordTrace_not_isInner key false) htrace (by rw [hnext]; rfl)
  | installFailed locks _ _ _ hlocks _ htrace _ hnext =>
      exact .taken locks hlocks htrace (.inl (by rw [hnext]; rfl))
  | staged _ _ _ htrace _ hnext =>
      have htrace : ev.trace =
          initRequest encrypt key iv params true :: (recordTrace key true ++ []) := by
        rw [htrace, List.append_nil]
      exact .taken [] (by simp) htrace (.inl (by rw [hnext]; rfl))
  | begun locks _ _ hlocks _ htrace _ hnext =>
      refine .taken locks hlocks htrace ?_
      rw [hnext]
      cases encrypt with
      | false => exact .inl rfl
      | true => exact .inr rfl

end G301.Outer
