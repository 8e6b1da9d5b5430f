import G301.Outer.Records
import G301.Outer.Execution

/-! # Fail-closed poisoning

After a failure of the inner context, or a refused final of a live record, the context
answers nothing but failure until an init with an IV succeeds (`poisoned_refuses`).  One
flag carries it: every exit of that kind sets `needsReinit` (`needsReinit_of_trips`), no
call but such an init clears it, and every entry point checks it (`poisoned_cases`). -/

namespace G301.Outer

open Lts Param

/-- The inner context failed, or returned another length than its contract has. -/
def ExtCall.broken : ExtCall → Bool
  | init _ _ _ _ ok => !ok
  | update _ data reply => !reply.ok || decide (reply.outl ≠ data.length)
  | final reply => !reply.ok || decide (reply.outl ≠ 0)
  | getParams reply => !reply.ok || decide (reply.returnSize ≠ tagLength)
  | setParams _ ok => !ok
  | writeLock _ | atomicAdd _ => false

/-- A call that poisons: an inner failure, or a final refused on a pending or active record. -/
def Event.Trips (ctx : Ctx) (ev : Event) : Prop :=
  (∃ c ∈ ev.trace, c.broken = true) ∨
    ((∃ hasOutl, ev.call = .final hasOutl) ∧ ev.ret = false ∧
      (ctx.phase = .manifestPending ∨ ctx.phase = .active))

/-- An update, a final, or a call that asks for the tag or carries one. -/
def Event.needsRecord (ev : Event) : Bool :=
  match ev.call with
  | .init .. => false
  | .update .. => true
  | .final _ => true
  | .getCtxParams params => (tagOf params).isSome
  | .setCtxParams params => (tagOf params).isSome

theorem broken_of_not_isInner {c : ExtCall} (h : c.isInner = false) : c.broken = false := by
  cases c <;> first | rfl | cases h

/-- Every request of the trace keeps its contract. -/
def Sound (trace : List ExtCall) : Prop := ∀ c ∈ trace, c.broken = false

theorem Sound.nil : Sound [] := by simp [Sound]

theorem Sound.cons {c : ExtCall} {trace : List ExtCall} (hc : c.broken = false)
    (h : Sound trace) : Sound (c :: trace) := by
  intro x hx
  obtain rfl | hx := List.mem_cons.mp hx
  · exact hc
  · exact h x hx

theorem Sound.append {trace trace' : List ExtCall} (h : Sound trace) (h' : Sound trace') :
    Sound (trace ++ trace') := by
  intro c hc
  obtain hc | hc := List.mem_append.mp hc
  · exact h c hc
  · exact h' c hc

theorem Sound.of_not_isInner {trace : List ExtCall} (h : ∀ c ∈ trace, c.isInner = false) :
    Sound trace := fun c hc => broken_of_not_isInner (h c hc)

theorem Sound.of_inject {ctx next : Ctx} {trace : List ExtCall} {raised : List Reason}
    (h : Inject ctx trace raised true next) : Sound trace := by
  obtain ⟨-, ⟨-, rfl⟩ | ⟨-, adds, hadds, rfl⟩⟩ := h.of_true
  · exact .nil
  · exact (Sound.of_not_isInner hadds).append (.cons (by decide +kernel) .nil)

theorem Sound.recordTrace (key : Buffer) (ok : Bool) : Sound (recordTrace key ok) := by
  cases key <;> simp [Sound, Outer.recordTrace, Buffer.isNull, ExtCall.broken]

/-- A call does not poison when its requests keep their contracts and it is no refused final. -/
theorem Event.not_trips {ctx : Ctx} {ev : Event} (hsound : Sound ev.trace)
    (hfinal : (∀ hasOutl, ev.call ≠ .final hasOutl) ∨ ev.ret = true) : ¬ ev.Trips ctx := by
  rintro (⟨c, hc, hbroken⟩ | ⟨⟨hasOutl, hcall⟩, hret, -⟩)
  · rw [hsound c hc] at hbroken
    cases hbroken
  · obtain hother | hok := hfinal
    · exact hother hasOutl hcall
    · rw [hret] at hok
      cases hok

theorem needsReinit_of_trips {ctx next : Ctx} {ev : Event} (hcase : StepCase ctx ev next)
    (htrips : ev.Trips ctx) : next.needsReinit = true := by
  cases hcase with
  | init hcall hcase =>
      have hno (hsound : Sound ev.trace) : next.needsReinit = true :=
        absurd htrips (Event.not_trips hsound (.inl (by simp [hcall])))
      cases hcase with
      | rejected _ htrace => exact hno (htrace ▸ .nil)
      | innerFailed _ _ _ _ hnext => rw [hnext]; rfl
      | recordFailed _ _ _ _ _ hnext => rw [hnext]; rfl
      | installFailed _ _ _ _ _ _ _ _ hnext => rw [hnext]; rfl
      | staged _ _ _ htrace => exact hno (htrace ▸ .cons rfl (.recordTrace _ _))
      | begun _ _ _ hlocks _ htrace =>
          exact hno (htrace ▸ .cons rfl ((Sound.recordTrace _ _).append (.of_not_isInner hlocks)))
  | update hcall hcase =>
      have hno (hsound : Sound ev.trace) : next.needsReinit = true :=
        absurd htrips (Event.not_trips hsound (.inl (by simp [hcall])))
      cases hcase with
      | refused _ _ htrace => exact hno (htrace ▸ .nil)
      | empty _ _ _ htrace => exact hno (htrace ▸ .nil)
      | injectFailed _ _ _ _ hinject => exact hinject.refuses_of_false
      | failed _ _ _ _ _ _ _ _ _ _ hnext => rw [hnext]; rfl
      | done data _ _ _ _ hinject _ htrace =>
          exact hno (htrace ▸ (Sound.of_inject hinject).append
            (.cons (by simp [ExtCall.broken]) .nil))
  | final hcall hcase =>
      cases hcase with
      | refused hrefuses _ htrace _ hnext =>
          obtain ⟨c, hc, -⟩ | ⟨-, -, hphase⟩ := htrips
          · simp [htrace] at hc
          · rw [hnext]
            by_contra hinit
            have hlive := Ctx.refuses_eq_false_iff.mpr ⟨by simpa using hinit, hphase⟩
            rw [hrefuses] at hlive
            cases hlive
      | poisoned _ _ _ _ _ hnext => rw [hnext]; rfl
      | injectFailed _ _ _ hinject => exact hinject.refuses_of_false
      | failed _ _ _ _ _ _ _ _ _ hnext => rw [hnext]; rfl
      | done _ _ _ hinject hret htrace =>
          have hsound : Sound ev.trace :=
            htrace ▸ (Sound.of_inject hinject).append (.cons rfl .nil)
          exact absurd htrips (Event.not_trips hsound (.inr hret))
  | getCtxParams hcall hcase =>
      have hno (hsound : Sound ev.trace) : next.needsReinit = true :=
        absurd htrips (Event.not_trips hsound (.inl (by simp [hcall])))
      cases hcase with
      | quiet _ htrace => exact hno (htrace ▸ .nil)
      | failed _ _ _ _ _ _ _ _ hnext => rw [hnext]; rfl
      | fetched reply _ _ _ hok hsize _ htrace =>
          exact hno (htrace ▸ .cons (by simp [ExtCall.broken, hok, hsize]) .nil)
  | setCtxParams hcall hcase =>
      have hno (hsound : Sound ev.trace) : next.needsReinit = true :=
        absurd htrips (Event.not_trips hsound (.inl (by simp [hcall])))
      cases hcase with
      | quiet _ htrace => exact hno (htrace ▸ .nil)
      | failed _ _ _ _ _ _ _ _ hnext => rw [hnext]; rfl
      | done _ _ _ _ _ _ htrace => exact hno (htrace ▸ .cons rfl .nil)

theorem refuses_of_needsReinit {ctx : Ctx} (h : ctx.needsReinit = true) : ctx.refuses = true := by
  simp [Ctx.refuses, h]

/-- In a poisoned context nothing that needs a record gets anywhere, and only a new record ends
that. -/
theorem poisoned_cases {ctx next : Ctx} {ev : Event} (hcase : StepCase ctx ev next)
    (hpoisoned : ctx.needsReinit = true) (hbegins : ev.begins = false) :
    next.needsReinit = true ∧ (ev.needsRecord = true → ev.ret = false ∧ ev.trace = []) := by
  have hrefuses : ctx.refuses = true := refuses_of_needsReinit hpoisoned
  cases hcase with
  | @init encrypt key iv params hcall hcase =>
      refine ⟨?_, by simp [Event.needsRecord, hcall]⟩
      cases hcase with
      | rejected _ _ _ hrejects =>
          have hsame := congrArg Ctx.needsReinit hrejects.invalidateRecord_eq
          exact Eq.trans hsame hpoisoned
      | innerFailed _ _ _ _ hnext => rw [hnext]; rfl
      | recordFailed _ _ _ _ _ hnext => rw [hnext]; rfl
      | installFailed _ _ _ _ _ _ _ _ hnext => rw [hnext]; rfl
      | staged _ _ _ _ _ hnext =>
          rw [hnext]
          cases key <;> exact hpoisoned
      | begun _ _ hiv _ hret => simp [Event.begins, hcall, hret, hiv] at hbegins
  | update _ hcase =>
      obtain ⟨hret, htrace, hnext⟩ := hcase.of_refuses hrefuses
      exact ⟨by rw [hnext, hpoisoned], fun _ => ⟨hret, htrace⟩⟩
  | final _ hcase =>
      obtain ⟨hret, htrace, hnext⟩ := hcase.of_refuses hrefuses
      exact ⟨by rw [hnext, hpoisoned], fun _ => ⟨hret, htrace⟩⟩
  | getCtxParams hcall hcase =>
      cases hcase with
      | quiet hblocked htrace _ hnext =>
          refine ⟨by rw [hnext, hpoisoned], fun hneeds => ⟨hblocked ?_ hpoisoned, htrace⟩⟩
          rwa [Event.needsRecord, hcall] at hneeds
      | failed _ hinit => simp [hpoisoned] at hinit
      | fetched _ hinit => simp [hpoisoned] at hinit
  | setCtxParams hcall hcase =>
      cases hcase with
      | quiet htag htrace _ hnext =>
          refine ⟨?_, fun hneeds => ⟨htag ?_, htrace⟩⟩
          · rw [hnext]
            split <;> exact hpoisoned
          · rwa [Event.needsRecord, hcall] at hneeds
      | failed _ _ _ _ hlive => simp [hrefuses] at hlive
      | done _ _ _ _ hlive => simp [hrefuses] at hlive

/-- Until a new record begins, a poisoned context stays poisoned and refuses. -/
theorem poisoned_run {lib : Libcrypto} {ctx after : Ctx} {h : List Event}
    (hpoisoned : ctx.needsReinit = true) (run : Path (Cipher.Step lib) ctx h after)
    (hbegins : ∀ ev ∈ h, ev.begins = false) :
    after.needsReinit = true ∧
      ∀ ev ∈ h, ev.needsRecord = true → ev.ret = false ∧ ev.trace = [] := by
  refine run.until (p := fun ev => ev.begins = true)
    (P := fun h ctx => ctx.needsReinit = true ∧
      ∀ ev ∈ h, ev.needsRecord = true → ev.ret = false ∧ ev.trace = []) ?_ ?_ ?_
  · exact ⟨hpoisoned, by simp⟩
  · rintro h ctx ev next ⟨hctx, hall⟩ hev hstep
    obtain ⟨hnext, hrefused⟩ :=
      poisoned_cases (Cipher.step_cases hstep) hctx (by simpa using hev)
    refine ⟨hnext, fun x hx => ?_⟩
    obtain hx | hx := List.mem_append.mp hx
    · exact hall x hx
    · rw [List.mem_singleton.mp hx]
      exact hrefused
  · intro ev hev
    simp [hbegins ev hev]

/-- **Fail-closed poisoning.**  After an inner failure or a refused final of a live record, and
until an init with an IV succeeds, every update, every final and every call that asks for the
tag or carries one fails and asks nothing of the inner context. -/
theorem poisoned_refuses {lib : Libcrypto} {ctx tripped after : Ctx} {trip : Event}
    {h : List Event} (htrip : Cipher.Step lib ctx trip tripped) (htrips : trip.Trips ctx)
    (run : Path (Cipher.Step lib) tripped h after) (hbegins : ∀ ev ∈ h, ev.begins = false) :
    ∀ ev ∈ h, ev.needsRecord = true → ev.ret = false ∧ ev.trace = [] :=
  (poisoned_run (needsReinit_of_trips (Cipher.step_cases htrip) htrips) run hbegins).2

/-- The inner final fails, an init without an IV succeeds, an empty update follows. -/
theorem poisoned_refuses_failedFinal :
    let trip := Cipher.step littleEndian activeRecord { compliant 0 with final := ⟨false, 0⟩ }
      (.final true)
    let run := exec (Cipher.move littleEndian) trip.2
      [(compliant 0, .init true keyB (.null 0) none),
        (compliant 0, .update true true 0 (.bytes []))]
    run.1.map Event.ret = [true, false] ∧
      ∀ ev ∈ run.1, ev.needsRecord = true → ev.ret = false ∧ ev.trace = [] := by
  refine ⟨by decide +kernel, ?_⟩
  refine poisoned_refuses (Cipher.step_self _ _ _ _) (.inl ⟨.final ⟨false, 0⟩, ?_, rfl⟩)
    (Cipher.path_execute _ _ _) ?_
  · decide +kernel
  · decide +kernel

end G301.Outer
