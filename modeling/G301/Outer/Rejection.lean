import G301.Outer.Records
import G301.Outer.Execution

/-! # Rejected calls

A call that fails before the inner context is asked, and not for the usage limit, leaves
direction, keys and count as they are and can only take the record or its tag away
(`Narrows`, `narrows_of_rejected`).  An init that fails and carries a tag with a key or with a
change of direction takes the record away (`init_revokes`), and without a record nothing
succeeds that needs one until an init with an IV does (`refuses_run`).

`rejections_narrow` has both, for any context, reached or not. -/

namespace G301.Outer

open Lts Param

/-! ### What a rejected call leaves -/

structure Narrows (ctx next : Ctx) : Prop where
  keys : next.keys = ctx.keys
  directionSet : next.directionSet = ctx.directionSet
  encryptedRecords : next.encryptedRecords = ctx.encryptedRecords
  usageExhausted : next.usageExhausted = ctx.usageExhausted
  needsReinit : ctx.needsReinit = true → next.needsReinit = true
  phase : next.phase = ctx.phase ∨ next.phase = .noRecord
  tag : next.decryptTagCurrent = ctx.decryptTagCurrent ∨ next.decryptTagCurrent = false

namespace Narrows

variable {ctx next : Ctx}

theorem refl (ctx : Ctx) : Narrows ctx ctx :=
  ⟨rfl, rfl, rfl, rfl, id, .inl rfl, .inl rfl⟩

theorem clearTag (ctx : Ctx) : Narrows ctx ctx.clearTag :=
  ⟨rfl, rfl, rfl, rfl, id, .inl rfl, .inr rfl⟩

theorem poison (ctx : Ctx) : Narrows ctx ctx.poison :=
  ⟨rfl, rfl, rfl, rfl, fun _ => rfl, .inl rfl, .inr rfl⟩

theorem invalidateRecord (ctx : Ctx) : Narrows ctx ctx.invalidateRecord :=
  ⟨rfl, rfl, rfl, rfl, id, .inr rfl, .inr rfl⟩

theorem trans {after : Ctx} (h : Narrows ctx next) (h' : Narrows next after) :
    Narrows ctx after where
  keys := h'.keys.trans h.keys
  directionSet := h'.directionSet.trans h.directionSet
  encryptedRecords := h'.encryptedRecords.trans h.encryptedRecords
  usageExhausted := h'.usageExhausted.trans h.usageExhausted
  needsReinit := h'.needsReinit ∘ h.needsReinit
  phase := by
    obtain hphase | hphase := h'.phase
    · rw [hphase]
      exact h.phase
    · exact .inr hphase
  tag := by
    obtain htag | htag := h'.tag
    · rw [htag]
      exact h.tag
    · exact .inr htag

theorem of_rejects {hasTag : Bool} (h : ctx.Rejects hasTag next) : Narrows ctx next := by
  obtain ⟨rfl | rfl | rfl, -⟩ := h
  · exact .refl next
  · exact .clearTag ctx
  · exact .invalidateRecord ctx

/-- An injection that fails without asking the inner context fails for the limit or because
`CRYPTO_atomic_add` does. -/
theorem of_inject {trace : List ExtCall} {raised : List Reason}
    (h : Inject ctx trace raised false next) (htrace : ∀ c ∈ trace, c.isInner = false)
    (hraised : .keyUsageLimitExceeded ∉ raised) : Narrows ctx next := by
  cases h with
  | exhausted => simp at hraised
  | atomicFailed => exact (poison ctx).trans (.invalidateRecord ctx.poison)
  | overLimit => simp at hraised
  | manifestFailed reply =>
      have hinner := htrace (.update false manifest reply) (by simp)
      cases hinner

end Narrows

theorem narrows_of_rejected {ctx next : Ctx} {ev : Event} (h : StepCase ctx ev next)
    (hret : ev.ret = false) (htrace : ∀ c ∈ ev.trace, c.isInner = false)
    (hraised : .keyUsageLimitExceeded ∉ ev.raised) : Narrows ctx next := by
  have hasked {c : ExtCall} (hc : c ∈ ev.trace) (hinner : c.isInner = true) :
      Narrows ctx next := by
    rw [htrace c hc] at hinner
    cases hinner
  have hfails (hok : ev.ret = true) : Narrows ctx next := by
    rw [hret] at hok
    cases hok
  cases h with
  | init _ hcase =>
      cases hcase with
      | rejected _ _ _ hrejects => exact .of_rejects hrejects
      | innerFailed _ _ heq => exact hasked (by rw [heq]; exact List.mem_cons_self) rfl
      | recordFailed _ _ _ heq => exact hasked (by rw [heq]; exact List.mem_cons_self) rfl
      | installFailed _ _ _ _ _ _ heq => exact hasked (by rw [heq]; exact List.mem_cons_self) rfl
      | staged _ _ hok => exact hfails hok
      | begun _ _ _ _ hok => exact hfails hok
  | update _ hcase =>
      cases hcase with
      | refused _ _ _ _ hnext => exact hnext ▸ .refl ctx
      | empty _ _ hok => exact hfails hok
      | injectFailed _ _ _ _ hinject => exact .of_inject hinject htrace hraised
      | failed data reply _ _ _ _ _ _ heq =>
          exact hasked (by rw [heq]; exact List.mem_append_right _ List.mem_cons_self) rfl
      | done _ _ _ _ _ _ hok => exact hfails hok
  | final _ hcase =>
      cases hcase with
      | refused _ _ _ _ hnext => exact hnext ▸ .refl ctx
      | poisoned _ _ _ _ _ hnext => exact hnext ▸ .poison ctx
      | injectFailed _ _ _ hinject => exact .of_inject hinject htrace hraised
      | failed _ _ _ _ _ _ _ heq =>
          exact hasked (by rw [heq]; exact List.mem_append_right _ List.mem_cons_self) rfl
      | done _ _ _ _ hok => exact hfails hok
  | getCtxParams _ hcase =>
      cases hcase with
      | quiet _ _ _ hnext => exact hnext ▸ .refl ctx
      | failed _ _ _ _ _ _ heq => exact hasked (by rw [heq]; exact List.mem_cons_self) rfl
      | fetched _ _ _ _ _ _ hok => exact hfails hok
  | setCtxParams _ hcase =>
      cases hcase with
      | quiet _ _ _ hnext =>
          rw [hnext]
          split
          · exact .clearTag ctx
          · exact .refl ctx
      | failed _ _ _ _ _ _ heq => exact hasked (by rw [heq]; exact List.mem_cons_self) rfl
      | done _ _ _ _ _ hok => exact hfails hok

/-! ### Inits that take the record away -/

/-- The call is an init with a tag and with a key or a change of direction. -/
def Ctx.revokedBy (ctx : Ctx) : Call → Bool
  | .init encrypt key _ params =>
      (tagOf params).isSome &&
        (!key.isNull || (ctx.directionSet && decide (ctx.encrypt ≠ encrypt)))
  | _ => false

theorem startRecord_revokes {ans : Answers} {encrypt : Bool} {iv : Buffer} {hasTag : Bool}
    {e e' : Exec} (h : startRecord ans encrypt iv hasTag e = (false, e')) :
    e'.ctx.phase = .noRecord := by
  unfold startRecord at h
  split at h
  · simp at h
  split at h
  · obtain rfl := (Prod.mk.inj h).2
    rfl
  cases encrypt with
  | false => simp at h
  | true =>
      generalize installWriteKey ans e = r at h
      obtain ⟨installed, e⟩ := r
      cases installed with
      | false =>
          obtain rfl := (Prod.mk.inj h).2
          rfl
      | true => simp at h

theorem initInner_revokes {ans : Answers} {encrypt : Bool} {key iv : Buffer}
    {params : Option (List Param)} {hasTag : Bool} {e e' : Exec}
    (h : initInner ans encrypt key iv params hasTag e = (false, e')) :
    e'.ctx.phase = .noRecord := by
  rw [initInner_eq] at h
  split at h
  · obtain rfl := (Prod.mk.inj h).2
    rfl
  split at h
  · obtain rfl := (Prod.mk.inj h).2
    rfl
  · exact startRecord_revokes h

/-- Every failing exit of such an init invalidates the record. -/
theorem init_revokes {lib : Libcrypto} {ans : Answers} {encrypt : Bool} {key iv : Buffer}
    {params : Option (List Param)} {ctx : Ctx} {e : Exec}
    (h : init lib ans encrypt key iv params ctx = (false, e))
    (hrevoked : ctx.revokedBy (.init encrypt key iv params) = true) :
    e.ctx.phase = .noRecord := by
  rw [Ctx.revokedBy] at hrevoked
  rw [init_eq] at h
  split at h
  case isTrue =>
    obtain rfl := (Prod.mk.inj h).2
    show (ctx.rejectArgs encrypt (!key.isNull) (tagOf params).isSome).phase = .noRecord
    rw [Ctx.rejectArgs, if_pos hrevoked]
    rfl
  case isFalse hargs =>
    split at h
    case isTrue hkeyless =>
      -- this exit keeps the record, but an init with a tag does not come here
      obtain ⟨htag, -⟩ := Bool.and_eq_true_iff.mp hrevoked
      rw [Bool.not_eq_true, Bool.not_eq_false', Bool.and_eq_true] at hargs
      rw [Bool.and_assoc, (newRecord_of_tag hargs.2 htag).2, Bool.and_false] at hkeyless
      cases hkeyless
    case isFalse => exact initInner_revokes h

theorem Cipher.phase_of_revoked {lib : Libcrypto} {ctx next : Ctx} {ev : Event}
    (h : Cipher.Step lib ctx ev next) (hret : ev.ret = false)
    (hrevoked : ctx.revokedBy ev.call = true) : next.phase = .noRecord := by
  obtain ⟨ans, h⟩ := h
  cases hcall : ev.call with
  | init encrypt key iv params =>
      rw [hcall] at h hrevoked
      have hfirst : (init lib ans encrypt key iv params ctx).1 = ev.ret :=
        congrArg (fun r => r.1.ret) h
      have hnext : (init lib ans encrypt key iv params ctx).2.ctx = next := congrArg Prod.snd h
      rw [← hnext]
      exact init_revokes (Prod.ext (hfirst.trans hret) rfl) hrevoked
  | _ => simp [hcall, Ctx.revokedBy] at hrevoked

/-! ### Without a record -/

/-- An update, a final, or a setting of context parameters that carries a tag. -/
def Event.usesRecord (ev : Event) : Bool :=
  match ev.call with
  | .update .. | .final _ => true
  | .setCtxParams params => (tagOf params).isSome
  | _ => false

theorem fails_of_refuses {ctx next : Ctx} {ev : Event} (h : StepCase ctx ev next)
    (hrefuses : ctx.refuses = true) (huses : ev.usesRecord = true) : ev.ret = false := by
  cases h with
  | init hcall => simp [Event.usesRecord, hcall] at huses
  | update _ hcase => exact (hcase.of_refuses hrefuses).1
  | final _ hcase => exact (hcase.of_refuses hrefuses).1
  | getCtxParams hcall => simp [Event.usesRecord, hcall] at huses
  | setCtxParams hcall hcase =>
      cases hcase with
      | quiet htag =>
          apply htag
          rwa [Event.usesRecord, hcall] at huses
      | failed _ _ _ _ hlive => simp [hrefuses] at hlive
      | done _ _ _ _ hlive => simp [hrefuses] at hlive

/-- Only an init with an IV ends that no update and no final is taken. -/
theorem refuses_step {lib : Libcrypto} {ctx next : Ctx} {ev : Event}
    (h : Cipher.Step lib ctx ev next) (hrefuses : ctx.refuses = true)
    (hbegins : ev.begins = false) : next.refuses = true := by
  by_contra hnext
  have hdead (hlive : ctx.refuses = false) : False := by
    rw [hrefuses] at hlive
    cases hlive
  cases live_cases (Cipher.step_cases h) (by simpa using hnext) with
  | begun _ hcall _ _ hret => simp [Event.begins, hcall, hret, Buffer.isNull] at hbegins
  | idle _ hlive => exact hdead hlive
  | tagged hlive => exact hdead hlive
  | fed hlive => exact hdead hlive

theorem refuses_run {lib : Libcrypto} {ctx after : Ctx} {h : List Event}
    (hrefuses : ctx.refuses = true) (run : Path (Cipher.Step lib) ctx h after)
    (hbegins : ∀ ev ∈ h, ev.begins = false) : after.refuses = true := by
  refine run.kept (p := fun ev : Event => ev.begins = true) (Q := fun ctx => ctx.refuses = true)
    ?_ ?_ hrefuses
  · intro ctx ev next hctx hev hstep
    exact refuses_step hstep hctx (by simpa using hev)
  · intro ev hev
    simp [hbegins ev hev]

/-- A rejected call narrows what the context allows.  A failed init with a tag and with a key
or a change of direction leaves no record, and until the next successful init with an IV no
update, no final and no setting of a tag succeeds. -/
theorem rejections_narrow {lib : Libcrypto} {ctx next : Ctx} {ev : Event}
    (hstep : Cipher.Step lib ctx ev next) (hret : ev.ret = false) :
    ((∀ c ∈ ev.trace, c.isInner = false) → .keyUsageLimitExceeded ∉ ev.raised →
      Narrows ctx next) ∧
    (ctx.revokedBy ev.call = true → next.phase = .noRecord ∧
      ∀ h later ev' after, Path (Cipher.Step lib) next h later →
        (∀ e ∈ h, e.begins = false) → Cipher.Step lib later ev' after →
        ev'.usesRecord = true → ev'.ret = false) := by
  refine ⟨narrows_of_rejected (Cipher.step_cases hstep) hret, fun hrevoked => ?_⟩
  have hphase := Cipher.phase_of_revoked hstep hret hrevoked
  refine ⟨hphase, fun h later ev' after run hbegins hlater huses => ?_⟩
  have hrefuses : next.refuses = true := by simp [Ctx.refuses, hphase]
  exact fails_of_refuses (Cipher.step_cases hlater) (refuses_run hrefuses run hbegins) huses

/-- A decryption record with its tag; then an init with another key and a tag, but no IV. -/
def revokedRecord : List Event × Ctx :=
  exec (Cipher.move littleEndian) (Ctx.new encryptRecordLimit)
    [(compliant 0, .init false keyA ivA none), (compliant 0, .setCtxParams (some [tagParam]))]

theorem rejections_narrow_keyWithTag :
    let rejected := Cipher.step littleEndian revokedRecord.2 (compliant 0)
      (.init false keyB (.null 0) (some [tagParam]))
    let final := Cipher.step littleEndian rejected.2 (compliant 0) (.final true)
    Narrows revokedRecord.2 rejected.2 ∧ rejected.2.phase = .noRecord ∧ final.1.ret = false := by
  intro rejected final
  have hret : rejected.1.ret = false := by decide +kernel
  obtain ⟨hnarrows, hrevokes⟩ := rejections_narrow (Cipher.step_self littleEndian
    revokedRecord.2 (compliant 0) (.init false keyB (.null 0) (some [tagParam]))) hret
  obtain ⟨hphase, hfails⟩ := hrevokes (by decide +kernel)
  have hfinal := Cipher.step_self littleEndian rejected.2 (compliant 0) (.final true)
  exact ⟨hnarrows (by decide +kernel) (by decide +kernel), hphase,
    hfails _ _ _ _ .nil (by simp) hfinal (by decide +kernel)⟩

end G301.Outer
