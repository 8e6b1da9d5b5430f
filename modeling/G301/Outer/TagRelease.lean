import G301.Outer.Contract
import G301.Outer.Poison

/-! # The release of the encryption tag

`tag_release`: a request for context parameters writes a tag into the caller's buffer only
when the latest record is an encryption record whose final succeeded, and nothing but tag
requests has reached the inner context since; a request that fails writes none.

`tagBuffers` are the caller's tag buffers, `FinishedRecord` is the invariant of a finalized
context that is not poisoned. -/

namespace G301.Outer

open ByteString Param Lts

/-! ### The caller's tag buffers -/

/-- The buffers of the tag parameters of an array. -/
def tagBuffers (params : List Param) : List Buffer :=
  (params.filter fun param => param.key = aeadTag).map Param.buffer

theorem tagBuffers_replace_ne {params : List Param} {key : String} {value : Param}
    (hkey : value.key = key) (hne : key ≠ aeadTag) :
    tagBuffers (replace params key value) = tagBuffers params := by
  induction params with
  | nil => rfl
  | cons param rest ih =>
      by_cases hparam : param.key = key
      · have hvalue : value.key ≠ aeadTag := hkey ▸ hne
        have hold : param.key ≠ aeadTag := hparam ▸ hne
        simp [replace, tagBuffers, hparam, hvalue, hne]
      · simp only [tagBuffers, replace, if_neg hparam, List.filter_cons] at ih ⊢
        split
        · rw [List.map_cons, List.map_cons, ih]
        · exact ih

theorem tagBuffers_replace {params : List Param} {param value : Param}
    (hparam : locate params aeadTag = some param) (hkey : value.key = aeadTag) :
    ∃ others, tagBuffers params = param.buffer :: others ∧
      tagBuffers (replace params aeadTag value) = value.buffer :: others := by
  induction params with
  | nil => cases hparam
  | cons first rest ih =>
      by_cases hfirst : first.key = aeadTag
      · have heq : first = param := by simpa [locate, hfirst] using hparam
        subst heq
        exact ⟨tagBuffers rest, by simp [tagBuffers, hfirst],
          by simp [tagBuffers, replace, hfirst, hkey]⟩
      · have hrest : locate rest aeadTag = some param := by simpa [locate, hfirst] using hparam
        obtain ⟨others, hold, hnew⟩ := ih hrest
        refine ⟨others, ?_, ?_⟩
        · simpa [tagBuffers, hfirst] using hold
        · simpa [tagBuffers, replace, hfirst] using hnew

theorem tagBuffers_setSize (lib : Libcrypto) (params : List Param) {key : String} (value : ℕ)
    (hne : key ≠ aeadTag) : tagBuffers (setSize lib params key value).2 = tagBuffers params := by
  unfold setSize
  split
  case h_1 => rfl
  case h_2 param hparam =>
    have hkey : param.key = key := by
      simpa using List.find?_some hparam
    exact tagBuffers_replace_ne hkey hne

/-- The tag was fetched: the inner context reported it, with its length. -/
structure Fetched (ans : Answers) (trace : List ExtCall) : Prop where
  asked : trace = [.getParams ans.getParams]
  ok : ans.getParams.ok = true
  returnSize : ans.getParams.returnSize = tagLength

theorem getEncryptionTag_buffer {ans : Answers} {param param' : Param} {ctx : Ctx} {ret : Bool}
    {e : Exec} (h : getEncryptionTag ans param (Exec.start ctx) = (ret, param', e)) :
    param'.key = param.key ∧ (param'.buffer = param.buffer ∨
      (ret = true ∧ param.buffer.isNull = false ∧ param.buffer.size = tagLength ∧
        Fetched ans e.trace ∧ param'.buffer = .bytes ans.getParams.tag.toList)) := by
  unfold getEncryptionTag at h
  split at h
  case isTrue =>
    obtain ⟨rfl, rfl, rfl⟩ := by simpa only [Prod.mk.injEq] using h
    exact ⟨rfl, .inl rfl⟩
  split at h
  case isTrue =>
    obtain ⟨rfl, rfl, rfl⟩ := by simpa only [Prod.mk.injEq] using h
    exact ⟨rfl, .inl rfl⟩
  case isFalse hnull =>
  split at h
  case isTrue =>
    obtain ⟨rfl, rfl, rfl⟩ := by simpa only [Prod.mk.injEq] using h
    exact ⟨rfl, .inl rfl⟩
  case isFalse hsize =>
  dsimp only at h
  split at h
  case isTrue =>
    obtain ⟨rfl, rfl, rfl⟩ := by simpa only [Prod.mk.injEq] using h
    exact ⟨rfl, .inl rfl⟩
  case isFalse hok =>
  split at h
  case isTrue =>
    obtain ⟨rfl, rfl, rfl⟩ := by simpa only [Prod.mk.injEq] using h
    exact ⟨rfl, .inl rfl⟩
  case isFalse hreturn =>
    obtain ⟨rfl, rfl, rfl⟩ := by simpa only [Prod.mk.injEq] using h
    exact ⟨rfl, .inr ⟨rfl, by simpa using hnull, not_not.mp hsize,
      ⟨rfl, by simpa using hok, not_not.mp hreturn⟩, rfl⟩⟩

theorem tagBuffers_length_le {params : List Param}
    (h : getCtxParamsHaveDuplicates params = false) : (tagBuffers params).length ≤ 1 := by
  simp only [getCtxParamsHaveDuplicates, hasDuplicate, Bool.or_eq_false_iff,
    decide_eq_false_iff_not, not_lt] at h
  rw [tagBuffers, List.length_map, ← List.countP_eq_length_filter]
  exact h.2

/-- A request leaves the caller's tag buffer, or succeeds and fills it with what the inner
context reported. -/
theorem getCtxParams_buffers {lib : Libcrypto} {ans : Answers} {params : List Param} {ctx : Ctx}
    {ret : Bool} {after : Option (List Param)} {e : Exec}
    (h : getCtxParams lib ans (some params) ctx = (ret, after, e)) :
    ∃ params', after = some params' ∧ (tagBuffers params' = tagBuffers params ∨
      (ret = true ∧ Fetched ans e.trace ∧ ∃ buffer, tagBuffers params = [buffer] ∧
        buffer.isNull = false ∧ buffer.size = tagLength ∧
        tagBuffers params' = [.bytes ans.getParams.tag.toList])) := by
  simp only [getCtxParams] at h
  split at h
  case isTrue =>
    obtain ⟨rfl, rfl, rfl⟩ := by simpa only [Prod.mk.injEq] using h
    exact ⟨params, rfl, .inl rfl⟩
  case isFalse hlists =>
  have hone : (tagBuffers params).length ≤ 1 := by
    rw [Bool.or_eq_true, not_or] at hlists
    exact tagBuffers_length_le (by simpa using hlists.2)
  have hiv := @tagBuffers_setSize lib params ivlen ivLength (by decide)
  generalize setSize lib params ivlen ivLength = r at h hiv
  obtain ⟨ok, params₁⟩ := r
  cases ok
  case false =>
    obtain ⟨rfl, rfl, rfl⟩ := by simpa only [Prod.mk.injEq] using h
    exact ⟨params₁, rfl, .inl hiv⟩
  simp only [] at h hiv
  have hkey := @tagBuffers_setSize lib params₁ keylen keyLength (by decide)
  generalize setSize lib params₁ keylen keyLength = r at h hkey
  obtain ⟨ok, params₂⟩ := r
  cases ok
  case false =>
    obtain ⟨rfl, rfl, rfl⟩ := by simpa only [Prod.mk.injEq] using h
    exact ⟨params₂, rfl, .inl (hkey.trans hiv)⟩
  simp only [] at h hkey
  have htaglen := @tagBuffers_setSize lib params₂ aeadTaglen tagLength (by decide)
  generalize setSize lib params₂ aeadTaglen tagLength = r at h htaglen
  obtain ⟨ok, params₃⟩ := r
  have hsame := htaglen.trans (hkey.trans hiv)
  cases ok
  case false =>
    obtain ⟨rfl, rfl, rfl⟩ := by simpa only [Prod.mk.injEq] using h
    exact ⟨params₃, rfl, .inl hsame⟩
  simp only [] at h hsame
  split at h
  case h_1 =>
    obtain ⟨rfl, rfl, rfl⟩ := by simpa only [Prod.mk.injEq] using h
    exact ⟨params₃, rfl, .inl hsame⟩
  case h_2 param hparam =>
  split at h
  case isTrue =>
    obtain ⟨rfl, rfl, rfl⟩ := by simpa only [Prod.mk.injEq] using h
    exact ⟨params₃, rfl, .inl hsame⟩
  case isFalse =>
  generalize hfetch : getEncryptionTag ans param (Exec.start ctx) = r at h
  obtain ⟨ret', param', e'⟩ := r
  obtain ⟨rfl, rfl, rfl⟩ := by simpa only [Prod.mk.injEq] using h
  obtain ⟨hkey', hbuffer⟩ := getEncryptionTag_buffer hfetch
  have hparamKey : param.key = aeadTag := by
    simpa using List.find?_some hparam
  obtain ⟨others, hold, hnew⟩ := tagBuffers_replace hparam (hkey'.trans hparamKey)
  rw [hsame] at hold
  refine ⟨_, rfl, ?_⟩
  obtain hkept | ⟨hret, hnull, hsize, hfetched, hfilled⟩ := hbuffer
  · left
    rw [hnew, hold, hkept]
  · right
    -- duplicates are refused, so this is the only tag parameter
    have hothers : others = [] := by
      rw [hold] at hone
      exact List.length_eq_zero_iff.mp (by simpa using hone)
    subst hothers
    exact ⟨hret, hfetched, param.buffer, hold, hnull, hsize, by rw [hnew, hfilled]⟩

/-! ### A finished record -/

/-- The latest record was finished by the successful final `fin`; since then the inner context
was asked for nothing but its tag. -/
structure FinishedRecord (h : List Event) (encrypt : Bool) (pre : List Event) (first : Event)
    (mid : List Event) (fin : Event) (since : List Event) : Prop where
  record : InRecord h pre first (mid ++ fin :: since)
  encrypts : first.encrypts = encrypt
  final : ∃ hasOutl, fin.call = .final hasOutl
  succeeded : fin.ret = true
  handed : innerCalls (mid ++ [fin]) = manifestCall :: ((chunks false mid).map (dataCall false) ++
    (chunks true mid).map (dataCall true)) ++ [.final ⟨true, 0⟩]
  contents : ∃ key, replay (pre ++ first :: (mid ++ [fin])) = ⟨some key, first.iv?, encrypt,
    manifest ++ (chunks false mid).flatten, (chunks true mid).flatten⟩
  fetches : ∀ ev ∈ since, ∀ c ∈ ev.trace, ∃ reply, c = .getParams reply

/-- The calls after which a context is finalized and not poisoned. -/
inductive FinishedCase (ctx : Ctx) (ev : Event) (next : Ctx) : Prop
  | final {hasOutl : Bool} {trace : List ExtCall} {injected : Ctx}
      (hcall : ev.call = .final hasOutl) (hrefuses : ctx.refuses = false)
      (hinject : Inject ctx trace [] true injected) (hret : ev.ret = true)
      (htrace : ev.trace = trace ++ [.final ⟨true, 0⟩]) (hencrypt : next.encrypt = ctx.encrypt)
  | kept (hphase : ctx.phase = .finalized) (hinit : ctx.needsReinit = false)
      (hbegins : ev.begins = false) (hfetches : ∀ c ∈ ev.trace, ∃ reply, c = .getParams reply)
      (hencrypt : next.encrypt = ctx.encrypt)

theorem finished_cases {ctx next : Ctx} {ev : Event} (h : StepCase ctx ev next)
    (hphase : next.phase = .finalized) (hinit : next.needsReinit = false) :
    FinishedCase ctx ev next := by
  have hpoisoned {P : Prop} (h : next.needsReinit = true) : P := by
    rw [hinit] at h
    cases h
  have hlive {P : Prop} (h : ctx.refuses = false) (hsame : next.phase = ctx.phase) : P := by
    rw [Ctx.refuses_eq_false_iff, ← hsame, hphase] at h
    obtain ⟨-, h | h⟩ := h <;> cases h
  have hsame (heq : next = ctx) (hbegins : ev.begins = false) (htrace : ev.trace = []) :
      FinishedCase ctx ev next := by
    subst heq
    exact .kept hphase hinit hbegins (by simp [htrace]) rfl
  cases h with
  | init hcall hcase =>
      cases hcase with
      | rejected hret htrace _ hrejects =>
          have hbegins : ev.begins = false := by simp [Event.begins, hcall, hret]
          obtain ⟨rfl | rfl | rfl, -⟩ := hrejects
          · exact hsame rfl hbegins htrace
          · exact .kept hphase hinit hbegins (by simp [htrace]) rfl
          · cases hphase
      | innerFailed _ _ _ _ hnext => exact hpoisoned (by rw [hnext]; rfl)
      | recordFailed _ _ _ _ _ hnext => exact hpoisoned (by rw [hnext]; rfl)
      | installFailed _ _ _ _ _ _ _ _ hnext => exact hpoisoned (by rw [hnext]; rfl)
      | staged _ _ _ _ _ hnext =>
          rw [hnext] at hphase
          cases hphase
      | begun _ _ _ _ _ _ _ hnext =>
          rw [hnext] at hphase
          cases hphase
  | update hcall hcase =>
      have hbegins : ev.begins = false := by simp [Event.begins, hcall]
      cases hcase with
      | refused _ _ htrace _ hnext => exact hsame hnext hbegins htrace
      | empty hrefuses _ _ _ _ hnext => exact hlive hrefuses (by rw [hnext])
      | injectFailed _ _ _ _ hinject => exact hpoisoned hinject.refuses_of_false
      | failed _ _ _ _ _ _ _ _ _ _ hnext => exact hpoisoned (by rw [hnext]; rfl)
      | done _ _ _ _ _ hinject _ _ _ hnext =>
          obtain ⟨⟨_, _, rfl⟩, -⟩ := hinject.of_true
          rw [hnext] at hphase
          cases hphase
  | final hcall hcase =>
      have hbegins : ev.begins = false := by simp [Event.begins, hcall]
      cases hcase with
      | refused _ _ htrace _ hnext => exact hsame hnext hbegins htrace
      | poisoned _ _ _ _ _ hnext => exact hpoisoned (by rw [hnext]; rfl)
      | injectFailed _ _ _ hinject => exact hpoisoned hinject.refuses_of_false
      | failed _ _ _ _ _ _ _ _ _ hnext => exact hpoisoned (by rw [hnext]; rfl)
      | done _ hrefuses _ hinject hret htrace _ hnext =>
          refine .final hcall hrefuses hinject hret htrace ?_
          rw [hnext]
          exact congrArg Keys.encrypt hinject.frame.1
  | getCtxParams hcall hcase =>
      have hbegins : ev.begins = false := by simp [Event.begins, hcall]
      cases hcase with
      | quiet _ htrace _ hnext => exact hsame hnext hbegins htrace
      | failed _ _ _ _ _ _ _ _ hnext => exact hpoisoned (by rw [hnext]; rfl)
      | fetched reply _ _ _ _ _ _ htrace _ hnext =>
          subst hnext
          exact .kept hphase hinit hbegins (by simp [htrace]) rfl
  | setCtxParams hcall hcase =>
      have hbegins : ev.begins = false := by simp [Event.begins, hcall]
      cases hcase with
      | quiet _ htrace _ hnext =>
          split at hnext
          · subst hnext
            exact .kept hphase hinit hbegins (by simp [htrace]) rfl
          · exact hsame hnext hbegins htrace
      | failed _ _ _ _ _ _ _ _ hnext => exact hpoisoned (by rw [hnext]; rfl)
      | done _ _ _ _ hrefuses _ _ _ hnext => exact hlive hrefuses (by rw [hnext])

theorem run_finished {lib : Libcrypto} {L : ℤ} {h : List Event} {ctx : Ctx}
    (run : Path (Cipher.Step lib) (Ctx.new L) h ctx) (hphase : ctx.phase = .finalized)
    (hinit : ctx.needsReinit = false) :
    ∃ pre first mid fin since, FinishedRecord h ctx.encrypt pre first mid fin since := by
  revert hphase hinit
  refine run.invariant (P := fun h ctx => ctx.phase = .finalized → ctx.needsReinit = false →
    ∃ pre first mid fin since, FinishedRecord h ctx.encrypt pre first mid fin since) ?_ ?_
  · intro hphase
    cases hphase
  intro h ctx ev next hrun ih hstep hphase hinit
  cases finished_cases (Cipher.step_cases hstep) hphase hinit with
  | final hcall hrefuses hinject hret htrace hencrypt =>
      obtain ⟨pre, first, mid, hfed⟩ := run_fed hrun hrefuses
      obtain ⟨key, -, hcalls, hreplay⟩ := hfed.finished (run_keyInv hrun) hinject htrace
      have hdirection : first.encrypts = next.encrypt := hfed.encrypts.trans hencrypt.symm
      refine ⟨pre, first, mid, ev, [], hfed.record.snoc (by simp [Event.begins, hcall]),
        hdirection, ⟨_, hcall⟩, hret, hcalls, ⟨key, ?_⟩, by simp⟩
      rw [← hdirection, ← hreplay, hfed.record.eq]
      simp
  | kept hphase hinit hbegins hfetches hencrypt =>
      obtain ⟨pre, first, mid, fin, since, hf⟩ := ih hphase hinit
      rw [← hencrypt] at hf
      refine ⟨pre, first, mid, fin, since ++ [ev], ?_, hf.encrypts, hf.final, hf.succeeded,
        hf.handed, hf.contents, fun x hx => ?_⟩
      · have hrecord := hf.record.snoc hbegins
        rwa [List.append_assoc, List.cons_append] at hrecord
      · obtain hx | hx := List.mem_append.mp hx
        · exact hf.fetches x hx
        · rw [List.mem_singleton.mp hx]
          exact hfetches

/-! ### The release -/

/-- **Tag release.**  A request for context parameters leaves the caller's tag buffers as they
are, or it succeeds and fills the one tag buffer with the 16 bytes that the inner context
reported.  In that case the latest record is an encryption record whose final succeeded; since
then the inner context was asked for nothing but its tag, and since the record began the
context was never poisoned. -/
theorem tag_release {lib : Libcrypto} {L : ℤ} {h : List Event} {ctx next : Ctx} {ev : Event}
    {params : List Param} (run : Path (Cipher.Step lib) (Ctx.new L) h ctx)
    (hstep : Cipher.Step lib ctx ev next) (hcall : ev.call = .getCtxParams (some params)) :
    ∃ after, ev.params = some after ∧ (ev.ret = false → tagBuffers after = tagBuffers params) ∧
      (tagBuffers after = tagBuffers params ∨
        (ev.ret = true ∧
          (∃ reply : TagReply, ev.trace = [.getParams reply] ∧ reply.ok = true ∧
            reply.returnSize = tagLength ∧ tagBuffers after = [.bytes reply.tag.toList]) ∧
          ∃ pre first mid fin since, FinishedRecord h true pre first mid fin since ∧
            ∀ earlier later between, mid ++ fin :: since = earlier ++ later →
              Path (Cipher.Step lib) (Ctx.new L) (pre ++ first :: earlier) between →
              Path (Cipher.Step lib) between later ctx → between.needsReinit = false)) := by
  have hcase := Cipher.step_cases hstep
  obtain ⟨ans, hstep⟩ := hstep
  obtain ⟨call, ret, outl, given, raised, trace⟩ := ev
  obtain rfl : call = .getCtxParams (some params) := hcall
  simp only [Cipher.step] at hstep
  generalize hget : getCtxParams lib ans (some params) ctx = r at hstep
  obtain ⟨ret', after, e⟩ := r
  simp only [Prod.mk.injEq, Event.mk.injEq, true_and] at hstep
  obtain ⟨⟨rfl, -, rfl, rfl, rfl⟩, rfl⟩ := hstep
  obtain ⟨params', rfl, hsame | ⟨hret, hfetched, buffer, hold, -, -, hnew⟩⟩ :=
    getCtxParams_buffers hget
  · exact ⟨params', rfl, fun _ => hsame, .inl hsame⟩
  · refine ⟨params', rfl, fun hfailed => ?_, .inr ⟨hret, ⟨ans.getParams, hfetched.asked,
      hfetched.ok, hfetched.returnSize, hnew⟩, ?_⟩⟩
    · rw [hret] at hfailed
      cases hfailed
    obtain ⟨hinit, hencrypt, hphase⟩ :
        ctx.needsReinit = false ∧ ctx.encrypt = true ∧ ctx.phase = .finalized := by
      cases hcase with
      | getCtxParams _ hcase =>
          cases hcase with
          | quiet _ htrace => simp [hfetched.asked] at htrace
          | failed _ hinit hencrypt hphase => exact ⟨hinit, hencrypt, hphase⟩
          | fetched _ hinit hencrypt hphase => exact ⟨hinit, hencrypt, hphase⟩
      | _ hother => simp at hother
    obtain ⟨pre, first, mid, fin, since, hf⟩ := run_finished run hphase hinit
    rw [hencrypt] at hf
    refine ⟨pre, first, mid, fin, since, hf, ?_⟩
    intro earlier later between hcut hearlier hlater
    by_contra hpoisoned
    have hbegins : ∀ x ∈ later, x.begins = false := by
      intro x hx
      apply hf.record.not_begins
      rw [hcut]
      exact List.mem_append_right _ hx
    have hstill := (poisoned_run (by simpa using hpoisoned) hlater hbegins).1
    rw [hinit] at hstill
    cases hstill

/-- The tag of the test's encryption record, fetched into a buffer of zeros. -/
theorem tag_release_encryptRecord :
    let run := exec (Cipher.move littleEndian) (Ctx.new encryptRecordLimit) (encryptRecord keyA ivA)
    let buffer := constructOctetString aeadTag (.bytes (List.replicate tagLength 0))
    let get := Cipher.step littleEndian run.2 (compliant 0) (.getCtxParams (some [buffer]))
    get.1.params.map tagBuffers = some [.bytes (compliant 0).getParams.tag.toList] ∧
      ∃ pre first mid fin since, FinishedRecord run.1 true pre first mid fin since := by
  intro run buffer get
  have hfilled : get.1.params.map tagBuffers =
      some [.bytes (compliant 0).getParams.tag.toList] := by decide +kernel
  refine ⟨hfilled, ?_⟩
  obtain ⟨after, hafter, -, hkept | ⟨-, -, pre, first, mid, fin, since, hf, -⟩⟩ :=
    tag_release (Cipher.path_execute littleEndian (Ctx.new encryptRecordLimit)
      (encryptRecord keyA ivA))
      (Cipher.step_self littleEndian _ (compliant 0) (.getCtxParams (some [buffer])))
      (Cipher.step_call _ _ _ _)
  · have hzero : some [Buffer.bytes (compliant 0).getParams.tag.toList] =
        some (tagBuffers [buffer]) := by
      rw [← hkept, ← hfilled]
      exact congrArg (Option.map tagBuffers) hafter
    exact absurd hzero (by decide +kernel)
  · exact ⟨pre, first, mid, fin, since, hf⟩

end G301.Outer
