import G301.Outer.Contract

/-! # The shortcut of the write key

`installWriteKey` returns early, without lock and comparison, when the write key is valid and
the current key has not changed since it was installed.  `installLocked` is the function without
this shortcut, and `shortcut_agrees` says that the two leave the same context and answer alike
wherever an init calls them.

`untilInstall` runs an init up to the call (`init_eq_untilInstall`).  `KeyStep` says what a request
may do to the key that the inner context holds, `KeysAgree` is the invariant: an unchanged
current key is the write key, and a valid key is held by the inner context. -/

namespace G301.Outer

open ByteString Param Lts

/-! ### The shortcut -/

/-- `g301_install_write_key` without its shortcut. -/
def installLocked (ans : Answers) (e : Exec) : Bool × Exec :=
  if !e.ctx.currentKeyValid then (false, e)
  else
    let e := e.request (.writeLock ans.installLock)
    if !ans.installLock then (false, e)
    else if !e.ctx.currentKeyValid then (false, e)
    else
      let sameKey := e.ctx.usageKeyValid && decide (e.ctx.usageKey = e.ctx.currentKey)
      let e := if !sameKey then
          e.modify fun ctx => { ctx with
            usageKey := ctx.currentKey, usageKeyValid := true, encryptedRecords := 0,
            usageExhausted := false }
        else e
      (true, e.modify fun ctx => { ctx with currentKeyChanged := false, recordReserved := false })

/-- Where the shortcut is not taken, nothing is left out. -/
theorem installWriteKey_eq_installLocked (ans : Answers) {e : Exec}
    (h : (e.ctx.usageKeyValid && !e.ctx.currentKeyChanged) = false) :
    installWriteKey ans e = installLocked ans e := by
  unfold installWriteKey installLocked
  rw [h]
  rfl

/-- Same return value, same context. -/
def Agree (r r' : Bool × Exec) : Prop := r.1 = r'.1 ∧ r.2.ctx = r'.2.ctx

/-- The shortcut agrees with the comparison under the lock exactly if the comparison would have
found the keys equal. -/
theorem shortcut_agrees_iff (ans : Answers) {e : Exec} (hvalid : e.ctx.currentKeyValid = true)
    (husage : e.ctx.usageKeyValid = true) (hchanged : e.ctx.currentKeyChanged = false) :
    Agree (installWriteKey ans e) (installLocked { ans with installLock := true } e) ↔
      e.ctx.usageKey = e.ctx.currentKey := by
  have hshort : installWriteKey ans e =
      (true, e.modify fun ctx => { ctx with recordReserved := false }) := by
    simp [installWriteKey, hvalid, husage, hchanged]
  by_cases hkey : e.ctx.usageKey = e.ctx.currentKey
  · have hlocked : installLocked { ans with installLock := true } e =
        (true, (e.request (.writeLock true)).modify fun ctx =>
          { ctx with currentKeyChanged := false, recordReserved := false }) := by
      simp [installLocked, Exec.request, hvalid, husage, hkey]
    rw [hshort, hlocked]
    refine ⟨fun _ => hkey, fun _ => ⟨rfl, ?_⟩⟩
    show ({ e.ctx with recordReserved := false } : Ctx) =
      { e.ctx with currentKeyChanged := false, recordReserved := false }
    rw [← hchanged]
  · refine ⟨fun hagree => ?_, fun h => absurd h hkey⟩
    have hlocked : (installLocked { ans with installLock := true } e).2.ctx.usageKey =
        e.ctx.currentKey := by
      simp [installLocked, Exec.request, Exec.modify, hvalid, husage, hkey]
    have husageKey := congrArg Ctx.usageKey hagree.2
    rw [hshort, hlocked] at husageKey
    exact husageKey

/-! ### An init up to the call -/

/-- `g301_init` up to its call of `g301_install_write_key`: the outcome of an init that does not
come to it, or the state in which it is called. -/
def untilInstall (lib : Libcrypto) (ans : Answers) (encrypt : Bool) (key iv : Buffer)
    (params : Option (List Param)) (ctx : Ctx) : (Bool × Exec) ⊕ Exec :=
  let hasTag := (tagOf params).isSome
  let prepared := ctx.prepare encrypt key hasTag
  if !(sized key keyLength && sized iv ivLength &&
      (validateInitParams lib params encrypt
        (!iv.isNull && (!key.isNull || ctx.keyValid))).1) then
    .inl (false, ⟨ctx.rejectArgs encrypt (!key.isNull) hasTag, [], [.invalidParameter]⟩)
  else if !iv.isNull && key.isNull && !ctx.keyValid then
    .inl (false, ⟨ctx, [], [.invalidState]⟩)
  else if ans.init = false then
    .inl (false, ⟨(prepared.dropKey key).drop, [initRequest encrypt key iv params false], []⟩)
  else if key.isNull = false ∧ ans.recordLock = false then
    .inl (false, ⟨prepared.drop, initRequest encrypt key iv params true :: recordTrace key false,
      [.internalError]⟩)
  else
    let e : Exec := ⟨prepared.takeKey encrypt key,
      initRequest encrypt key iv params true :: recordTrace key true, []⟩
    if iv.isNull then .inl (true, e.modify Ctx.invalidateRecord)
    else if !e.ctx.keyValid then .inl (false, (e.modify Ctx.drop).raise .invalidState)
    else if encrypt then .inr e
    else .inl (true, e.modify (Ctx.beginRecord hasTag))

/-- What an init does with the answer of `g301_install_write_key`. -/
def afterInstall (r : Bool × Exec) : Bool × Exec :=
  if !r.1 then (false, (r.2.modify Ctx.drop).raise .internalError)
  else (true, r.2.modify (Ctx.beginRecord false))

theorem init_eq_untilInstall (lib : Libcrypto) (ans : Answers) (encrypt : Bool) (key iv : Buffer)
    (params : Option (List Param)) (ctx : Ctx) :
    init lib ans encrypt key iv params ctx =
      Sum.elim (fun r => r) (fun e => afterInstall (installWriteKey ans e))
        (untilInstall lib ans encrypt key iv params ctx) := by
  rw [init_eq]
  unfold untilInstall
  dsimp only
  split
  · rfl
  split
  · rfl
  rw [initInner_eq]
  split
  · rfl
  split
  · rfl
  unfold startRecord
  split
  · rfl
  split
  · rfl
  cases encrypt <;> rfl

theorem Agree.afterInstall {r r' : Bool × Exec} (h : Agree r r') :
    Agree (afterInstall r) (afterInstall r') := by
  obtain ⟨hret, hctx⟩ := h
  unfold Outer.afterInstall
  rw [hret]
  split
  · exact ⟨rfl, congrArg Ctx.drop hctx⟩
  · exact ⟨rfl, congrArg (Ctx.beginRecord false) hctx⟩

/-- The call comes after inner init and recording of the key have succeeded. -/
theorem untilInstall_eq_inr {lib : Libcrypto} {ans : Answers} {encrypt : Bool} {key iv : Buffer}
    {params : Option (List Param)} {ctx : Ctx} {e : Exec}
    (h : untilInstall lib ans encrypt key iv params ctx = .inr e) :
    e.ctx = (ctx.prepare encrypt key (tagOf params).isSome).takeKey encrypt key ∧
      e.trace = initRequest encrypt key iv params true :: recordTrace key true ∧
      e.ctx.keyValid = true := by
  unfold untilInstall at h
  dsimp only at h
  split at h
  · cases h
  split at h
  · cases h
  split at h
  · cases h
  split at h
  · cases h
  split at h
  · cases h
  split at h
  · cases h
  case isFalse hvalid =>
    split at h
    · obtain rfl := Sum.inr.inj h
      exact ⟨rfl, rfl, by simpa using hvalid⟩
    · cases h

/-! ### The key of the inner context -/

/-- What a request may do to the key that the inner context holds: only an init that passes a key
changes it, and one that fails may leave any. -/
inductive KeyStep : Option Bytes → ExtCall → Option Bytes → Prop
  | installed {held iv encrypt params} (key : Bytes) :
      KeyStep held (.init (some key) iv encrypt params true) (some key)
  | failed {held iv encrypt params} (key : Bytes) (left : Option Bytes) :
      KeyStep held (.init (some key) iv encrypt params false) left
  | keyless {held iv encrypt params ok} : KeyStep held (.init none iv encrypt params ok) held
  | other {held call} (h : call.isInit = false) : KeyStep held call held

/-- The accumulated inner context is an instance. -/
theorem keyStep_feed (gcm : Gcm) (call : ExtCall) : KeyStep gcm.key call (gcm.feed call).key := by
  cases call with
  | init key iv encrypt params ok =>
      cases key with
      | none => cases ok <;> exact .keyless
      | some key =>
          cases ok with
          | true => exact .installed key
          | false => exact .failed key none
  | update out data reply =>
      have hkey : ([.update out data reply].foldl Gcm.feed gcm).key = gcm.key :=
        Gcm.foldl_feed_key gcm (by simp [ExtCall.isInit])
      rw [List.foldl_cons, List.foldl_nil] at hkey
      rw [hkey]
      exact .other rfl
  | _ => exact .other rfl

theorem path_foldl_feed (gcm : Gcm) (trace : List ExtCall) :
    Path KeyStep gcm.key trace (trace.foldl Gcm.feed gcm).key := by
  induction trace using List.reverseRecOn with
  | nil => exact .nil
  | append_singleton trace call ih =>
      rw [List.foldl_append]
      exact ih.snoc (keyStep_feed _ call)

theorem KeyStep.eq_of_not_isInit {held held' : Option Bytes} {call : ExtCall}
    (h : KeyStep held call held') (hcall : call.isInit = false) : held' = held := by
  cases h with
  | other => rfl
  | keyless => rfl
  | installed => cases hcall
  | failed => cases hcall

theorem held_of_not_isInit {held held' : Option Bytes} {trace : List ExtCall}
    (hp : Path KeyStep held trace held') (h : ∀ c ∈ trace, c.isInit = false) : held' = held := by
  refine hp.kept (p := fun c => c.isInit = true) (Q := fun k => k = held) ?_ ?_ rfl
  · intro k c k' hk hc hstep
    rw [hstep.eq_of_not_isInit (by simpa using hc), hk]
  · intro c hc
    simp [h c hc]

/-- An inner init without a key, whatever it answers. -/
theorem held_of_keyless {held held' : Option Bytes} {encrypt ok : Bool} {size : ℕ} {iv : Buffer}
    {params : Option (List Param)} {rest : List ExtCall}
    (hp : Path KeyStep held (initRequest encrypt (.null size) iv params ok :: rest) held')
    (hrest : ∀ c ∈ rest, c.isInner = false) : held' = held := by
  obtain ⟨between, hstep, hp⟩ := hp.cons_inv
  rw [held_of_not_isInit hp fun c hc => isInit_of_not_isInner (hrest c hc)]
  cases hstep with
  | keyless => rfl
  | other h => rfl

/-- A successful inner init. -/
theorem held_of_taken {held held' : Option Bytes} {encrypt : Bool} {key iv : Buffer}
    {params : Option (List Param)} {rest : List ExtCall}
    (hp : Path KeyStep held (initRequest encrypt key iv params true :: rest) held')
    (hrest : ∀ c ∈ rest, c.isInner = false) : held' = (key.data? <|> held) := by
  cases key with
  | null size => exact held_of_keyless hp hrest
  | bytes k =>
      obtain ⟨between, hstep, hp⟩ := hp.cons_inv
      rw [held_of_not_isInit hp fun c hc => isInit_of_not_isInner (hrest c hc)]
      cases hstep with
      | installed => rfl
      | other h => cases h

/-! ### The invariant -/

structure KeysAgree (held : Option Bytes) (ctx : Ctx) : Prop where
  holds : ctx.keyValid = true → ctx.currentKeyValid = true ∧ held = some ctx.currentKey
  installed : ctx.usageKeyValid = true → ctx.currentKeyChanged = false →
    ctx.usageKey = ctx.currentKey

namespace KeysAgree

variable {held : Option Bytes} {ctx next : Ctx}

theorem congr (h : KeysAgree held ctx) (hkeys : next.keys = ctx.keys) : KeysAgree held next := by
  obtain ⟨-, hvalid, hcurrent, hcurrentValid, hchanged, husage, husageValid, -⟩ :=
    Keys.mk.inj hkeys
  constructor
  · rw [hvalid, hcurrent, hcurrentValid]
    exact h.holds
  · rw [husageValid, hchanged, husage, hcurrent]
    exact h.installed

theorem dropKey (h : KeysAgree held ctx) (key : Buffer) {left : Option Bytes}
    (hleft : key.isNull = true → left = held) : KeysAgree left (ctx.dropKey key) := by
  cases key with
  | null size =>
      rw [hleft rfl]
      exact h
  | bytes k =>
      refine ⟨fun hvalid => ?_, h.installed⟩
      cases hvalid

/-- A key that is recorded as the current one is marked as changed unless it is the same. -/
theorem takeKey (h : KeysAgree held ctx) (encrypt : Bool) (key : Buffer) :
    KeysAgree (key.data? <|> held) (ctx.takeKey encrypt key) := by
  cases key with
  | null size => exact ⟨h.holds, h.installed⟩
  | bytes k =>
      refine ⟨fun _ => ⟨rfl, rfl⟩, fun husage hchanged => ?_⟩
      obtain ⟨⟨hchanged, -⟩, hsame⟩ : (ctx.currentKeyChanged = false ∧
          ctx.currentKeyValid = true) ∧ ctx.currentKey = k := by
        simpa [Ctx.takeKey, Ctx.recordKey] using hchanged
      exact (h.installed husage hchanged).trans hsame

theorem installKey (h : KeysAgree held ctx) : KeysAgree held ctx.installKey := by
  refine ⟨h.holds, fun _ _ => ?_⟩
  show (if ctx.keepsWriteKey then ctx.usageKey else ctx.currentKey) = ctx.currentKey
  split
  case isFalse => rfl
  case isTrue hkeeps =>
    obtain ⟨husage, hsame⟩ := Bool.and_eq_true_iff.mp hkeeps
    cases hchanged : ctx.currentKeyChanged with
    | false => exact h.installed husage hchanged
    | true =>
        rw [hchanged, Bool.not_true, Bool.false_or] at hsame
        exact of_decide_eq_true hsame

/-- What one call preserves, whatever the inner context does within `KeyStep`. -/
theorem step {held' : Option Bytes} {ev : Event} (h : KeysAgree held ctx)
    (hcase : StepCase ctx ev next) (hp : Path KeyStep held ev.trace held') :
    KeysAgree held' next := by
  cases hcase.keyCase with
  | kept htrace hkeys =>
      rw [held_of_not_isInit hp htrace]
      exact h.congr hkeys
  | @dropped encrypt ok key iv params rest hrest htrace hkeys =>
      rw [htrace] at hp
      refine (h.dropKey key fun hnull => ?_).congr hkeys
      cases key with
      | null size => exact held_of_keyless hp hrest
      | bytes k => cases hnull
  | @taken encrypt key iv params locks hlocks htrace hkeys =>
      rw [htrace] at hp
      rw [held_of_taken hp (locks_not_isInner key true hlocks)]
      have htaken := h.takeKey encrypt key
      obtain hkeys | hkeys := hkeys
      · exact htaken.congr hkeys
      · exact htaken.installKey.congr hkeys

end KeysAgree

theorem run_keysAgree {lib : Libcrypto} {L : ℤ} {h : List Event} {ctx : Ctx}
    (run : Path (Cipher.Step lib) (Ctx.new L) h ctx) {held held' : Option Bytes}
    (hp : Path KeyStep held (h.flatMap Event.trace) held') : KeysAgree held' ctx := by
  induction run generalizing held' with
  | nil =>
      constructor
      · intro hvalid
        cases hvalid
      · intro husage
        cases husage
  | snoc _ hstep ih =>
      rw [List.flatMap_append, List.flatMap_singleton] at hp
      obtain ⟨between, hbefore, hev⟩ := hp.split
      exact (ih hbefore).step (Cipher.step_cases hstep) hev

/-- The state in which an init calls `installWriteKey`. -/
theorem KeysAgree.untilInstall {lib : Libcrypto} {ans : Answers} {encrypt : Bool}
    {key iv : Buffer} {params : Option (List Param)} {ctx : Ctx} {e : Exec}
    {held held' : Option Bytes} (h : KeysAgree held ctx)
    (hcall : untilInstall lib ans encrypt key iv params ctx = .inr e)
    (hp : Path KeyStep held e.trace held') : KeysAgree held' e.ctx := by
  obtain ⟨hctx, htrace, -⟩ := untilInstall_eq_inr hcall
  rw [htrace] at hp
  rw [hctx, held_of_taken hp (recordTrace_not_isInner key true)]
  have hprepared := ctx.prepare_invalidateRecord encrypt key (tagOf params).isSome
  exact (h.takeKey encrypt key).congr
    (Ctx.keys_eq_of_record (ctx.takeKey_of_dropKey encrypt hprepared))

/-- **The shortcut agrees with the full comparison.**  In every reachable state in which an init
calls `installWriteKey` and the shortcut is taken, the comparison under the lock would have found
the keys equal, and the init ends as it would have after it; what the inner context holds is the
current key whenever that is valid. -/
theorem shortcut_agrees {lib : Libcrypto} {L : ℤ} {h : List Event} {ctx : Ctx}
    (run : Path (Cipher.Step lib) (Ctx.new L) h ctx) :
    (∀ ans encrypt key iv params e, untilInstall lib ans encrypt key iv params ctx = .inr e →
      e.ctx.usageKeyValid = true → e.ctx.currentKeyChanged = false →
      Agree (installWriteKey ans e) (installLocked { ans with installLock := true } e) ∧
        Agree (init lib ans encrypt key iv params ctx)
          (afterInstall (installLocked { ans with installLock := true } e)) ∧
        e.ctx.usageKey = e.ctx.currentKey) ∧
    (ctx.usageKeyValid = true → ctx.currentKeyChanged = false →
      ctx.usageKey = ctx.currentKey) ∧
    ∀ held held', Path KeyStep held (h.flatMap Event.trace) held' →
      (ctx.keyValid = true → held' = some ctx.currentKey) ∧
      ∀ ans encrypt key iv params e held'',
        untilInstall lib ans encrypt key iv params ctx = .inr e →
        Path KeyStep held' e.trace held'' → held'' = some e.ctx.currentKey := by
  have hagree := run_keysAgree run (path_foldl_feed ⟨none, none, false, [], []⟩ _)
  refine ⟨?_, hagree.installed, fun held held' hp => ⟨?_, ?_⟩⟩
  · intro ans encrypt key iv params e hcall husage hchanged
    have hcalled := hagree.untilInstall hcall (path_foldl_feed (replay h) e.trace)
    obtain ⟨-, -, hvalid⟩ := untilInstall_eq_inr hcall
    have hkeys := hcalled.installed husage hchanged
    have hinstall := (shortcut_agrees_iff ans (hcalled.holds hvalid).1 husage hchanged).mpr hkeys
    refine ⟨hinstall, ?_, hkeys⟩
    rw [init_eq_untilInstall, hcall]
    exact hinstall.afterInstall
  · exact fun hvalid => ((run_keysAgree run hp).holds hvalid).2
  · intro ans encrypt key iv params e held'' hcall hp'
    obtain ⟨-, -, hvalid⟩ := untilInstall_eq_inr hcall
    exact (((run_keysAgree run hp).untilInstall hcall hp').holds hvalid).2

/-- The next record under the same key. -/
theorem shortcut_agrees_nextIv :
    let record := exec (Cipher.move littleEndian) (Ctx.new encryptRecordLimit)
      (encryptRecord keyA ivA)
    (∃ e, untilInstall littleEndian (compliant 0) true (.null 0) ivB none record.2 = .inr e ∧
      e.ctx.usageKeyValid = true ∧ e.ctx.currentKeyChanged = false ∧
      Agree (installWriteKey (compliant 0) e)
        (installLocked { compliant 0 with installLock := true } e) ∧
      Agree (init littleEndian (compliant 0) true (.null 0) ivB none record.2)
        (afterInstall (installLocked { compliant 0 with installLock := true } e)) ∧
      e.ctx.usageKey = e.ctx.currentKey) ∧
    (replay record.1).key = some record.2.currentKey := by
  intro record
  have hcall : ∃ e,
      untilInstall littleEndian (compliant 0) true (.null 0) ivB none record.2 = .inr e ∧
      e.ctx.usageKeyValid = true ∧ e.ctx.currentKeyChanged = false := ⟨_, rfl, rfl, rfl⟩
  obtain ⟨e, hcall, husage, hchanged⟩ := hcall
  have run : Path (Cipher.Step littleEndian) (Ctx.new encryptRecordLimit) record.1 record.2 :=
    Cipher.path_execute littleEndian _ _
  have hagrees := shortcut_agrees run
  exact ⟨⟨e, hcall, husage, hchanged, hagrees.1 _ _ _ _ _ e hcall husage hchanged⟩,
    (hagrees.2.2 _ _ (path_foldl_feed _ _)).1 rfl⟩

end G301.Outer
