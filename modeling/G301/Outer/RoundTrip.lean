import G301.Outer.AeadRecord
import G301.Outer.WriteKey

/-! # From one context to another

`round_trip`: from any reachable context with room under the key, one init, updates in any
pieces, a final and a tag request seal a record; in any reachable context, one init with that
tag, updates in any other pieces and a final give the payload back.  No call on the way fails
unless a lock or the counter does.

`Going` is the invariant of a record on its way, `Going.feed` the step of one update. -/

namespace G301.Outer

open ByteString Param Lts

/-- Every lock was taken and the counter counted. -/
def Event.Undisturbed (ev : Event) : Prop := ∀ c ∈ ev.trace, c.isInner = false → c.fails = false

instance (ev : Event) : Decidable ev.Undisturbed := by
  unfold Event.Undisturbed
  infer_instance

variable {σ : Type} {evp : Evp σ} {scheme : Scheme} {view : σ → EvpView} {lib : Libcrypto}

/-- The calls of the script, undisturbed. -/
structure Carries (evp : Evp σ) (lib : Libcrypto) (p : Provider σ) (script : List Call)
    (done : List ProviderEvent) (next : Provider σ) : Prop where
  run : Path (Provider.Step evp lib) p done next
  calls : done.map (fun ev => ev.event.call) = script
  undisturbed : ∀ ev ∈ done, ev.event.Undisturbed

namespace Carries

variable {p next : Provider σ} {script : List Call} {done : List ProviderEvent}

theorem nil_inv (h : Carries evp lib p [] done next) : done = [] ∧ next = p := by
  obtain rfl := List.map_eq_nil_iff.mp h.calls
  exact ⟨rfl, h.run.nil_inv⟩

theorem cons_inv {call : Call} (h : Carries evp lib p (call :: script) done next) :
    ∃ ev mid rest, done = ev :: rest ∧ ev.event.call = call ∧ Provider.Step evp lib p ev mid ∧
      ev.event.Undisturbed ∧ Carries evp lib mid script rest next := by
  obtain ⟨ev, rest, rfl, hcall, hcalls⟩ := List.map_eq_cons_iff.mp h.calls
  obtain ⟨mid, hstep, hrun⟩ := h.run.cons_inv
  exact ⟨ev, mid, rest, rfl, hcall, hstep, h.undisturbed ev List.mem_cons_self,
    ⟨hrun, hcalls, fun x hx => h.undisturbed x (List.mem_cons_of_mem _ hx)⟩⟩

theorem append_inv {script' : List Call} (h : Carries evp lib p (script ++ script') done next) :
    ∃ mid first rest, done = first ++ rest ∧ Carries evp lib p script first mid ∧
      Carries evp lib mid script' rest next := by
  obtain ⟨first, rest, rfl, hfirst, hrest⟩ := List.map_eq_append_iff.mp h.calls
  obtain ⟨mid, hrun, hrun'⟩ := h.run.split
  exact ⟨mid, first, rest, rfl,
    ⟨hrun, hfirst, fun x hx => h.undisturbed x (List.mem_append_left _ hx)⟩,
    ⟨hrun', hrest, fun x hx => h.undisturbed x (List.mem_append_right _ hx)⟩⟩

end Carries

/-! ### Inits -/

/-- An initialized inner context has its cipher. -/
def Equipped (view : σ → EvpView) (inner : EvpInner σ) : Prop :=
  inner.initialized = true → (view inner.cipherCtx).hasCipher = true

theorem Equipped.serve {inner : EvpInner σ} (h : Equipped view inner) (hlaw : evp.Lawful scheme view)
    (hserving : evp.Serving scheme view) (c : ExtCall) :
    Equipped view (inner.serve evp c).2.2 := by
  cases c with
  | init key iv encrypt params ok =>
      intro hinit
      simp only [EvpInner.serve, EvpInner.init, Bool.or_eq_true, decide_eq_true_eq] at hinit ⊢
      refine hserving.init_hasCipher rfl ?_
      cases hset : inner.initialized with
      | true => exact .inr ⟨rfl, h hset⟩
      | false =>
          rw [hset] at hinit
          exact .inl ⟨rfl, hinit.resolve_left (by decide)⟩
  | update out data reply => exact fun hinit => (hserving.update_hasCipher _ _ _).trans (h hinit)
  | final reply => exact fun hinit => (hserving.final_hasCipher _).trans (h hinit)
  | getParams reply =>
      exact fun hinit => (congrArg EvpView.hasCipher (hlaw.getParams_view _)).trans (h hinit)
  | setParams params ok => exact fun hinit => (hserving.setParams_hasCipher _ _).trans (h hinit)
  | writeLock ok => exact h
  | atomicAdd ok => exact h

theorem Equipped.serveAll {inner : EvpInner σ} (h : Equipped view inner)
    (hlaw : evp.Lawful scheme view) (hserving : evp.Serving scheme view) (trace : List ExtCall) :
    Equipped view (inner.serveAll evp trace).2 := by
  induction trace generalizing inner with
  | nil => exact h
  | cons c trace ih => exact ih (h.serve hlaw hserving c)

theorem run_equipped {L : ℤ} {fresh : σ} {h : List ProviderEvent} {p : Provider σ}
    (hlaw : evp.Lawful scheme view) (hserving : evp.Serving scheme view)
    (run : Path (Provider.Step evp lib) (Provider.new L fresh) h p) : Equipped view p.inner := by
  refine run.invariant (P := fun _ p => Equipped view p.inner) (fun hinit => by cases hinit) ?_
  intro h p ev next _ ih hstep
  have hserved := ih.serveAll hlaw hserving ev.event.trace
  rw [hstep.served] at hserved
  exact hserved

/-- An init asks the inner context first, if it asks anything. -/
theorem InitCase.trace_eq {ctx next : Ctx} {encrypt : Bool} {key iv : Buffer}
    {params : Option (List Param)} {ev : Event}
    (h : InitCase ctx encrypt key iv params ev next) :
    ev.trace = [] ∨ ∃ ok rest, ev.trace = initRequest encrypt key iv params ok :: rest ∧
      ∀ c ∈ rest, c.isInner = false := by
  cases h with
  | rejected _ htrace => exact .inl htrace
  | innerFailed _ _ htrace => exact .inr ⟨false, [], htrace, by simp⟩
  | recordFailed _ _ _ htrace => exact .inr ⟨true, _, htrace, recordTrace_not_isInner key false⟩
  | installFailed _ _ _ _ hlocks _ htrace =>
      exact .inr ⟨true, _, htrace, locks_not_isInner key true hlocks⟩
  | staged _ _ _ htrace => exact .inr ⟨true, _, htrace, recordTrace_not_isInner key true⟩
  | begun _ _ _ hlocks _ htrace => exact .inr ⟨true, _, htrace, locks_not_isInner key true hlocks⟩

theorem init_case {ctx next : Ctx} {ev : Event} {encrypt : Bool} {key iv : Buffer}
    {params : Option (List Param)} (hstep : Cipher.Step lib ctx ev next)
    (hcall : ev.call = .init encrypt key iv params) :
    InitCase ctx encrypt key iv params ev next := by
  obtain ⟨encrypt', key', iv', params', hcall', hinit⟩ | ⟨hother, -⟩ :=
    (Cipher.step_cases hstep).frame
  · rw [hcall] at hcall'
    obtain ⟨rfl, rfl, rfl, rfl⟩ := Call.init.inj hcall'
    exact hinit
  · exact absurd hcall (hother _ _ _ _)

section
variable {p next : Provider σ} {ev : ProviderEvent} {encrypt : Bool} {key iv : Bytes}
  {tag : Option Bytes}

/-- An undisturbed init with key, IV and, for decryption, a tag succeeds. -/
theorem init_carries (hserving : evp.Serving scheme view) (hequipped : Equipped view p.inner)
    (hkey : key.length = keyLength) (hiv : iv.length = ivLength)
    (htag : ∀ t, tag = some t → encrypt = false ∧ t.length = tagLength)
    (hstep : Provider.Step evp lib p ev next)
    (hcall : ev.event.call = .init encrypt (.bytes key) (.bytes iv) (tagParams tag))
    (hundisturbed : ev.event.Undisturbed) : ev.event.ret = true := by
  have haccepts : p.ctx.Accepts lib encrypt (.bytes key) (.bytes iv) (tagParams tag) :=
    accepts_tagParams lib hkey hiv (fun _ hnull => by cases hnull)
      fun t ht => ⟨(htag t ht).1, rfl, (htag t ht).2⟩
  refine init_succeeds hstep.cipher hcall haccepts (fun _ hnull => by cases hnull) ?_
  -- the inner context does not let its init fail
  have hinner (ok : Bool)
      (hanswered : (p.inner.serve evp (initRequest encrypt (.bytes key) (.bytes iv)
        (tagParams tag) ok)).1 = initRequest encrypt (.bytes key) (.bytes iv) (tagParams tag) ok) :
      ok = true := by
    have hok := @Evp.Serving.init_ok _ evp scheme view hserving p.inner.cipherCtx
      (!p.inner.initialized) encrypt key iv
      (filtered (ivOf (tagParams tag)) (tagOf (tagParams tag)))
      (by cases hset : p.inner.initialized with
        | true => exact .inr (hequipped hset)
        | false => exact .inl rfl) hkey hiv ?_
    · simp only [initRequest, EvpInner.serve, EvpInner.init, Buffer.data?, ExtCall.init.injEq,
        true_and] at hanswered
      rw [← hanswered]
      exact decide_eq_true hok
    · intro t ht
      rw [tagBytes_filtered, tagOf_tagParams] at ht
      cases tag with
      | none => cases ht
      | some t' =>
          obtain rfl : t' = t := Option.some.inj ht
          exact htag t' rfl
  have hanswered := hstep.answered
  obtain htrace | ⟨ok, rest, htrace, hrest⟩ := (init_case hstep.cipher hcall).trace_eq
  · simp [htrace]
  · intro c hc
    rw [htrace] at hc hanswered
    obtain rfl := hinner ok hanswered.1
    obtain rfl | hc := List.mem_cons.mp hc
    · rfl
    · exact hundisturbed c (by rw [htrace]; exact List.mem_cons_of_mem _ hc) (hrest c hc)

end

/-- One more record fits under the key. -/
def Ctx.hasRoomFor (key : Bytes) (ctx : Ctx) : Bool :=
  if ctx.usageKeyValid && decide (ctx.usageKey = key) then
    !ctx.usageExhausted && decide (wrapInt (ctx.encryptedRecords + 1) ≤ ctx.recordLimit)
  else decide (1 ≤ ctx.recordLimit)

theorem hasRoom_afterInit {held : Option Bytes} {ctx : Ctx} (hagree : KeysAgree held ctx)
    {key iv : Bytes} (hasTag : Bool) (hroom : ctx.hasRoomFor key = true) :
    (ctx.afterInit true (.bytes key) (.bytes iv) hasTag).hasRoom = true := by
  have hinstalled := (hagree.takeKey true (.bytes key)).installed
  have hkeeps : (ctx.takeKey true (.bytes key)).keepsWriteKey =
      (ctx.usageKeyValid && decide (ctx.usageKey = key)) := by
    unfold Ctx.keepsWriteKey
    cases hvalid : ctx.usageKeyValid with
    | false => simp [Ctx.takeKey, Ctx.recordKey, hvalid]
    | true =>
        cases hchanged : (ctx.takeKey true (.bytes key)).currentKeyChanged with
        | false =>
            have hsame : ctx.usageKey = key := hinstalled hvalid hchanged
            simp [Ctx.takeKey, Ctx.recordKey, hvalid, hsame]
        | true => simp [Ctx.takeKey, Ctx.recordKey, hvalid]
  simp only [Ctx.afterInit, Ctx.hasRoom, Ctx.beginRecord, Ctx.installKey, Buffer.isNull,
    Bool.false_eq_true, if_false, if_true, hkeeps, Bool.false_or, Bool.true_and]
  unfold Ctx.hasRoomFor at hroom
  split at hroom
  case isTrue hsame =>
    simp only [hsame, if_true, Bool.true_and]
    exact hroom
  case isFalse hother =>
    rw [Bool.not_eq_true] at hother
    have hlimit : 1 ≤ ctx.recordLimit := of_decide_eq_true hroom
    rw [hother, if_neg (by decide)]
    simp only [Bool.false_and, Bool.not_false, Bool.true_and, decide_eq_true_eq]
    exact (wrapInt_of_le (by decide) (by decide)).trans_le hlimit

/-- A record that is counted keeps its room. -/
theorem Inject.hasRoom {ctx next : Ctx} {trace : List ExtCall} {raised : List Reason}
    (h : Inject ctx trace raised true next) (hencrypt : ctx.encrypt = true)
    (hroom : ctx.hasRoom = true) : next.hasRoom = true := by
  cases h with
  | active => exact hroom
  | injected _ hreserved =>
      cases hreserved with
      | decrypt hdecrypt => simp [hencrypt] at hdecrypt
      | again _ hagain => simp [Ctx.hasRoom, hagain]
      | counted => simp [Ctx.hasRoom]

/-! ### Data in pieces -/

/-- Updates, each with the room in its buffer and its data. -/
def feeds (toOut : Bool) (pieces : List (ℕ × Bytes)) : List Call :=
  pieces.map fun piece => .update toOut true piece.1 (.bytes piece.2)

def joined (pieces : List (ℕ × Bytes)) : Bytes := pieces.flatMap Prod.snd

/-- Every piece has a length that an update takes, and payload fits into its buffer. -/
def Fitting (toOut : Bool) (pieces : List (ℕ × Bytes)) : Prop :=
  ∀ piece ∈ pieces, (piece.2.length : ℤ) ≤ intMax ∧ (toOut = true → piece.2.length ≤ piece.1)

instance (toOut : Bool) (pieces : List (ℕ × Bytes)) : Decidable (Fitting toOut pieces) := by
  unfold Fitting
  infer_instance

/-! ### A record on its way -/

/-- A record whose caller has given `aad` and `payload` so far, and which has written `out`. -/
structure Going (scheme : Scheme) (view : σ → EvpView) (p : Provider σ) (key iv : Bytes)
    (encrypt : Bool) (tag : Option Bytes) (aad payload out : Bytes) : Prop where
  live : p.ctx.refuses = false
  encrypt_eq : p.ctx.encrypt = encrypt
  room : encrypt = true → p.ctx.hasRoom = true
  started : payload = [] → p.ctx.payloadStarted = false
  pending : p.ctx.phase = .manifestPending → aad = [] ∧ payload = []
  progress : InProgress scheme view p.inner ⟨some key, some iv, encrypt,
    if p.ctx.phase = .active then manifest ++ aad else [], payload⟩ out
  tag_eq : ∀ t, tag = some t →
    p.ctx.decryptTagCurrent = true ∧ (view p.inner.cipherCtx).tag = some t

namespace Going

variable {p next : Provider σ} {ev : ProviderEvent} {key iv : Bytes} {encrypt : Bool}
  {tag : Option Bytes} {aad payload out : Bytes}

theorem start {h : List ProviderEvent} {L : ℤ} {fresh : σ} (hlaw : evp.Lawful scheme view)
    (hserving : evp.Serving scheme view)
    (run : Path (Provider.Step evp lib) (Provider.new L fresh) h p)
    (hkey : key.length = keyLength) (hiv : iv.length = ivLength)
    (htag : ∀ t, tag = some t → encrypt = false ∧ t.length = tagLength)
    (hroom : encrypt = true → p.ctx.hasRoomFor key = true)
    (hstep : Provider.Step evp lib p ev next)
    (hcall : ev.event.call = .init encrypt (.bytes key) (.bytes iv) (tagParams tag))
    (hundisturbed : ev.event.Undisturbed) :
    ev.event.ret = true ∧ ev.out = [] ∧
      Going scheme view next key iv encrypt tag [] [] [] := by
  have hret := init_carries hserving (run_equipped hlaw hserving run) hkey hiv htag hstep hcall
    hundisturbed
  obtain ⟨hnext, rest, htrace, hrest⟩ := (init_case hstep.cipher hcall).of_true hret
  have hanswered := hstep.answered
  have hserved := hstep.served
  rw [htrace] at hanswered hserved
  rw [EvpInner.serveAll_locks _ hrest] at hserved
  have hinner : (p.inner.serve evp (initRequest encrypt (.bytes key) (.bytes iv) (tagParams tag)
      true)).2.2 = next.inner := congrArg Prod.snd hserved
  have hout : [] = ev.out := congrArg Prod.fst hserved
  have hheld := (EvpInner.serve_keyed hlaw hanswered.1).2
  obtain ⟨hprogress, hset⟩ :=
    @Mirrors.begun _ evp scheme view hlaw p.inner ⟨none, none, false, [], []⟩ _ _ _ _ _
      hanswered.1 hheld rfl
  rw [hinner] at hprogress hset
  have hphase : next.ctx.phase = .manifestPending := by
    rw [hnext]
    cases encrypt <;> rfl
  refine ⟨hret, hout.symm, ?_, ?_, ?_, ?_, fun _ => ⟨rfl, rfl⟩, ?_, ?_⟩
  · rw [hnext]
    cases encrypt <;> rfl
  · rw [hnext]
    cases encrypt <;> rfl
  · rintro rfl
    obtain ⟨held, hpath⟩ : ∃ held, Path KeyStep none
        ((Provider.events h).flatMap Event.trace) held := ⟨_, path_foldl_feed
          ⟨none, none, false, [], []⟩ _⟩
    rw [hnext]
    exact hasRoom_afterInit (run_keysAgree (Provider.path_cipher run) hpath) _ (hroom rfl)
  · intro _
    rw [hnext]
    cases encrypt <;> rfl
  · rw [hphase]
    exact hprogress
  · rintro t rfl
    obtain ⟨rfl, -⟩ := htag t rfl
    refine ⟨?_, hset t ?_⟩
    · rw [hnext]
      rfl
    · rw [tagBytes_filtered, tagOf_tagParams]
      rfl

/-- An undisturbed injection succeeds. -/
theorem not_inject (hgoing : Going scheme view p key iv encrypt tag aad payload out)
    (hserving : evp.Serving scheme view) {ctx : Ctx} {trace : List ExtCall} {raised : List Reason}
    (hinject : Inject p.ctx trace raised false ctx) (hanswered : p.inner.Answered evp trace)
    (hundisturbed : ∀ c ∈ trace, c.isInner = false → c.fails = false) : False := by
  refine inject_succeeds hserving hgoing.progress (fun hencrypt => ?_) (fun hphase => ?_) hinject
    hanswered
  · exact ⟨hgoing.room (hgoing.encrypt_eq.symm.trans hencrypt), hundisturbed⟩
  · rw [hphase]
    exact ⟨rfl, (hgoing.pending hphase).2⟩

/-- The record once its manifest is injected. -/
theorem injected (hgoing : Going scheme view p key iv encrypt tag aad payload out)
    (hlaw : evp.Lawful scheme view) {ctx : Ctx} {trace : List ExtCall} {raised : List Reason}
    (hinject : Inject p.ctx trace raised true ctx) (hanswered : p.inner.Answered evp trace) :
    InProgress scheme view (p.inner.serveAll evp trace).2
      ⟨some key, some iv, encrypt, manifest ++ aad, payload⟩ out ∧
    (view (p.inner.serveAll evp trace).2.cipherCtx).tag = (view p.inner.cipherCtx).tag := by
  obtain ⟨hprogress, htag⟩ := hgoing.progress.inject hlaw hinject hanswered
  rw [EvpInner.serveAll_inject hinject, List.append_nil, hinject.foldl_feed] at hprogress
  refine ⟨?_, htag⟩
  obtain ⟨-, ⟨hphase, -⟩ | ⟨hphase, -⟩⟩ := hinject.of_true
  · rw [if_pos hphase, if_pos hphase] at hprogress
    exact hprogress
  · obtain ⟨rfl, rfl⟩ := hgoing.pending hphase
    rw [hphase] at hprogress
    exact hprogress

/-- An undisturbed update succeeds and adds its data. -/
theorem feed (hgoing : Going scheme view p key iv encrypt tag aad payload out)
    (hlaw : evp.Lawful scheme view) (hserving : evp.Serving scheme view) {toOut : Bool}
    {outsize : ℕ} {data : Bytes} (hstep : Provider.Step evp lib p ev next)
    (hcall : ev.event.call = .update toOut true outsize (.bytes data))
    (hundisturbed : ev.event.Undisturbed) (hsize : data.length ≤ intMax)
    (hpayload : toOut = true →
      data.length ≤ outsize ∧ payload.length + data.length ≤ payloadMax)
    (haad : toOut = false →
      payload = [] ∧ (manifest ++ aad).length + data.length ≤ aadMax) :
    ev.event.ret = true ∧ Going scheme view next key iv encrypt tag
      (if toOut then aad else aad ++ data) (if toOut then payload ++ data else payload)
      (out ++ ev.out) := by
  obtain ⟨out', hasOutl', outsize', input', hcall', hcase⟩ : ∃ out hasOutl outsize input,
      ev.event.call = .update out hasOutl outsize input ∧
        UpdateCase p.ctx out hasOutl outsize input ev.event next.ctx := by
    cases Cipher.step_cases hstep.cipher with
    | update hcall hcase => exact ⟨_, _, _, _, hcall, hcase⟩
    | _ hother => simp [hcall] at hother
  obtain ⟨rfl, rfl, rfl, rfl⟩ := Call.update.inj (hcall.symm.trans hcall')
  have hanswered := hstep.answered
  have hserved := hstep.served
  cases hcase with
  | refused hcause =>
      have hadmits : p.ctx.admitsUpdate toOut true outsize (.bytes data) = true := by
        simp only [Ctx.admitsUpdate, hgoing.live, Buffer.isNull, Buffer.size, Bool.not_false,
          Bool.true_and, Bool.and_eq_true, Bool.or_eq_true]
        refine ⟨⟨decide_eq_true hsize, ?_⟩, ?_⟩
        · cases toOut with
          | false => exact .inl rfl
          | true => exact .inr (decide_eq_true (hpayload rfl).1)
        · cases toOut with
          | false => exact .inr (by rw [hgoing.started (haad rfl).1]; rfl)
          | true => exact .inl rfl
      rw [hadmits] at hcause
      cases hcause
  | empty _ hinput hret htrace _ hnext =>
      obtain rfl : data = [] := List.length_eq_zero_iff.mp hinput
      rw [htrace] at hserved
      obtain ⟨hout, hinner⟩ := Prod.mk.inj hserved
      obtain ⟨ctx, inner⟩ := next
      obtain rfl : ctx = p.ctx := hnext
      obtain rfl : p.inner = inner := hinner
      refine ⟨hret, ?_⟩
      rw [← hout, List.append_nil, List.append_nil, List.append_nil, ite_self, ite_self]
      exact hgoing
  | injectFailed _ _ _ _ hinject =>
      exact (hgoing.not_inject hserving hinject hanswered hundisturbed).elim
  | @failed trace _ data' reply hinput hdata _ hinject hreply _ htrace =>
      obtain rfl := Buffer.bytes.inj hinput
      rw [htrace, EvpInner.answered_append] at hanswered
      obtain ⟨hinjected, -⟩ := hgoing.injected hlaw hinject hanswered.1
      obtain ⟨key', iv', hready, -⟩ := hinjected.ready
      have htakes : (view (p.inner.serveAll evp trace).2.cipherCtx).gcm.Takes toOut data.length := by
        rw [hinjected.gcm_eq, Gcm.Takes]
        cases toOut with
        | false => exact haad rfl
        | true => exact (hpayload rfl).2
      obtain ⟨ret, written, after, hok, hupdate⟩ := hserving.update_ok hready htakes
      have hanswer := hanswered.2.1
      simp only [EvpInner.serve, EvpInner.update, hupdate, ExtCall.update.injEq, true_and] at hanswer
      refine (hreply ?_).elim
      rw [← hanswer, decide_eq_true hok]
  | @done trace injected data' hinput hdata _ _ hinject hret htrace _ hnext =>
      obtain rfl := Buffer.bytes.inj hinput
      rw [htrace, EvpInner.answered_append] at hanswered
      rw [htrace, EvpInner.serveAll_append, EvpInner.serveAll_single,
        EvpInner.serveAll_inject hinject, List.nil_append] at hserved
      obtain ⟨hinjected, htag⟩ := hgoing.injected hlaw hinject hanswered.1
      obtain ⟨hprogress, htag'⟩ := hinjected.update hlaw hanswered.2.1
      have hroom (hencrypt : encrypt = true) : injected.hasRoom = true :=
        hinject.hasRoom (hgoing.encrypt_eq.trans hencrypt) (hgoing.room hencrypt)
      obtain ⟨⟨records, isReserved, rfl⟩, -⟩ := hinject.of_true
      have hout : ((p.inner.serveAll evp trace).2.serve evp (dataCall toOut data)).2.1 = ev.out :=
        congrArg Prod.fst hserved
      have hinner : ((p.inner.serveAll evp trace).2.serve evp (dataCall toOut data)).2.2 =
          next.inner := congrArg Prod.snd hserved
      rw [hout, hinner] at hprogress
      rw [hinner] at htag'
      have hphase : next.ctx.phase = .active := by rw [hnext]
      have hinit := (Ctx.refuses_eq_false_iff.mp hgoing.live).1
      refine ⟨hret, ?_, ?_, ?_, ?_, ?_, ?_, ?_⟩
      · rw [hnext, Ctx.refuses_eq_false_iff]
        exact ⟨hinit, .inr rfl⟩
      · rw [hnext]
        exact hgoing.encrypt_eq
      · rw [hnext]
        exact hroom
      · rw [hnext]
        intro hempty
        cases toOut with
        | false => exact hgoing.started hempty
        | true => exact absurd (List.append_eq_nil_iff.mp hempty).2 hdata
      · rw [hphase]
        intro hpending
        cases hpending
      · rw [hphase, if_pos rfl]
        cases toOut with
        | false => simpa [Gcm.feed, dataCall] using hprogress
        | true => simpa [Gcm.feed, dataCall] using hprogress
      · intro t ht
        obtain ⟨hcurrent, hheld⟩ := hgoing.tag_eq t ht
        refine ⟨?_, (htag'.trans htag).trans hheld⟩
        rw [hnext]
        exact hcurrent

theorem feedAll (hgoing : Going scheme view p key iv encrypt tag aad payload out)
    (hlaw : evp.Lawful scheme view) (hserving : evp.Serving scheme view) {toOut : Bool}
    {pieces : List (ℕ × Bytes)} {done : List ProviderEvent}
    (hcarries : Carries evp lib p (feeds toOut pieces) done next) (hfits : Fitting toOut pieces)
    (hpayload : toOut = true → payload.length + (joined pieces).length ≤ payloadMax)
    (haad : toOut = false →
      payload = [] ∧ (manifest ++ aad).length + (joined pieces).length ≤ aadMax) :
    (∀ ev ∈ done, ev.event.ret = true) ∧ Going scheme view next key iv encrypt tag
      (if toOut then aad else aad ++ joined pieces)
      (if toOut then payload ++ joined pieces else payload) (out ++ Provider.written done) := by
  induction pieces generalizing p aad payload out done with
  | nil =>
      obtain ⟨rfl, rfl⟩ := hcarries.nil_inv
      simpa [joined, Provider.written] using hgoing
  | cons piece pieces ih =>
      obtain ⟨ev, mid, rest, rfl, hcall, hstep, hundisturbed, hrest⟩ := hcarries.cons_inv
      obtain ⟨hsize, hroomy⟩ := hfits piece List.mem_cons_self
      have hjoined : joined (piece :: pieces) = piece.2 ++ joined pieces := by simp [joined]
      have hlength : (joined (piece :: pieces)).length =
          piece.2.length + (joined pieces).length := by rw [hjoined, List.length_append]
      obtain ⟨hret, hmid⟩ := hgoing.feed hlaw hserving hstep hcall hundisturbed hsize
        (fun hout => ⟨hroomy hout, by have hbound := hpayload hout; omega⟩)
        (fun hout => ⟨(haad hout).1, by have hbound := (haad hout).2; omega⟩)
      obtain ⟨hrets, hnext⟩ := ih hmid hrest (fun x hx => hfits x (List.mem_cons_of_mem _ hx))
        (fun hout => by
          have hbound := hpayload hout
          rw [hout, if_pos rfl, List.length_append]
          omega)
        (fun hout => by
          obtain ⟨hempty, hbound⟩ := haad hout
          rw [hout, if_neg (by decide), if_neg (by decide), ← List.append_assoc,
            List.length_append]
          exact ⟨hempty, by omega⟩)
      refine ⟨List.forall_mem_cons.mpr ⟨hret, hrets⟩, ?_⟩
      rw [hjoined]
      cases toOut with
      | false => simpa [Provider.written] using hnext
      | true => simpa [Provider.written] using hnext

/-- An undisturbed final succeeds; in the decryption direction, given the tag of the record. -/
theorem final (hgoing : Going scheme view p key iv encrypt tag aad payload out)
    (hlaw : evp.Lawful scheme view) (hserving : evp.Serving scheme view)
    (hstep : Provider.Step evp lib p ev next) (hcall : ev.event.call = .final true)
    (hundisturbed : ev.event.Undisturbed)
    (htag : encrypt = false →
      tag = some (scheme.mac key iv (manifest ++ aad) payload).toList) :
    ev.event.ret = true ∧ ev.out = [] ∧ (encrypt = true →
      next.ctx.needsReinit = false ∧ next.ctx.phase = .finalized ∧ next.ctx.encrypt = true ∧
      (view next.inner.cipherCtx).finished = true ∧ (view next.inner.cipherCtx).gcm =
        ⟨some key, some iv, encrypt, manifest ++ aad, payload⟩) := by
  obtain ⟨hasOutl, hcall', hcase⟩ : ∃ hasOutl, ev.event.call = .final hasOutl ∧
      FinalCase p.ctx hasOutl ev.event next.ctx := by
    cases Cipher.step_cases hstep.cipher with
    | final hcall hcase => exact ⟨_, hcall, hcase⟩
    | _ hother => simp [hcall] at hother
  obtain rfl := Call.final.inj (hcall.symm.trans hcall')
  have hanswered := hstep.answered
  have hserved := hstep.served
  cases hcase with
  | refused hrefuses => simp [hgoing.live] at hrefuses
  | poisoned _ hcause =>
      obtain hcause | ⟨hdecrypt, hstale⟩ := hcause
      · cases hcause
      · obtain ⟨hcurrent, -⟩ :=
          hgoing.tag_eq _ (htag (hgoing.encrypt_eq.symm.trans hdecrypt))
        rw [hstale] at hcurrent
        cases hcurrent
  | injectFailed _ _ _ hinject =>
      exact (hgoing.not_inject hserving hinject hanswered hundisturbed).elim
  | @failed trace _ reply _ _ _ hinject hreply _ htrace =>
      rw [htrace, EvpInner.answered_append] at hanswered
      obtain ⟨hinjected, hheld⟩ := hgoing.injected hlaw hinject hanswered.1
      obtain ⟨key', iv', hready, -⟩ := hinjected.ready
      have hgcm := hinjected.gcm_eq
      have hkey : key' = key := by simpa [hgcm] using hready.key_eq.symm
      have hiv : iv' = iv := by simpa [hgcm] using hready.iv_eq.symm
      subst hkey hiv
      obtain ⟨ret, after, hok, hfinal⟩ : ∃ ret after, 0 < ret ∧
          evp.cipherFinal (p.inner.serveAll evp trace).2.cipherCtx = ((ret, 0), after) := by
        cases encrypt with
        | true => exact hserving.final_encrypt_ok hready (by rw [hgcm])
        | false =>
            refine hserving.final_decrypt_ok hready (by rw [hgcm]) ?_
            rw [hheld, hgcm]
            exact (hgoing.tag_eq _ (htag rfl)).2
      have hanswer := hanswered.2.1
      simp only [EvpInner.serve, EvpInner.final, hfinal, ExtCall.final.injEq] at hanswer
      refine (hreply ?_).elim
      rw [← hanswer, decide_eq_true hok]
  | @done trace injected _ _ _ hinject hret htrace _ hnext =>
      rw [htrace, EvpInner.answered_append] at hanswered
      rw [htrace, EvpInner.serveAll_append, EvpInner.serveAll_single,
        EvpInner.serveAll_inject hinject, List.nil_append] at hserved
      have hinner : ((p.inner.serveAll evp trace).2.serve evp (.final ⟨true, 0⟩)).2.2 =
          next.inner := congrArg Prod.snd hserved
      refine ⟨hret, (congrArg Prod.fst hserved).symm, ?_⟩
      rintro rfl
      obtain ⟨hinjected, -⟩ := hgoing.injected hlaw hinject hanswered.1
      have hfinished := hinjected.final_encrypt hlaw rfl hanswered.2.1 rfl
      rw [hinner] at hfinished
      obtain ⟨⟨records, isReserved, rfl⟩, -⟩ := hinject.of_true
      refine ⟨?_, ?_, ?_, hfinished⟩
      · rw [hnext]
        exact (Ctx.refuses_eq_false_iff.mp hgoing.live).1
      · rw [hnext]
      · rw [hnext]
        exact hgoing.encrypt_eq

end Going

/-! ### The tag -/

/-- A request for nothing but the tag of a finished encryption record. -/
theorem getCtxParams_tagBuffer (lib : Libcrypto) (ans : Answers) (buffer : Bytes) {ctx : Ctx}
    (hinit : ctx.needsReinit = false) (hphase : ctx.phase = .finalized)
    (hencrypt : ctx.encrypt = true) :
    getCtxParams lib ans (some [constructOctetString aeadTag (.bytes buffer)]) ctx =
      let r := getEncryptionTag ans (constructOctetString aeadTag (.bytes buffer)) (Exec.start ctx)
      (r.1, some [r.2.1], r.2.2) := by
  simp [getCtxParams, hasForbiddenLegacyParam, getCtxParamsHaveDuplicates, hasDuplicate, setSize,
    locate, constructOctetString, aeadTag, ivlen, keylen, aeadTaglen, forbidden, hinit, hphase,
    hencrypt, replace]

theorem getEncryptionTag_trace {ans : Answers} {param : Param} {ctx : Ctx}
    (htype : param.dataType = .octetString) (hnull : param.buffer.isNull = false)
    (hsize : param.buffer.size = tagLength) :
    (getEncryptionTag ans param (Exec.start ctx)).2.2.trace = [.getParams ans.getParams] := by
  rw [getEncryptionTag, if_neg (not_not.mpr htype), if_neg (by simp [hnull]),
    if_neg (not_not.mpr hsize)]
  dsimp only
  split
  · rfl
  · split <;> rfl

/-- It gives the tag of the record. -/
theorem fetch_carries {p next : Provider σ} {ev : ProviderEvent} {key iv aad payload : Bytes}
    {buffer : Bytes} (hlaw : evp.Lawful scheme view) (hserving : evp.Serving scheme view)
    (hinit : p.ctx.needsReinit = false) (hphase : p.ctx.phase = .finalized)
    (hencrypt : p.ctx.encrypt = true) (hfinished : (view p.inner.cipherCtx).finished = true)
    (hgcm : (view p.inner.cipherCtx).gcm = ⟨some key, some iv, true, aad, payload⟩)
    (hlength : buffer.length = tagLength) (hstep : Provider.Step evp lib p ev next)
    (hcall : ev.event.call =
      .getCtxParams (some [constructOctetString aeadTag (.bytes buffer)])) :
    ev.event.ret = true ∧ ev.out = [] ∧ ev.event.params.map tagBuffers =
      some [.bytes (scheme.mac key iv aad (scheme.crypt key iv 0 payload)).toList] := by
  have hanswered := hstep.answered
  have hserved := hstep.served
  obtain ⟨ans, hcipher⟩ := hstep.cipher
  rw [hcall] at hcipher
  simp only [Cipher.step, getCtxParams_tagBuffer lib ans buffer hinit hphase hencrypt] at hcipher
  obtain ⟨hevent, -⟩ := Prod.mk.inj hcipher
  have htrace : ev.event.trace = [.getParams ans.getParams] := by
    rw [← hevent]
    exact getEncryptionTag_trace rfl rfl hlength
  rw [htrace] at hanswered hserved
  have hreply : (p.inner.getParams evp).1 = ans.getParams := ExtCall.getParams.inj hanswered.1
  obtain ⟨ret, tag, after, hok, hget⟩ := hserving.getParams_ok hfinished (by rw [hgcm])
  have htag := hlaw.getParams_tag hget hok hfinished (by rw [hgcm]) (by rw [hgcm]) (by rw [hgcm])
  rw [hgcm] at htag
  simp only [EvpInner.getParams, hget, decide_eq_true hok] at hreply
  have hfetched : getEncryptionTag ans (constructOctetString aeadTag (.bytes buffer))
      (Exec.start p.ctx) = (true, { constructOctetString aeadTag (.bytes tag.toList) with
        returnSize := tagLength }, (Exec.start p.ctx).request (.getParams ans.getParams)) := by
    have hsize : (constructOctetString aeadTag (.bytes buffer)).buffer.size = tagLength := hlength
    rw [getEncryptionTag, if_neg (by simp [constructOctetString]),
      if_neg (by simp [constructOctetString, Buffer.isNull]), if_neg (not_not.mpr hsize), ← hreply]
    rfl
  rw [hfetched] at hevent
  refine ⟨by rw [← hevent], ?_, ?_⟩
  · rw [EvpInner.serveAll_single] at hserved
    exact (congrArg Prod.fst hserved).symm
  · rw [← hevent, htag]
    rfl

/-! ### The round trip -/

/-- A record from its init to its tag. -/
def sealScript (key iv : Bytes) (aads payloads : List (ℕ × Bytes)) (buffer : Bytes) : List Call :=
  .init true (.bytes key) (.bytes iv) none :: (feeds false aads ++ (feeds true payloads ++
    [.final true, .getCtxParams (some [constructOctetString aeadTag (.bytes buffer)])]))

/-- A record under its tag. -/
def openScript (key iv tag : Bytes) (aads ciphertexts : List (ℕ × Bytes)) : List Call :=
  .init false (.bytes key) (.bytes iv) (tagParams (some tag)) ::
    (feeds false aads ++ (feeds true ciphertexts ++ [.final true]))

/-- The tag in the caller's array after the last call. -/
def releasedTag (done : List ProviderEvent) : Option Bytes :=
  done.getLast?.bind fun ev => ev.event.params.bind fun params =>
    match tagBuffers params with
    | [.bytes tag] => some tag
    | _ => none

/-- Sealing succeeds, and its result is the AEAD encryption. -/
theorem seal_carries {L : ℤ} {fresh : σ} {h done : List ProviderEvent} {p next : Provider σ}
    {key iv buffer : Bytes} {aads payloads : List (ℕ × Bytes)} (hlaw : evp.Lawful scheme view)
    (hserving : evp.Serving scheme view)
    (run : Path (Provider.Step evp lib) (Provider.new L fresh) h p)
    (hkey : key.length = keyLength) (hiv : iv.length = ivLength)
    (hbuffer : buffer.length = tagLength) (hroom : p.ctx.hasRoomFor key = true)
    (haads : Fitting false aads) (hpayloads : Fitting true payloads)
    (haadMax : manifest.length + (joined aads).length ≤ aadMax)
    (hpayloadMax : (joined payloads).length ≤ payloadMax)
    (hcarries : Carries evp lib p (sealScript key iv aads payloads buffer) done next) :
    (∀ ev ∈ done, ev.event.ret = true) ∧ ∃ tag : Vector UInt8 tagLength,
      releasedTag done = some tag.toList ∧
      scheme.encrypt key iv (manifest ++ joined aads) (joined payloads) =
        (Provider.written done, tag) := by
  obtain ⟨ev, p₁, rest, rfl, hcall, hstep, hundisturbed, hrest⟩ := hcarries.cons_inv
  obtain ⟨hret, hout, hgoing⟩ := @Going.start _ evp scheme view lib p p₁ ev key iv true none h L
    fresh hlaw hserving run hkey hiv (fun t ht => by cases ht) (fun _ => hroom) hstep hcall
    hundisturbed
  obtain ⟨p₂, fed, rest, rfl, hfed, hrest⟩ := hrest.append_inv
  obtain ⟨hrets, hgoing⟩ := hgoing.feedAll hlaw hserving hfed haads (fun hout => by cases hout)
    (fun _ => ⟨rfl, by simpa using haadMax⟩)
  obtain ⟨p₃, fed', rest, rfl, hfed', hrest⟩ := hrest.append_inv
  obtain ⟨hrets', hgoing⟩ := hgoing.feedAll hlaw hserving hfed' hpayloads
    (fun _ => by simpa using hpayloadMax) (fun hout => by cases hout)
  simp only [Bool.false_eq_true, if_false, if_true, List.nil_append] at hgoing
  obtain ⟨f, p₄, rest, rfl, hcallf, hstepf, hundisturbedf, hrest⟩ := hrest.cons_inv
  obtain ⟨hretf, houtf, hfinished⟩ := hgoing.final hlaw hserving hstepf hcallf hundisturbedf
    (fun hout => by cases hout)
  obtain ⟨hinit, hphase, hencrypt, hfinished, hgcm⟩ := hfinished rfl
  obtain ⟨g, p₅, rest, rfl, hcallg, hstepg, -, hrest⟩ := hrest.cons_inv
  obtain ⟨rfl, rfl⟩ := hrest.nil_inv
  obtain ⟨hretg, houtg, htag⟩ := fetch_carries hlaw hserving hinit hphase hencrypt hfinished hgcm
    hbuffer hstepg hcallg
  obtain ⟨key', iv', hready, hwritten⟩ := hgoing.progress.ready
  have hgcm := hgoing.progress.gcm_eq
  have hkey : key' = key := by simpa [hgcm] using hready.key_eq.symm
  have hiv : iv' = iv := by simpa [hgcm] using hready.iv_eq.symm
  subst hkey hiv
  obtain ⟨params, hparams, hbuffers⟩ := Option.map_eq_some_iff.mp htag
  have hlast : (ev :: (fed ++ (fed' ++ [f, g]))).getLast? = some g := by
    have hcut : ev :: (fed ++ (fed' ++ [f, g])) = (ev :: (fed ++ (fed' ++ [f]))) ++ [g] := by simp
    rw [hcut, List.getLast?_concat]
  refine ⟨?_, scheme.mac key' iv' (manifest ++ joined aads)
    (scheme.crypt key' iv' 0 (joined payloads)), ?_, ?_⟩
  · simp only [List.mem_cons, List.mem_append, List.not_mem_nil, or_false]
    rintro x (rfl | hx | hx | rfl | rfl)
    · exact hret
    · exact hrets x hx
    · exact hrets' x hx
    · exact hretf
    · exact hretg
  · rw [releasedTag, hlast, Option.bind_some, hparams, Option.bind_some, hbuffers]
  · simp only [Provider.written, List.flatMap_cons, List.flatMap_append, List.flatMap_nil, hout,
      houtf, houtg, List.nil_append, List.append_nil] at hwritten ⊢
    rw [hwritten]
    rfl

/-- Opening under the tag of what is opened succeeds and takes the key stream off. -/
theorem open_carries {L : ℤ} {fresh : σ} {h done : List ProviderEvent} {p next : Provider σ}
    {key iv : Bytes} {tag : Vector UInt8 tagLength} {aads ciphertexts : List (ℕ × Bytes)}
    (hlaw : evp.Lawful scheme view) (hserving : evp.Serving scheme view)
    (run : Path (Provider.Step evp lib) (Provider.new L fresh) h p)
    (hkey : key.length = keyLength) (hiv : iv.length = ivLength) (haads : Fitting false aads)
    (hciphertexts : Fitting true ciphertexts)
    (haadMax : manifest.length + (joined aads).length ≤ aadMax)
    (hpayloadMax : (joined ciphertexts).length ≤ payloadMax)
    (htag : scheme.mac key iv (manifest ++ joined aads) (joined ciphertexts) = tag)
    (hcarries : Carries evp lib p (openScript key iv tag.toList aads ciphertexts) done next) :
    (∀ ev ∈ done, ev.event.ret = true) ∧
      Provider.written done = scheme.crypt key iv 0 (joined ciphertexts) := by
  obtain ⟨ev, p₁, rest, rfl, hcall, hstep, hundisturbed, hrest⟩ := hcarries.cons_inv
  obtain ⟨hret, hout, hgoing⟩ := @Going.start _ evp scheme view lib p p₁ ev key iv false
    (some tag.toList) h L fresh hlaw hserving run hkey hiv
    (fun t ht => ⟨rfl, by rw [← Option.some.inj ht, Vector.length_toList]⟩)
    (fun hencrypt => by cases hencrypt) hstep hcall hundisturbed
  obtain ⟨p₂, fed, rest, rfl, hfed, hrest⟩ := hrest.append_inv
  obtain ⟨hrets, hgoing⟩ := hgoing.feedAll hlaw hserving hfed haads (fun hout => by cases hout)
    (fun _ => ⟨rfl, by simpa using haadMax⟩)
  obtain ⟨p₃, fed', rest, rfl, hfed', hrest⟩ := hrest.append_inv
  obtain ⟨hrets', hgoing⟩ := hgoing.feedAll hlaw hserving hfed' hciphertexts
    (fun _ => by simpa using hpayloadMax) (fun hout => by cases hout)
  simp only [Bool.false_eq_true, if_false, if_true, List.nil_append] at hgoing
  obtain ⟨f, p₄, rest, rfl, hcallf, hstepf, hundisturbedf, hrest⟩ := hrest.cons_inv
  obtain ⟨rfl, rfl⟩ := hrest.nil_inv
  obtain ⟨hretf, houtf, -⟩ := hgoing.final hlaw hserving hstepf hcallf hundisturbedf
    (fun _ => by rw [← htag])
  obtain ⟨key', iv', hready, hwritten⟩ := hgoing.progress.ready
  have hgcm := hgoing.progress.gcm_eq
  have hkey : key' = key := by simpa [hgcm] using hready.key_eq.symm
  have hiv : iv' = iv := by simpa [hgcm] using hready.iv_eq.symm
  subst hkey hiv
  constructor
  · simp only [List.mem_cons, List.mem_append, List.not_mem_nil, or_false]
    rintro x (rfl | hx | hx | rfl)
    · exact hret
    · exact hrets x hx
    · exact hrets' x hx
    · exact hretf
  · simp only [Provider.written, List.flatMap_cons, List.flatMap_append, List.flatMap_nil, hout,
      houtf, List.nil_append, List.append_nil] at hwritten ⊢
    exact hwritten

/-- **Round trip.**  From any reachable context with room under the key, an init, associated data
and payload in any pieces, a final and a tag request all succeed, unless a lock or the counter
fails, and release a tag.  In any reachable context, an init with that tag, the same associated
data and the bytes written, each in any pieces, and a final all succeed, unless a lock fails, and
write the payload. -/
theorem round_trip {L : ℤ} {fresh : σ} {h done : List ProviderEvent} {p next : Provider σ}
    {key iv buffer : Bytes} {aads payloads : List (ℕ × Bytes)} (hlaw : evp.Lawful scheme view)
    (hserving : evp.Serving scheme view)
    (run : Path (Provider.Step evp lib) (Provider.new L fresh) h p)
    (hkey : key.length = keyLength) (hiv : iv.length = ivLength)
    (hbuffer : buffer.length = tagLength) (hroom : p.ctx.hasRoomFor key = true)
    (haads : Fitting false aads) (hpayloads : Fitting true payloads)
    (haadMax : manifest.length + (joined aads).length ≤ aadMax)
    (hpayloadMax : (joined payloads).length ≤ payloadMax)
    (hseal : Carries evp lib p (sealScript key iv aads payloads buffer) done next) :
    (∀ ev ∈ done, ev.event.ret = true) ∧ ∃ tag, releasedTag done = some tag ∧
      ∀ (L' : ℤ) (fresh' : σ) (h' opened : List ProviderEvent) (q next' : Provider σ)
        (aads' ciphertexts : List (ℕ × Bytes)),
        Path (Provider.Step evp lib) (Provider.new L' fresh') h' q →
        Fitting false aads' → Fitting true ciphertexts → joined aads' = joined aads →
        joined ciphertexts = Provider.written done →
        Carries evp lib q (openScript key iv tag aads' ciphertexts) opened next' →
        (∀ ev ∈ opened, ev.event.ret = true) ∧ Provider.written opened = joined payloads := by
  obtain ⟨hrets, tag, hreleased, hsealed⟩ := seal_carries hlaw hserving run hkey hiv hbuffer hroom
    haads hpayloads haadMax hpayloadMax hseal
  obtain ⟨hciphertext, htag⟩ := Prod.mk.inj hsealed
  refine ⟨hrets, tag.toList, hreleased, ?_⟩
  intro L' fresh' h' opened q next' aads' ciphertexts run' haads' hciphertexts hsame hgiven hopen
  have hlength : (joined ciphertexts).length = (joined payloads).length := by
    rw [hgiven, ← hciphertext, StreamAead.length_crypt]
  obtain ⟨hrets', hwritten⟩ := open_carries hlaw hserving run' hkey hiv haads' hciphertexts
    (by rw [hsame]; exact haadMax) (by rw [hlength]; exact hpayloadMax)
    (by rw [hsame, hgiven, ← hciphertext]; exact htag) hopen
  refine ⟨hrets', ?_⟩
  rw [hwritten, hgiven, ← hciphertext, StreamAead.crypt_crypt]

/-- The known-answer test, its associated data and plaintext cut in two, opened in one piece. -/
theorem round_trip_knownAnswer :
    let sealed := runKnownAnswer (sealScript katKey katIv
      [(0, katAad.take 2), (0, katAad.drop 2)]
      [(16, katPlaintext.take 7), (16, katPlaintext.drop 7)] (List.replicate tagLength 0))
    let opened := runKnownAnswer (openScript katKey katIv katTag.toList [(0, katAad)]
      [(16, Provider.written sealed.1)])
    (∀ ev ∈ sealed.1 ++ opened.1, ev.event.ret = true) ∧
      releasedTag sealed.1 = some katTag.toList ∧ Provider.written sealed.1 = katCiphertext ∧
      Provider.written opened.1 = katPlaintext := by
  intro sealed opened
  have hseal : Carries (EvpView.evp knownAnswer) littleEndian
      (Provider.new encryptRecordLimit .fresh) (sealScript katKey katIv
        [(0, katAad.take 2), (0, katAad.drop 2)]
        [(16, katPlaintext.take 7), (16, katPlaintext.drop 7)] (List.replicate tagLength 0))
      sealed.1 sealed.2 :=
    ⟨Provider.path_execute _ _ _ _, by decide +kernel, by decide +kernel⟩
  have hopen : Carries (EvpView.evp knownAnswer) littleEndian
      (Provider.new encryptRecordLimit .fresh) (openScript katKey katIv katTag.toList [(0, katAad)]
        [(16, Provider.written sealed.1)]) opened.1 opened.2 :=
    ⟨Provider.path_execute _ _ _ _, by decide +kernel, by decide +kernel⟩
  have htag : releasedTag sealed.1 = some katTag.toList := by decide +kernel
  obtain ⟨hrets, tag, hreleased, hopens⟩ := round_trip (EvpView.lawful knownAnswer)
    (EvpView.serving knownAnswer) .nil (by decide) (by decide) (by decide) (by decide +kernel)
    (by decide) (by decide) (by decide) (by decide) hseal
  obtain rfl : tag = katTag.toList := Option.some.inj (hreleased.symm.trans htag)
  obtain ⟨hrets', hwritten⟩ := hopens _ _ _ _ _ _ _ _ .nil (by decide) (by decide +kernel)
    (by decide) (by simp [joined]) hopen
  refine ⟨fun ev hev => ?_, htag, by decide +kernel, hwritten.trans (by decide)⟩
  obtain hev | hev := List.mem_append.mp hev
  · exact hrets ev hev
  · exact hrets' ev hev

end G301.Outer
